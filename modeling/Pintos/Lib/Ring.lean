import Mathlib

/-!
# Circular buffers

A buffer of `size` cells with the position `head` of the next write and the position `tail` of the
next read. One cell stays free, so that equal positions mean that the buffer is empty. The positions
carry their bound, so a buffer whose positions are out of range cannot be built.

* `Ring.contents` — what is stored, in the order in which it will be read;
* `Ring.contents_put`, `Ring.contents_get` — writing appends to it, reading takes off its front;
* `Ring.length_contents_lt` — at most `size - 1` elements are stored.
-/

namespace Pintos

structure Ring (α : Type) (size : ℕ) where
  buf : Fin size → α
  -- new elements are written here
  head : Fin size
  -- old elements are read here
  tail : Fin size

namespace Ring

variable {α : Type} {size : ℕ}

/-- The position `i` cells after `pos`. -/
def after (pos : Fin size) (i : ℕ) : Fin size := ⟨(pos + i) % size, Nat.mod_lt _ pos.pos⟩

/-- The position after `pos`. -/
def next (pos : Fin size) : Fin size := after pos 1

def isEmpty (r : Ring α size) : Bool := r.head = r.tail

def isFull (r : Ring α size) : Bool := next r.head = r.tail

/-- Write `a` at `head`. -/
def put (r : Ring α size) (a : α) : Ring α size :=
  { r with buf := Function.update r.buf r.head a, head := next r.head }

/-- The element at `tail`. -/
def front (r : Ring α size) : α := r.buf r.tail

/-- Take off the element at `tail`. -/
def get (r : Ring α size) : Ring α size := { r with tail := next r.tail }

/-- How many elements are stored. -/
def count (r : Ring α size) : ℕ := (r.head + (size - r.tail)) % size

/-- What is stored, the oldest element first. -/
def contents (r : Ring α size) : List α :=
  (List.range r.count).map fun i => r.buf (after r.tail i)

/-! ### Positions -/

/-- A sum of two positions passes the end of the buffer at most once. -/
theorem mod_size {a : ℕ} (h : a < 2 * size) :
    a % size = if a < size then a else a - size := by
  split
  · next hlt => exact Nat.mod_eq_of_lt hlt
  · next hge =>
    rw [Nat.mod_eq_sub_mod (by omega)]
    exact Nat.mod_eq_of_lt (by omega)

theorem after_val {pos : Fin size} {i : ℕ} (h : i ≤ size) :
    (after pos i : ℕ) = if pos + i < size then pos + i else pos + i - size :=
  mod_size (by have := pos.isLt; omega)

theorem next_val {pos : Fin size} :
    (next pos : ℕ) = if pos + 1 < size then pos.val + 1 else pos + 1 - size :=
  after_val pos.pos

theorem count_eq {r : Ring α size} :
    r.count = if r.head.val < r.tail then r.head + (size - r.tail) else r.head - r.tail := by
  have hh := r.head.isLt
  have ht := r.tail.isLt
  unfold count
  rw [mod_size (by omega)]
  split <;> split <;> omega

theorem count_lt {r : Ring α size} : r.count < size := Nat.mod_lt _ r.head.pos

theorem isEmpty_iff {r : Ring α size} : r.isEmpty = true ↔ r.count = 0 := by
  have hh := r.head.isLt
  have ht := r.tail.isLt
  simp only [isEmpty, decide_eq_true_eq, Fin.ext_iff]
  rw [count_eq]
  split <;> omega

theorem isFull_iff {r : Ring α size} : r.isFull = true ↔ r.count + 1 = size := by
  have hh := r.head.isLt
  have ht := r.tail.isLt
  simp only [isFull, decide_eq_true_eq, Fin.ext_iff, next_val]
  rw [count_eq]
  split <;> split <;> omega

theorem after_next {pos : Fin size} {i : ℕ} (h : i + 1 ≤ size) :
    after (next pos) i = after pos (i + 1) := by
  have hp := pos.isLt
  apply Fin.ext
  rw [after_val (by omega), after_val h, next_val]
  split <;> split <;> split <;> omega

/-- The next write goes to the cell behind the last stored element. -/
theorem after_count {r : Ring α size} : after r.tail r.count = r.head := by
  have hh := r.head.isLt
  have ht := r.tail.isLt
  apply Fin.ext
  rw [after_val (Nat.le_of_lt count_lt), count_eq]
  split <;> split <;> omega

theorem after_ne_head {r : Ring α size} {i : ℕ} (h : i < r.count) : after r.tail i ≠ r.head := by
  have hh := r.head.isLt
  have ht := r.tail.isLt
  have hc := count_lt (r := r)
  rw [Ne, Fin.ext_iff, after_val (by omega)]
  rw [count_eq] at h hc
  split at h <;> split <;> omega

/-! ### Contents -/

theorem length_contents {r : Ring α size} : r.contents.length = r.count := by
  simp [contents]

/-- One cell stays free. -/
theorem length_contents_lt {r : Ring α size} : r.contents.length < size := by
  rw [length_contents]
  exact count_lt

theorem count_put {r : Ring α size} {a : α} (h : r.isFull = false) :
    (r.put a).count = r.count + 1 := by
  have hh := r.head.isLt
  have ht := r.tail.isLt
  have hf : ¬ r.count + 1 = size := fun he => by
    rw [isFull_iff.mpr he] at h
    cases h
  rw [count_eq] at hf ⊢
  rw [count_eq]
  simp only [put, next_val]
  split at hf <;> split <;> split <;> omega

theorem count_get {r : Ring α size} (h : r.isEmpty = false) : r.get.count + 1 = r.count := by
  have hh := r.head.isLt
  have ht := r.tail.isLt
  have he : ¬ r.count = 0 := fun he => by
    rw [isEmpty_iff.mpr he] at h
    cases h
  rw [count_eq] at he ⊢
  rw [count_eq]
  simp only [get, next_val]
  split at he <;> split <;> split <;> omega

/-- **Writing appends.** -/
theorem contents_put {r : Ring α size} {a : α} (h : r.isFull = false) :
    (r.put a).contents = r.contents ++ [a] := by
  unfold contents
  rw [count_put h, List.range_succ, List.map_append, List.map_singleton]
  congr 1
  · apply List.map_congr_left
    intro i hi
    exact Function.update_of_ne (after_ne_head (List.mem_range.mp hi)) _ _
  · change [Function.update r.buf r.head a (after r.tail r.count)] = [a]
    rw [after_count, Function.update_self]

/-- **Reading takes off the front.** -/
theorem contents_get {r : Ring α size} (h : r.isEmpty = false) :
    r.contents = r.front :: r.get.contents := by
  have hc := count_lt (r := r)
  unfold contents
  rw [← count_get h, List.range_succ_eq_map, List.map_cons, List.map_map]
  congr 1
  · have h0 : after r.tail 0 = r.tail := by
      apply Fin.ext
      exact Nat.mod_eq_of_lt r.tail.isLt
    rw [h0]
    rfl
  · apply List.map_congr_left
    intro i hi
    have hi' := List.mem_range.mp hi
    rw [← count_get h] at hc
    change r.buf (after r.tail (i + 1)) = r.buf (after (next r.tail) i)
    rw [after_next (by omega)]

/-- A buffer that something was just written to is not empty. -/
theorem isEmpty_put {r : Ring α size} {a : α} (h : r.isFull = false) : (r.put a).isEmpty = false := by
  rw [Bool.eq_false_iff, Ne, isEmpty_iff, count_put h]
  omega

/-- A buffer that something was just read from is not full. -/
theorem isFull_get {r : Ring α size} (h : r.isEmpty = false) : r.get.isFull = false := by
  have hc := count_lt (r := r)
  rw [Bool.eq_false_iff, Ne, isFull_iff, count_get h]
  omega

end Ring

end Pintos

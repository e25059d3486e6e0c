import Mathlib

/-!
# Bytes

The bytes of objects and of memory.

* `splice` — a part of an object is overwritten;
* `Memory` — bytes by address, with `write` and `read` of a list of bytes and of a little-endian word;
* `read_write_self`, `read_write_of_disjoint`, `read_append` — what is read after a write, and in parts;
* `writeWord`, `fill` — writing a word, and `memset`.
-/

namespace Pintos

/-! ### Objects -/

section Splice

variable {α : Type}

/-- Overwrite the part of `dst` that starts at `i` and is as long as `src`. -/
def splice (dst : List α) (i : ℕ) (src : List α) : List α :=
  dst.take i ++ src ++ dst.drop (i + src.length)

variable {dst src : List α} {i : ℕ}

theorem length_splice (h : i + src.length ≤ dst.length) : (splice dst i src).length = dst.length := by
  simp only [splice, List.length_append, List.length_take, List.length_drop]
  omega

theorem take_splice (h : i ≤ dst.length) : (splice dst i src).take i = dst.take i := by
  rw [splice, List.append_assoc, List.take_append_of_le_length (by simp [h]), List.take_take]
  simp

theorem drop_splice (h : i ≤ dst.length) :
    (splice dst i src).drop i = src ++ dst.drop (i + src.length) := by
  have hlen : (dst.take i).length = i := by simp [h]
  rw [splice, List.append_assoc, List.drop_append_of_le_length (by omega)]
  simp

/-- What lies behind the part that is overwritten stays. -/
theorem drop_splice_of_le {n : ℕ} (hi : i + src.length ≤ n) (h : i ≤ dst.length) :
    (splice dst i src).drop n = dst.drop n := by
  obtain ⟨k, rfl⟩ := Nat.exists_eq_add_of_le hi
  have hdrop : (splice dst i src).drop (i + src.length) = dst.drop (i + src.length) := by
    rw [← List.drop_drop, drop_splice h, List.drop_left]
  rw [← List.drop_drop, hdrop, List.drop_drop]

/-- A byte of the result. -/
theorem getElem?_splice (h : i + src.length ≤ dst.length) (j : ℕ) :
    (splice dst i src)[j]? =
      if i ≤ j ∧ j < i + src.length then src[j - i]? else dst[j]? := by
  have hlen : (dst.take i).length = i := by rw [List.length_take]; omega
  rw [splice, List.append_assoc, List.getElem?_append, hlen]
  split
  · rename_i hj
    rw [if_neg (by omega), List.getElem?_take_of_lt hj]
  · rename_i hj
    rw [List.getElem?_append]
    split
    · rw [if_pos (by omega)]
    · rw [if_neg (by omega), List.getElem?_drop]
      congr 1
      omega

/-- One piece of a concatenation, with what lies around it. -/
theorem flatMap_split {β : Type} {l : List β} (h : i < l.length) (f : β → List α) :
    l.flatMap f = (l.take i).flatMap f ++ f l[i] ++ (l.drop (i + 1)).flatMap f := by
  conv_lhs => rw [← List.take_append_drop i l, List.drop_eq_getElem_cons h]
  rw [List.flatMap_append, List.flatMap_cons, List.append_assoc]

end Splice

/-! ### Words -/

/-- The `n` low bytes of a number, the lowest one first. -/
def leBytes : ℕ → ℕ → List UInt8
  | 0, _ => []
  | n + 1, w => UInt8.ofNat w :: leBytes n (w / 256)

/-- The number that the bytes stand for. -/
def ofLeBytes : List UInt8 → ℕ
  | [] => 0
  | b :: l => b.toNat + 256 * ofLeBytes l

@[simp] theorem length_leBytes (n w : ℕ) : (leBytes n w).length = n := by
  induction n generalizing w with
  | zero => rfl
  | succ n ih => simp [leBytes, ih]

theorem ofLeBytes_leBytes (n w : ℕ) : ofLeBytes (leBytes n w) = w % 256 ^ n := by
  induction n generalizing w with
  | zero => simp [leBytes, ofLeBytes, Nat.mod_one]
  | succ n ih =>
    have hbyte : (UInt8.ofNat w).toNat = w % 256 := by simp
    rw [leBytes, ofLeBytes, ih, hbyte, Nat.pow_succ', Nat.mod_mul]

theorem ofLeBytes_leBytes_of_lt {n w : ℕ} (h : w < 256 ^ n) : ofLeBytes (leBytes n w) = w := by
  rw [ofLeBytes_leBytes, Nat.mod_eq_of_lt h]

theorem ofLeBytes_lt (l : List UInt8) : ofLeBytes l < 256 ^ l.length := by
  induction l with
  | nil => decide
  | cons b l ih =>
    have hb := b.toNat_lt
    rw [ofLeBytes, List.length_cons, Nat.pow_succ]
    omega

/-! ### Memory -/

/-- Bytes by address. -/
abbrev Memory := ℕ → UInt8

namespace Memory

variable (m : Memory) (a n k : ℕ) (l : List UInt8)

/-- Write the bytes `l` from the address `a` on. -/
def write : Memory := fun x => if a ≤ x ∧ x < a + l.length then l.getD (x - a) 0 else m x

/-- The `n` bytes from the address `a` on. -/
def read : List UInt8 := (List.range n).map fun i => m (a + i)

/-- The 32-bit word at the address `a`. -/
def word : ℕ := ofLeBytes (m.read a 4)

@[simp] theorem length_read : (m.read a n).length = n := by simp [read]

theorem write_of_not_mem {x : ℕ} (h : x < a ∨ a + l.length ≤ x) : m.write a l x = m x := by
  rw [write, if_neg (by omega)]

@[simp] theorem write_nil : m.write a [] = m := by
  funext x
  exact m.write_of_not_mem a [] (Nat.lt_or_ge x a)

theorem read_append : m.read a (n + k) = m.read a n ++ m.read (a + n) k := by
  simp only [read, List.range_add, List.map_append, List.map_map]
  congr 1
  refine List.map_congr_left fun i _ => ?_
  simp [Nat.add_assoc]

theorem read_write_self : (m.write a l).read a l.length = l := by
  refine List.ext_getElem (by simp) fun i h _ => ?_
  have hi : i < l.length := by simpa using h
  simp [read, write, hi]

/-- A write does not change what lies before or behind. -/
theorem read_write_of_disjoint {b : ℕ} (h : b + n ≤ a ∨ a + l.length ≤ b) :
    (m.write a l).read b n = m.read b n := by
  refine List.map_congr_left fun i hi => m.write_of_not_mem a l ?_
  have hlt : i < n := List.mem_range.mp hi
  omega

/-- A part of what is read. -/
theorem read_of_read_append {m : Memory} {a : ℕ} {x y z : List UInt8}
    (h : m.read a (x ++ y ++ z).length = x ++ y ++ z) : m.read (a + x.length) y.length = y := by
  rw [List.length_append, List.length_append, read_append, read_append] at h
  have hxy := (List.append_inj h (by simp)).1
  exact (List.append_inj hxy (by simp)).2

theorem getElem_read {m : Memory} {a n i : ℕ} (h : i < (m.read a n).length) :
    (m.read a n)[i] = m (a + i) := by
  simp [read]

theorem take_read_add (m : Memory) (a n k : ℕ) : (m.read a (n + k)).take n = m.read a n := by
  rw [read_append, List.take_left' (by simp)]

theorem drop_read_add (m : Memory) (a n k : ℕ) : (m.read a (n + k)).drop n = m.read (a + n) k := by
  rw [read_append, List.drop_left' (by simp)]

/-- A part of what is read. -/
theorem take_drop_read {m : Memory} {a n i k : ℕ} (h : i + k ≤ n) :
    ((m.read a n).drop i).take k = m.read (a + i) k := by
  obtain ⟨r, rfl⟩ := Nat.exists_eq_add_of_le h
  rw [Nat.add_assoc, drop_read_add, take_read_add]

theorem write_write_append (m : Memory) (a : ℕ) (l l' : List UInt8) :
    (m.write a l).write (a + l.length) l' = m.write a (l ++ l') := by
  funext x
  simp only [write, List.length_append]
  by_cases hx : a ≤ x ∧ x < a + l.length
  · rw [if_neg (by omega), if_pos hx, if_pos (by omega), List.getD_append _ _ _ _ (by omega)]
  · by_cases hx' : a + l.length ≤ x ∧ x < a + l.length + l'.length
    · rw [if_pos hx', if_pos (by omega), List.getD_append_right _ _ _ _ (by omega), Nat.sub_add_eq]
    · rw [if_neg hx', if_neg hx, if_neg (by omega)]

theorem write_comm (m : Memory) {a b : ℕ} {l l' : List UInt8} (h : a + l.length ≤ b ∨ b + l'.length ≤ a) :
    (m.write a l).write b l' = (m.write b l').write a l := by
  funext x
  simp only [write]
  split
  · rw [if_neg (by omega)]
  · rfl

/-- Writing back what is there. -/
theorem write_read (m : Memory) (a n : ℕ) : m.write a (m.read a n) = m := by
  funext x
  rw [write]
  split
  · rename_i hx
    have hlt : x - a < (m.read a n).length := by omega
    rw [List.getD_eq_getElem _ _ hlt, getElem_read, Nat.add_sub_cancel' hx.1]
  · rfl

/-- Writing back what is there, with a part of it replaced. -/
theorem write_splice_read {m : Memory} {a n i : ℕ} {l : List UInt8} (h : i + l.length ≤ n) :
    m.write a (splice (m.read a n) i l) = m.write (a + i) l := by
  obtain ⟨r, rfl⟩ := Nat.exists_eq_add_of_le h
  rw [splice, drop_read_add, Nat.add_assoc, take_read_add, ← write_write_append, ← write_write_append, write_read, length_read]
  -- the last part is written back as well, behind what has been replaced
  have hrest : m.read (a + (i + l.length)) r = (m.write (a + i) l).read (a + (i + l.length)) r :=
    (m.read_write_of_disjoint (a + i) r l (by omega)).symm
  rw [List.length_append, length_read, hrest, write_read]

/-- What is read after a write that lies in it. -/
theorem read_write_inside {m : Memory} {a b n : ℕ} {l : List UInt8} (hb : b ≤ a)
    (h : a + l.length ≤ b + n) : (m.write a l).read b n = splice (m.read b n) (a - b) l := by
  obtain ⟨i, rfl⟩ := Nat.exists_eq_add_of_le hb
  obtain ⟨r, rfl⟩ : ∃ r, n = i + l.length + r := Nat.exists_eq_add_of_le (by omega)
  have hbefore : (m.write (b + i) l).read b i = m.read b i :=
    m.read_write_of_disjoint _ _ _ (by omega)
  have hbehind : (m.write (b + i) l).read (b + (i + l.length)) r = m.read (b + (i + l.length)) r :=
    m.read_write_of_disjoint _ _ _ (by omega)
  rw [read_append, read_append, hbefore, hbehind, read_write_self, splice, Nat.add_sub_cancel_left,
    drop_read_add, Nat.add_assoc i, take_read_add]

/-- A byte that has been copied. -/
theorem write_read_apply (m m' : Memory) {a b n k : ℕ} (hk : k < n) : m.write a (m'.read b n) (a + k) = m' (b + k) := by
  have hlt : k < (m'.read b n).length := by rwa [length_read]
  rw [write, if_pos ⟨Nat.le_add_right _ _, by omega⟩, Nat.add_sub_cancel_left, List.getD_eq_getElem _ _ hlt, getElem_read]

/-- Write a 32-bit word at the address `a`. -/
def writeWord (m : Memory) (a w : ℕ) : Memory := m.write a (leBytes 4 w)

/-- `memset`: `n` bytes from the address `a` on become `v`. -/
def fill (m : Memory) (a n : ℕ) (v : UInt8) : Memory := fun x => if a ≤ x ∧ x < a + n then v else m x

theorem word_congr {m m' : Memory} {a : ℕ} (h : ∀ k < 4, m' (a + k) = m (a + k)) : m'.word a = m.word a := by
  have hread : m'.read a 4 = m.read a 4 := List.map_congr_left fun k hk => h k (List.mem_range.mp hk)
  rw [word, word, hread]

theorem writeWord_of_not_mem (m : Memory) {a x : ℕ} (w : ℕ) (h : x < a ∨ a + 4 ≤ x) : m.writeWord a w x = m x :=
  m.write_of_not_mem a _ (by rwa [length_leBytes])

theorem word_writeWord_self (m : Memory) (a : ℕ) {w : ℕ} (h : w < 2 ^ 32) : (m.writeWord a w).word a = w := by
  have hread : (m.writeWord a w).read a 4 = leBytes 4 w := by
    have := m.read_write_self a (leBytes 4 w)
    rwa [length_leBytes] at this
  rw [word, hread, ofLeBytes_leBytes_of_lt h]

theorem word_writeWord_of_disjoint (m : Memory) {a b : ℕ} (w : ℕ) (h : b + 4 ≤ a ∨ a + 4 ≤ b) :
    (m.writeWord a w).word b = m.word b :=
  word_congr fun k hk => m.writeWord_of_not_mem w (by omega)

theorem fill_of_not_mem (m : Memory) {a n x : ℕ} (v : UInt8) (h : x < a ∨ a + n ≤ x) : m.fill a n v x = m x := by
  rw [fill, if_neg (by omega)]

end Memory
end Pintos

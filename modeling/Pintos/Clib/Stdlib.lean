import Pintos.Devices.Block
import Pintos.Lib.HeapSort

/-!
# Sorting and searching arrays

`sort` and `binary_search` of `lib/stdlib.c`, on the bytes of memory. An array is given by its address, the number of
its elements and their size. An access to an element that is not in the array is `wild`; a loop that needs more turns
than there are elements is `running`.

* `view_doSwap` — `do_swap` exchanges two elements and changes nothing else;
* `heapify_eq`, `sort_eq` — `heapify` and `sort` do to the elements what the abstract functions of `HeapSort` do;
* `searchLoop_spec` — the search keeps the place of the key between its two pointers;
* `sort_and_search` — the result.
-/

namespace Pintos
namespace Clib

open HeapSort

/-- An array in memory. -/
structure Arr where
  base : ℕ
  cnt : ℕ
  size : ℕ

/-- The content of an element. -/
abbrev Elem (A : Arr) := Vector UInt8 A.size

variable {A : Arr}

/-- The element at an address. -/
def Arr.elemAt (A : Arr) (m : Memory) (a : ℕ) : Elem A := .ofFn fun i => m (a + i)

/-- The address of the element with this index. Indexes start at 1. -/
def Arr.addr (A : Arr) (idx : ℕ) : ℕ := A.base + (idx - 1) * A.size

/-- There is an element with this index. -/
def Arr.Has (A : Arr) (idx : ℕ) : Prop := 1 ≤ idx ∧ idx ≤ A.cnt

instance (A : Arr) (idx : ℕ) : Decidable (A.Has idx) := inferInstanceAs (Decidable (_ ∧ _))

/-- The loop of `do_swap`, with `n` turns left. -/
def swapLoop (a b : ℕ) : ℕ → ℕ → Memory → Memory
  | _, 0, m => m
  | i, n + 1, m =>
    let t := m (a + i)
    let m := Function.update m (a + i) (m (b + i))
    swapLoop a b (i + 1) n (Function.update m (b + i) t)

/-- `do_swap`. -/
def doSwap (A : Arr) (m : Memory) (aIdx bIdx : ℕ) : Except Halt Memory :=
  if A.Has aIdx ∧ A.Has bIdx then return swapLoop (A.addr aIdx) (A.addr bIdx) 0 A.size m else throw .wild

/-- `do_compare`. -/
def doCompare (A : Arr) (compare : Elem A → Elem A → ℤ) (m : Memory) (aIdx bIdx : ℕ) : Except Halt ℤ :=
  if A.Has aIdx ∧ A.Has bIdx then return compare (A.elemAt m (A.addr aIdx)) (A.elemAt m (A.addr bIdx)) else throw .wild

/-- One of the two tests of `heapify`: `c`, if it is not behind `cnt` and greater than `max`. -/
def greater (A : Arr) (compare : Elem A → Elem A → ℤ) (cnt : ℕ) (m : Memory) (max c : ℕ) : Except Halt ℕ :=
  if c ≤ cnt then do
    if 0 < (← doCompare A compare m c max) then return c else return max
  else return max

/-- `heapify`, in at most `n` turns. -/
def heapify (A : Arr) (compare : Elem A → Elem A → ℤ) (cnt : ℕ) : ℕ → ℕ → Memory → Except Halt Memory
  | 0, _, _ => throw .running
  | n + 1, i, m => do
    let left := 2 * i % 2 ^ 32
    let right := (2 * i + 1) % 2 ^ 32
    let max := i
    let max ← greater A compare cnt m max left
    let max ← greater A compare cnt m max right
    if max = i then return m
    else
      let m ← doSwap A m i max
      heapify A compare cnt n max m

/-- The first loop of `sort`. -/
def buildLoop (A : Arr) (compare : Elem A → Elem A → ℤ) (n : ℕ) : ℕ → Memory → Except Halt Memory
  | 0, m => return m
  | i + 1, m => do
    let m ← heapify A compare A.cnt n (i + 1) m
    buildLoop A compare n i m

/-- The second loop of `sort`. -/
def drainLoop (A : Arr) (compare : Elem A → Elem A → ℤ) (n : ℕ) : ℕ → Memory → Except Halt Memory
  | 0, m => return m
  | 1, m => return m
  | i + 2, m => do
    let m ← doSwap A m 1 (i + 2)
    let m ← heapify A compare (i + 1) n 1 m
    drainLoop A compare n (i + 1) m

/-- `sort`. -/
def sort (A : Arr) (compare : Elem A → Elem A → ℤ) (m : Memory) : Except Halt Memory := do
  if ¬ (A.base ≠ 0 ∨ A.cnt = 0) ∨ A.size = 0 then throw .assertion
  else
    let m ← buildLoop A compare A.cnt (A.cnt / 2) m
    drainLoop A compare A.cnt A.cnt m

/-- The loop of `binary_search`, in at most `n` turns. -/
def searchLoop (A : Arr) (compare : Elem A → Elem A → ℤ) (m : Memory) (key : Elem A) :
    ℕ → ℕ → ℕ → Except Halt (Option ℕ)
  | 0, _, _ => throw .running
  | n + 1, first, last =>
    if first < last then
      let range := (last - first) / A.size
      let middle := first + range / 2 * A.size
      if A.base ≤ middle ∧ middle + A.size ≤ A.base + A.size * A.cnt then
        let cmp := compare key (A.elemAt m middle)
        if cmp < 0 then searchLoop A compare m key n first middle
        else if 0 < cmp then searchLoop A compare m key n (middle + A.size) last
        else return some middle
      else throw .wild
    else return none

/-- `binary_search`. -/
def binarySearch (A : Arr) (compare : Elem A → Elem A → ℤ) (m : Memory) (key : Elem A) : Except Halt (Option ℕ) :=
  searchLoop A compare m key (A.cnt + 1) A.base (A.base + A.size * A.cnt)

/-! ### The elements -/

/-- The element with an index. -/
def Arr.view (A : Arr) (m : Memory) : ℕ → Elem A
  | 0 => .replicate A.size 0
  | k + 1 => A.elemAt m (A.base + k * A.size)

/-- The elements in order. -/
def Arr.elems (A : Arr) (m : Memory) : List (Elem A) := (List.range' 1 A.cnt).map (A.view m)

variable {m : Memory} {a b i n : ℕ}

/-- What the loop of `do_swap` leaves, if the two ranges do not overlap. -/
theorem swapLoop_apply (h : a + (i + n) ≤ b ∨ b + (i + n) ≤ a) (x : ℕ) :
    swapLoop a b i n m x =
      if a + i ≤ x ∧ x < a + i + n then m (b + (x - a))
      else if b + i ≤ x ∧ x < b + i + n then m (a + (x - b))
      else m x := by
  induction n generalizing i m with
  | zero => rw [swapLoop, if_neg (by omega), if_neg (by omega)]
  | succ n ih =>
    rw [swapLoop, ih (by omega)]
    simp only [Function.update_apply]
    by_cases hxa : x = a + i
    · subst hxa
      rw [if_neg (by omega), if_neg (by omega), if_neg (by omega), if_pos rfl, if_pos (by omega), Nat.add_sub_cancel_left]
    · by_cases hxb : x = b + i
      · subst hxb
        rw [if_neg (by omega), if_neg (by omega), if_pos rfl, if_neg (by omega), if_pos (by omega), Nat.add_sub_cancel_left]
      · by_cases hina : a + (i + 1) ≤ x ∧ x < a + (i + 1) + n
        · rw [if_pos hina, if_neg (by omega), if_neg (by omega), if_pos (by omega)]
        · by_cases hinb : b + (i + 1) ≤ x ∧ x < b + (i + 1) + n
          · rw [if_neg hina, if_pos hinb, if_neg (by omega), if_neg (by omega), if_neg (by omega), if_pos (by omega)]
          · rw [if_neg hina, if_neg hinb, if_neg hxb, if_neg hxa, if_neg (by omega), if_neg (by omega)]

theorem Arr.elemAt_congr {m' : Memory} {a' : ℕ} (h : ∀ i < A.size, m' (a' + i) = m (a + i)) :
    A.elemAt m' a' = A.elemAt m a := by
  rw [Arr.elemAt, Arr.elemAt]
  congr 1
  funext i
  exact h i i.isLt

/-- Different elements do not overlap. -/
theorem addr_apart (size : ℕ) {k l : ℕ} (hne : k ≠ l) : k * size + size ≤ l * size ∨ l * size + size ≤ k * size := by
  rcases Nat.lt_or_gt_of_ne hne with hlt | hlt
  · exact .inl (by rw [← Nat.succ_mul]; exact Nat.mul_le_mul_right _ hlt)
  · exact .inr (by rw [← Nat.succ_mul]; exact Nat.mul_le_mul_right _ hlt)

/-- The bytes outside the array stay. -/
def Arr.Frame (A : Arr) (m m' : Memory) : Prop :=
  ∀ x, x < A.base ∨ A.base + A.size * A.cnt ≤ x → m' x = m x

/-- `do_swap` exchanges two elements. -/
theorem doSwap_eq {k l : ℕ} (hk : A.Has k) (hl : A.Has l) (hne : k ≠ l) :
    ∃ m', doSwap A m k l = .ok m' ∧ A.view m' = swap (A.view m) k l ∧ A.Frame m m' := by
  obtain ⟨k, rfl⟩ : ∃ k', k = k' + 1 := ⟨k - 1, by have := hk.1; omega⟩
  obtain ⟨l, rfl⟩ : ∃ l', l = l' + 1 := ⟨l - 1, by have := hl.1; omega⟩
  have hk' : k < A.cnt := hk.2
  have hl' : l < A.cnt := hl.2
  have hkl := addr_apart A.size (fun h => hne (congrArg Nat.succ h) : k ≠ l)
  have hkcnt : k * A.size + A.size ≤ A.size * A.cnt := by
    rw [← Nat.succ_mul, Nat.mul_comm]
    exact Nat.mul_le_mul_left _ hk'
  have hlcnt : l * A.size + A.size ≤ A.size * A.cnt := by
    rw [← Nat.succ_mul, Nat.mul_comm]
    exact Nat.mul_le_mul_left _ hl'
  have happly := swapLoop_apply (m := m) (a := A.base + k * A.size) (b := A.base + l * A.size) (i := 0) (n := A.size)
    (by omega)
  refine ⟨_, if_pos ⟨hk, hl⟩, ?_, ?_⟩
  · funext x
    rw [Arr.addr, Arr.addr, Nat.add_sub_cancel, Nat.add_sub_cancel]
    cases x with
    | zero => exact (swap_of_ne _ (Nat.succ_ne_zero k).symm (Nat.succ_ne_zero l).symm).symm
    | succ x =>
      by_cases hxk : x = k
      · subst hxk
        rw [swap_left]
        refine Arr.elemAt_congr fun i hi => ?_
        rw [happly, if_pos (by omega)]
        congr 1
        omega
      · by_cases hxl : x = l
        · subst hxl
          rw [swap_right]
          refine Arr.elemAt_congr fun i hi => ?_
          rw [happly, if_neg (by omega), if_pos (by omega)]
          congr 1
          omega
        · rw [swap_of_ne _ (mt Nat.succ.inj hxk) (mt Nat.succ.inj hxl)]
          have hk := addr_apart A.size hxk
          have hl := addr_apart A.size hxl
          refine Arr.elemAt_congr fun i hi => ?_
          rw [happly, if_neg (by omega), if_neg (by omega)]
  · intro x hx
    rw [Arr.addr, Arr.addr, Nat.add_sub_cancel, Nat.add_sub_cancel, happly, if_neg (by omega), if_neg (by omega)]

/-! ### Sorting -/

variable {compare : Elem A → Elem A → ℤ} {cnt : ℕ} {m' : Memory}

theorem Arr.elemAt_addr {k : ℕ} (hk : A.Has k) : A.elemAt m (A.addr k) = A.view m k := by
  obtain ⟨k, rfl⟩ : ∃ k', k = k' + 1 := ⟨k - 1, by have := hk.1; omega⟩
  rfl

theorem Arr.Frame.refl (m : Memory) : A.Frame m m := fun _ _ => rfl

theorem Arr.Frame.trans {m₁ m₂ : Memory} (h : A.Frame m m₁) (h' : A.Frame m₁ m₂) : A.Frame m m₂ :=
  fun x hx => (h' x hx).trans (h x hx)

/-- A test of `heapify` compares the elements of these indexes. -/
theorem greater_eq {max c : ℕ} (hcnt : cnt ≤ A.cnt) (hmax : A.Has max) (hc : 1 ≤ c) :
    greater A compare cnt m max c = .ok (larger compare cnt (A.view m) max c) := by
  rw [greater, larger]
  by_cases hle : c ≤ cnt
  · have hhas : A.Has c := ⟨hc, by omega⟩
    rw [if_pos hle, doCompare, if_pos ⟨hhas, hmax⟩, Arr.elemAt_addr hhas, Arr.elemAt_addr hmax]
    by_cases hpos : 0 < compare (A.view m c) (A.view m max)
    · rw [if_pos ⟨hle, hpos⟩]
      exact if_pos hpos
    · rw [if_neg (fun h => hpos h.2)]
      exact if_neg hpos
  · rw [if_neg hle, if_neg (fun h => hle h.1)]
    rfl

theorem has_larger {max c : ℕ} (hcnt : cnt ≤ A.cnt) (hmax : A.Has max) (hc : 1 ≤ c) (f : ℕ → Elem A) :
    A.Has (larger compare cnt f max c) := by
  unfold larger
  split
  next h => exact ⟨hc, Nat.le_trans h.1 hcnt⟩
  next => exact hmax

/-- One turn of `heapify`. -/
theorem heapify_succ (hcnt : cnt ≤ A.cnt) (hsize : A.cnt < 2 ^ 31) (hi : A.Has i) :
    heapify A compare cnt (n + 1) i m =
      if largest compare cnt (A.view m) i = i then .ok m
      else doSwap A m i (largest compare cnt (A.view m) i) >>=
        heapify A compare cnt n (largest compare cnt (A.view m) i) := by
  have h1 := hi.1
  have h2 := hi.2
  have hmax : A.Has (larger compare cnt (A.view m) i (2 * i)) := has_larger hcnt hi (by omega) _
  rw [heapify, Nat.mod_eq_of_lt (by omega : 2 * i < 2 ^ 32), Nat.mod_eq_of_lt (by omega : 2 * i + 1 < 2 ^ 32),
    greater_eq hcnt hi (by omega)]
  change (greater A compare cnt m _ _ >>= _) = _
  rw [greater_eq hcnt hmax (by omega)]
  rfl

/-- `heapify` sifts down. -/
theorem heapify_eq {f' : ℕ → Elem A} (hcnt : cnt ≤ A.cnt) (hsize : A.cnt < 2 ^ 31) (hi : A.Has i)
    (h : siftDown compare cnt n i (A.view m) = some f') :
    ∃ m', heapify A compare cnt n i m = .ok m' ∧ A.view m' = f' ∧ A.Frame m m' := by
  induction n generalizing i m with
  | zero => cases h
  | succ n ih =>
    have h1 := hi.1
    have hmax : A.Has (larger compare cnt (A.view m) i (2 * i)) := has_larger hcnt hi (by omega) _
    have hlargest : A.Has (largest compare cnt (A.view m) i) := has_larger hcnt hmax (by omega) _
    rw [siftDown] at h
    rw [heapify_succ hcnt hsize hi]
    by_cases hmi : largest compare cnt (A.view m) i = i
    · rw [if_pos hmi] at h ⊢
      cases h
      exact ⟨m, rfl, rfl, .refl m⟩
    · rw [if_neg hmi] at h ⊢
      obtain ⟨m₁, hswap, hview, hframe⟩ := doSwap_eq (m := m) hi hlargest (Ne.symm hmi)
      rw [← hview] at h
      obtain ⟨m₂, hrest, hview₂, hframe₂⟩ := ih hlargest h
      refine ⟨m₂, ?_, hview₂, hframe.trans hframe₂⟩
      rw [hswap]
      exact hrest

theorem buildLoop_eq {f' : ℕ → Elem A} (hsize : A.cnt < 2 ^ 31) (hi : i ≤ A.cnt)
    (h : buildHeap compare A.cnt n i (A.view m) = some f') :
    ∃ m', buildLoop A compare n i m = .ok m' ∧ A.view m' = f' ∧ A.Frame m m' := by
  induction i generalizing m with
  | zero =>
    cases h
    exact ⟨m, rfl, rfl, .refl m⟩
  | succ i ih =>
    obtain ⟨f₁, hsift, h⟩ := Option.bind_eq_some_iff.mp h
    obtain ⟨m₁, hheapify, rfl, hframe⟩ := heapify_eq (Nat.le_refl _) hsize ⟨Nat.succ_pos i, hi⟩ hsift
    obtain ⟨m₂, hrest, hview, hframe₂⟩ := ih (by omega) h
    refine ⟨m₂, ?_, hview, hframe.trans hframe₂⟩
    rw [buildLoop, hheapify]
    exact hrest

theorem drainLoop_eq {f' : ℕ → Elem A} (hsize : A.cnt < 2 ^ 31) (hi : i ≤ A.cnt)
    (h : drain compare n i (A.view m) = some f') :
    ∃ m', drainLoop A compare n i m = .ok m' ∧ A.view m' = f' ∧ A.Frame m m' := by
  induction i generalizing m with
  | zero =>
    cases h
    exact ⟨m, rfl, rfl, .refl m⟩
  | succ i ih =>
    cases i with
    | zero =>
      cases h
      exact ⟨m, rfl, rfl, .refl m⟩
    | succ i =>
      obtain ⟨m₁, hswap, hview, hframe⟩ := doSwap_eq (m := m) (⟨Nat.le_refl 1, by omega⟩ : A.Has 1)
        (⟨by omega, hi⟩ : A.Has (i + 2)) (by omega)
      obtain ⟨f₁, hsift, h⟩ := Option.bind_eq_some_iff.mp h
      rw [← hview] at hsift
      obtain ⟨m₂, hheapify, rfl, hframe₂⟩ := heapify_eq (by omega) hsize ⟨Nat.le_refl 1, by omega⟩ hsift
      obtain ⟨m₃, hrest, hview₃, hframe₃⟩ := ih (by omega) h
      refine ⟨m₃, ?_, hview₃, (hframe.trans hframe₂).trans hframe₃⟩
      rw [drainLoop, hswap]
      change (heapify A compare (i + 1) n 1 m₁ >>= _) = _
      rw [hheapify]
      exact hrest

/-- An array as the C language has it: not at address 0 unless it is empty, and with less than `2 ^ 31` bytes. -/
structure Arr.Valid (A : Arr) : Prop where
  base : A.base ≠ 0 ∨ A.cnt = 0
  size : 0 < A.size
  bytes : A.cnt * A.size < 2 ^ 31

theorem Arr.Valid.cnt_lt (h : A.Valid) : A.cnt < 2 ^ 31 :=
  Nat.lt_of_le_of_lt (Nat.le_mul_of_pos_right _ h.size) h.bytes

/-- The elements are in non-decreasing order. -/
def Arr.Sorted (A : Arr) (compare : Elem A → Elem A → ℤ) (m : Memory) : Prop :=
  (A.elems m).Pairwise fun x y => compare x y ≤ 0

theorem pairwise_range' {f : ℕ → Elem A} (h : ∀ k l, 1 ≤ k → k ≤ l → l ≤ cnt → compare (f k) (f l) ≤ 0) :
    ((List.range' 1 cnt).map f).Pairwise fun x y => compare x y ≤ 0 := by
  rw [List.pairwise_map]
  refine List.Pairwise.imp_of_mem ?_ (List.pairwise_lt_range' ..)
  intro k l hk hl hlt
  rw [List.mem_range'_1] at hk hl
  exact h k l hk.1 (Nat.le_of_lt hlt) (by omega)

/-- **`sort` sorts.** -/
theorem sort_eq (hA : A.Valid) (hcmp : TotalPreorder compare) (m : Memory) :
    ∃ m', sort A compare m = .ok m' ∧ (A.elems m').Perm (A.elems m) ∧ A.Sorted compare m' ∧ A.Frame m m' := by
  obtain ⟨f₁, f₂, hbuild, hdrain, hre, hsorted⟩ := sorted_heapSort hcmp (Nat.lt_succ_self A.cnt) (A.view m)
  obtain ⟨m₁, hloop, rfl, hframe⟩ := buildLoop_eq hA.cnt_lt (Nat.div_le_self _ _) hbuild
  obtain ⟨m₂, hloop₂, rfl, hframe₂⟩ := drainLoop_eq hA.cnt_lt (Nat.le_refl _) hdrain
  refine ⟨m₂, ?_, hre.perm, pairwise_range' hsorted, hframe.trans hframe₂⟩
  rw [sort, if_neg (by rintro (h | h); exacts [h hA.base, absurd h (Nat.ne_of_gt hA.size)]), hloop]
  exact hloop₂

/-! ### Searching -/

variable {key : Elem A}

/-- What is known of the elements that have been left out. -/
structure Narrowed (A : Arr) (compare : Elem A → Elem A → ℤ) (m : Memory) (key : Elem A) (lo hi : ℕ) : Prop where
  le : lo ≤ hi
  le_cnt : hi ≤ A.cnt
  below : ∀ k < lo, 0 < compare key (A.view m (k + 1))
  above : ∀ k, hi ≤ k → k < A.cnt → compare key (A.view m (k + 1)) < 0

theorem searchLoop_spec (key : Elem A) (hA : A.Valid) (hcmp : TotalPreorder compare)
    (hsorted : ∀ k l, k ≤ l → l < A.cnt → compare (A.view m (k + 1)) (A.view m (l + 1)) ≤ 0) {lo hi : ℕ}
    (h : Narrowed A compare m key lo hi) (hn : hi < n + lo) :
    ∃ r, searchLoop A compare m key n (A.base + lo * A.size) (A.base + hi * A.size) = .ok r ∧
      (∀ p, r = some p → ∃ k < A.cnt, p = A.base + k * A.size ∧ compare key (A.view m (k + 1)) = 0) ∧
      (r = none → ∀ k < A.cnt, compare key (A.view m (k + 1)) ≠ 0) := by
  induction n generalizing lo hi with
  | zero => exact absurd h.le (by omega)
  | succ n ih =>
    have hsize := hA.size
    have hle := h.le
    rw [searchLoop]
    by_cases hlt : lo < hi
    · obtain ⟨mid, hmid⟩ : ∃ mid, mid = lo + (hi - lo) / 2 := ⟨_, rfl⟩
      have hmidcnt : mid < A.cnt := Nat.lt_of_lt_of_le (by omega) h.le_cnt
      have hbytes : lo * A.size < hi * A.size := Nat.mul_lt_mul_of_pos_right hlt hsize
      have hrange : (A.base + hi * A.size - (A.base + lo * A.size)) / A.size = hi - lo := by
        rw [Nat.add_sub_add_left, ← Nat.sub_mul, Nat.mul_div_cancel _ hsize]
      have hmiddle : A.base + lo * A.size + (hi - lo) / 2 * A.size = A.base + mid * A.size := by
        rw [hmid, Nat.add_mul, Nat.add_assoc]
      have hinside : A.base + mid * A.size + A.size ≤ A.base + A.size * A.cnt := by
        rw [Nat.add_assoc, ← Nat.succ_mul, Nat.mul_comm A.size]
        exact Nat.add_le_add_left (Nat.mul_le_mul_right _ hmidcnt) _
      rw [if_pos (by omega)]
      simp only [hrange, hmiddle]
      rw [if_pos ⟨Nat.le_add_right _ _, hinside⟩]
      change ∃ r, (if compare key (A.view m (mid + 1)) < 0 then _
        else if 0 < compare key (A.view m (mid + 1)) then _ else _) = _ ∧ _
      by_cases hneg : compare key (A.view m (mid + 1)) < 0
      · rw [if_pos hneg]
        refine ih ⟨by omega, Nat.le_of_lt hmidcnt, h.below, fun k hk hkcnt => ?_⟩ (by omega)
        -- the elements from the middle on are not less than it
        have hgt := (hcmp.neg_iff key (A.view m (mid + 1))).mp hneg
        by_contra hge
        have hle := Int.not_lt.mp (mt (hcmp.neg_iff key (A.view m (k + 1))).mpr hge)
        exact Int.not_le.mpr hgt (hcmp.trans _ _ _ (hsorted mid k hk hkcnt) hle)
      · by_cases hpos : 0 < compare key (A.view m (mid + 1))
        · rw [if_neg hneg, if_pos hpos, show A.base + mid * A.size + A.size = A.base + (mid + 1) * A.size by
            rw [Nat.add_assoc, ← Nat.succ_mul]]
          refine ih ⟨by omega, h.le_cnt, fun k hk => ?_, h.above⟩ (by omega)
          by_contra hle
          exact Int.not_le.mpr hpos (hcmp.trans _ _ _ (Int.not_lt.mp hle) (hsorted k mid (by omega) hmidcnt))
        · rw [if_neg hneg, if_neg hpos]
          refine ⟨some (A.base + mid * A.size), rfl, ?_, ?_⟩
          · intro p hp
            exact ⟨mid, hmidcnt, (Option.some.inj hp).symm, by omega⟩
          · intro hnone
            cases hnone
    · obtain rfl : lo = hi := by omega
      rw [if_neg (by omega)]
      refine ⟨none, rfl, ?_, fun _ k hk => ?_⟩
      · intro p hp
        cases hp
      rcases Nat.lt_or_ge k lo with hklo | hklo
      · exact Int.ne_of_gt (h.below k hklo)
      · exact Int.ne_of_lt (h.above k hklo hk)

theorem Arr.Sorted.view_le (h : A.Sorted compare m) (hcmp : TotalPreorder compare) (k l : ℕ) (hkl : k ≤ l)
    (hl : l < A.cnt) : compare (A.view m (k + 1)) (A.view m (l + 1)) ≤ 0 := by
  rcases Nat.eq_or_lt_of_le hkl with rfl | hlt
  · exact hcmp.refl _
  · have hlen : (A.elems m).length = A.cnt := by rw [Arr.elems, List.length_map, List.length_range']
    have hget : ∀ j (hj : j < (A.elems m).length), (A.elems m)[j] = A.view m (j + 1) := fun j hj => by
      simp only [Arr.elems, List.getElem_map, List.getElem_range', Nat.one_mul, Nat.add_comm]
    have := List.pairwise_iff_getElem.mp h k l (by omega) (by omega) hlt
    rwa [hget, hget] at this

theorem Arr.mem_elems {x : Elem A} : x ∈ A.elems m ↔ ∃ k < A.cnt, A.view m (k + 1) = x := by
  rw [Arr.elems, List.mem_map]
  constructor
  · rintro ⟨k, hk, rfl⟩
    rw [List.mem_range'_1] at hk
    exact ⟨k - 1, by omega, by rw [Nat.sub_add_cancel hk.1]⟩
  · rintro ⟨k, hk, rfl⟩
    exact ⟨k + 1, List.mem_range'_1.mpr (by omega), rfl⟩

/-- **Sorting and searching.** `sort` leaves the elements of the array in order and changes nothing else. In a sorted
array `binary_search` returns the address of an element that is equal to the key if there is one, and `NULL`
otherwise. Neither leaves the array. -/
theorem sort_and_search (A : Arr) (hA : A.Valid) (compare : Elem A → Elem A → ℤ) (hcmp : TotalPreorder compare)
    (m : Memory) :
    (∃ m', sort A compare m = .ok m' ∧ (A.elems m').Perm (A.elems m) ∧ A.Sorted compare m' ∧ A.Frame m m') ∧
    (A.Sorted compare m → ∀ key : Elem A, ∃ r, binarySearch A compare m key = .ok r ∧
      (∀ p, r = some p → ∃ k < A.cnt, p = A.base + k * A.size ∧ compare key (A.elemAt m p) = 0) ∧
      (r = none ↔ ∀ x ∈ A.elems m, compare key x ≠ 0)) := by
  refine ⟨sort_eq hA hcmp m, fun hsorted key => ?_⟩
  obtain ⟨r, hr, hsome, hnone⟩ := searchLoop_spec key hA hcmp (hsorted.view_le hcmp) (n := A.cnt + 1)
    (⟨Nat.zero_le _, Nat.le_refl _, fun k hk => absurd hk (Nat.not_lt_zero k), fun k hk hk' => by omega⟩ :
      Narrowed A compare m key 0 A.cnt) (by omega)
  refine ⟨r, ?_, ?_, ?_⟩
  · rw [Nat.zero_mul] at hr
    rw [binarySearch, Nat.mul_comm A.size]
    exact hr
  · intro p hp
    obtain ⟨k, hk, rfl, heq⟩ := hsome p hp
    exact ⟨k, hk, rfl, heq⟩
  · constructor
    · intro h x hx
      obtain ⟨k, hk, rfl⟩ := Arr.mem_elems.mp hx
      exact hnone h k hk
    · intro h
      cases r with
      | none => rfl
      | some p =>
        obtain ⟨k, hk, -, heq⟩ := hsome p rfl
        exact absurd heq (h _ (Arr.mem_elems.mpr ⟨k, hk, rfl⟩))

/-- Three elements of two bytes. -/
def pairs : Arr := ⟨0x1000, 3, 2⟩

/-- Compare the first byte only. -/
def byFirst (x y : Elem pairs) : ℤ := ((x.toList.headD 0).toNat : ℤ) - (y.toList.headD 0).toNat

/-- Elements that are equal for the comparison, and a key that none of them is equal to. -/
theorem sort_and_search_pairs :
    pairs.Valid ∧ TotalPreorder byFirst ∧
    (∃ m', sort pairs byFirst (fun x => UInt8.ofNat (0x1004 - x)) = .ok m' ∧ pairs.Sorted byFirst m') ∧
    (∃ r, binarySearch pairs byFirst (fun _ => 7) #v[9, 7] = .ok r ∧ r = none) := by
  have hvalid : pairs.Valid := ⟨by decide, by decide, by decide⟩
  have hcmp : TotalPreorder byFirst :=
    ⟨fun a b => by unfold byFirst; omega, fun a b c => by unfold byFirst; omega⟩
  obtain ⟨m', hsort, -, hsorted, -⟩ :=
    (sort_and_search pairs hvalid byFirst hcmp fun x => UInt8.ofNat (0x1004 - x)).1
  have hconst : pairs.Sorted byFirst fun _ => 7 := by
    unfold Arr.Sorted byFirst
    decide +kernel
  obtain ⟨r, hsearch, -, hnone⟩ := (sort_and_search pairs hvalid byFirst hcmp fun _ => 7).2 hconst #v[9, 7]
  exact ⟨hvalid, hcmp, ⟨m', hsort, hsorted⟩, r, hsearch, hnone.mpr (by unfold byFirst; decide +kernel)⟩

end Clib
end Pintos

import Mathlib

/-!
# Heap sort

Sequences with the positions `1 .. cnt`, given by a function, and a comparison `cmp a b` that is positive if `a` is
greater than `b`. The children of position `i` are `2 * i` and `2 * i + 1`.

* `siftDown` — an element is moved down until it is not less than its children;
* `siftDown_spec` — the heap property is restored, nothing but the positions from `i` to `cnt` is rearranged, and
  `cnt + 1 - i` turns are enough;
* `buildHeap`, `drain` — the two loops of heap sort;
* `sorted_heapSort` — the result is sorted and a rearrangement.
-/

namespace Pintos
namespace HeapSort

variable {α : Type} (cmp : α → α → ℤ)

/-- `cmp a b ≤ 0` is a total preorder, and `cmp` is consistent when its arguments are exchanged. -/
structure TotalPreorder : Prop where
  neg_iff : ∀ a b, cmp a b < 0 ↔ 0 < cmp b a
  trans : ∀ a b c, cmp a b ≤ 0 → cmp b c ≤ 0 → cmp a c ≤ 0

/-- Exchange two positions. -/
def swap (f : ℕ → α) (i j : ℕ) : ℕ → α := fun k => f (Equiv.swap i j k)

/-- The position `c`, if there is one and its element is greater than the one at `m`. -/
def larger (cnt : ℕ) (f : ℕ → α) (m c : ℕ) : ℕ := if c ≤ cnt ∧ 0 < cmp (f c) (f m) then c else m

/-- The position of a greatest element among `i` and its children. -/
def largest (cnt : ℕ) (f : ℕ → α) (i : ℕ) : ℕ :=
  larger cmp cnt f (larger cmp cnt f i (2 * i)) (2 * i + 1)

/-- Move the element at `i` down, in at most `n` turns. -/
def siftDown (cnt : ℕ) : ℕ → ℕ → (ℕ → α) → Option (ℕ → α)
  | 0, _, _ => none
  | n + 1, i, f =>
    if largest cmp cnt f i = i then some f
    else siftDown cnt n (largest cmp cnt f i) (swap f i (largest cmp cnt f i))

/-- Make a heap, from position `i` down to 1. -/
def buildHeap (cnt n : ℕ) : ℕ → (ℕ → α) → Option (ℕ → α)
  | 0, f => some f
  | i + 1, f => do
    let f ← siftDown cmp cnt n (i + 1) f
    buildHeap cnt n i f

/-- Take the greatest elements out of a heap of `i` elements, one after the other. -/
def drain (n : ℕ) : ℕ → (ℕ → α) → Option (ℕ → α)
  | 0, f => some f
  | 1, f => some f
  | i + 2, f => do
    let f ← siftDown cmp (i + 1) n 1 (swap f 1 (i + 2))
    drain n (i + 1) f

variable {cmp}

theorem TotalPreorder.refl (h : TotalPreorder cmp) (a : α) : cmp a a ≤ 0 := by
  have := h.neg_iff a a
  omega

theorem TotalPreorder.le_of_lt (h : TotalPreorder cmp) {a b : α} (hlt : 0 < cmp b a) : cmp a b ≤ 0 :=
  Int.le_of_lt ((h.neg_iff a b).mpr hlt)

/-! ### Rearrangements -/

/-- `f'` is `f` with the positions from `lo` to `hi` rearranged. -/
def Rearranges (lo hi : ℕ) (f f' : ℕ → α) : Prop :=
  ∃ σ : Equiv.Perm ℕ, (∀ k, ¬ (lo ≤ k ∧ k ≤ hi) → σ k = k) ∧ ∀ k, f' k = f (σ k)

variable {lo lo' hi hi' : ℕ} {f f' f'' : ℕ → α} {i j k cnt n : ℕ}

@[simp] theorem swap_left (f : ℕ → α) (i j : ℕ) : swap f i j i = f j := by
  rw [swap, Equiv.swap_apply_left]

@[simp] theorem swap_right (f : ℕ → α) (i j : ℕ) : swap f i j j = f i := by
  rw [swap, Equiv.swap_apply_right]

theorem swap_of_ne (f : ℕ → α) (hi : k ≠ i) (hj : k ≠ j) : swap f i j k = f k := by
  rw [swap, Equiv.swap_apply_of_ne_of_ne hi hj]

theorem Rearranges.refl (lo hi : ℕ) (f : ℕ → α) : Rearranges lo hi f f := ⟨1, fun _ _ => rfl, fun _ => rfl⟩

theorem Rearranges.trans (h : Rearranges lo hi f f') (h' : Rearranges lo hi f' f'') : Rearranges lo hi f f'' := by
  obtain ⟨σ, hσ, hf⟩ := h
  obtain ⟨τ, hτ, hf'⟩ := h'
  refine ⟨σ * τ, fun k hk => ?_, fun k => ?_⟩
  · rw [Equiv.Perm.mul_apply, hτ k hk, hσ k hk]
  · rw [hf', hf, Equiv.Perm.mul_apply]

theorem Rearranges.mono (h : Rearranges lo hi f f') (hlo : lo' ≤ lo) (hhi : hi ≤ hi') : Rearranges lo' hi' f f' := by
  obtain ⟨σ, hσ, hf⟩ := h
  exact ⟨σ, fun k hk => hσ k (by omega), hf⟩

theorem rearranges_swap (h : lo ≤ i ∧ i ≤ hi) (h' : lo ≤ j ∧ j ≤ hi) : Rearranges lo hi f (swap f i j) := by
  refine ⟨Equiv.swap i j, fun k hk => Equiv.swap_apply_of_ne_of_ne ?_ ?_, fun _ => rfl⟩
  · rintro rfl
    exact hk h
  · rintro rfl
    exact hk h'

/-- The other positions keep their elements. -/
theorem Rearranges.outside (h : Rearranges lo hi f f') (hk : ¬ (lo ≤ k ∧ k ≤ hi)) : f' k = f k := by
  obtain ⟨σ, hσ, hf⟩ := h
  rw [hf, hσ k hk]

/-- What leaves the other positions alone stays in the range. -/
theorem mem_range_iff {σ : Equiv.Perm ℕ} (hσ : ∀ k, ¬ (lo ≤ k ∧ k ≤ hi) → σ k = k) (k : ℕ) :
    (lo ≤ σ k ∧ σ k ≤ hi) ↔ (lo ≤ k ∧ k ≤ hi) := by
  constructor
  · intro h
    by_contra hk
    rw [hσ k hk] at h
    exact hk h
  · intro h
    by_contra hk
    rw [σ.injective (hσ _ hk)] at hk
    exact hk h

/-- A position of the range gets its element from the range. -/
theorem Rearranges.inside (h : Rearranges lo hi f f') (hk : lo ≤ k ∧ k ≤ hi) :
    ∃ l, (lo ≤ l ∧ l ≤ hi) ∧ f' k = f l := by
  obtain ⟨σ, hσ, hf⟩ := h
  exact ⟨σ k, (mem_range_iff hσ k).mpr hk, hf k⟩

/-- As lists the sequences are permutations of each other. -/
theorem Rearranges.perm (h : Rearranges 1 cnt f f') :
    ((List.range' 1 cnt).map f').Perm ((List.range' 1 cnt).map f) := by
  obtain ⟨σ, hσ, hf⟩ := h
  have hmap : (List.range' 1 cnt).map f' = ((List.range' 1 cnt).map σ).map f := by
    rw [List.map_map]
    exact List.map_congr_left fun k _ => hf k
  have hrange : ∀ k, k ∈ List.range' 1 cnt ↔ 1 ≤ k ∧ k ≤ cnt := fun k => by
    rw [List.mem_range'_1]
    omega
  rw [hmap]
  refine List.Perm.map f ?_
  rw [List.perm_ext_iff_of_nodup (List.Nodup.map σ.injective List.nodup_range') List.nodup_range']
  intro k
  rw [List.mem_map, hrange]
  constructor
  · rintro ⟨l, hl, rfl⟩
    exact (mem_range_iff hσ l).mpr ((hrange l).mp hl)
  · intro hk
    refine ⟨σ.symm k, (hrange _).mpr ((mem_range_iff hσ _).mp ?_), σ.apply_symm_apply k⟩
    rw [σ.apply_symm_apply]
    exact hk

/-! ### Heaps -/

/-- `c` is a child of `i`. -/
def Child (i c : ℕ) : Prop := c = 2 * i ∨ c = 2 * i + 1

variable (cmp) in
/-- From position `lo` on no element is less than its children. -/
def HeapFrom (cnt lo : ℕ) (f : ℕ → α) : Prop :=
  ∀ i c, lo ≤ i → Child i c → c ≤ cnt → cmp (f c) (f i) ≤ 0

variable (cmp) in
/-- The same with position `i` exempt. The children of `i` are not greater than its parent. -/
structure HeapExcept (cnt lo i : ℕ) (f : ℕ → α) : Prop where
  heap : ∀ j c, lo ≤ j → j ≠ i → Child j c → c ≤ cnt → cmp (f c) (f j) ≤ 0
  skip : ∀ p c, lo ≤ p → Child p i → Child i c → c ≤ cnt → cmp (f c) (f p) ≤ 0

theorem larger_cases (cmp : α → α → ℤ) (cnt : ℕ) (f : ℕ → α) (m c : ℕ) :
    (larger cmp cnt f m c = c ∧ c ≤ cnt ∧ 0 < cmp (f c) (f m)) ∨
    (larger cmp cnt f m c = m ∧ (c ≤ cnt → cmp (f c) (f m) ≤ 0)) := by
  unfold larger
  split
  next h => exact .inl ⟨rfl, h.1, h.2⟩
  next h => exact .inr ⟨rfl, fun hc => Int.not_lt.mp fun hlt => h ⟨hc, hlt⟩⟩

/-- What `largest` finds: `i` or a child of it, and nothing among them is greater. -/
theorem largest_spec (hcmp : TotalPreorder cmp) (cnt : ℕ) (f : ℕ → α) (i : ℕ) :
    (largest cmp cnt f i = i ∨ Child i (largest cmp cnt f i) ∧ largest cmp cnt f i ≤ cnt) ∧
    cmp (f i) (f (largest cmp cnt f i)) ≤ 0 ∧
    ∀ c, Child i c → c ≤ cnt → cmp (f c) (f (largest cmp cnt f i)) ≤ 0 := by
  unfold largest
  have hleft := larger_cases cmp cnt f i (2 * i)
  generalize larger cmp cnt f i (2 * i) = m at hleft
  have hright := larger_cases cmp cnt f m (2 * i + 1)
  generalize larger cmp cnt f m (2 * i + 1) = r at hright
  -- the first comparison
  have him : cmp (f i) (f m) ≤ 0 ∧ (2 * i ≤ cnt → cmp (f (2 * i)) (f m) ≤ 0) := by
    rcases hleft with ⟨rfl, -, hlt⟩ | ⟨rfl, hle⟩
    · exact ⟨hcmp.le_of_lt hlt, fun _ => hcmp.refl _⟩
    · exact ⟨hcmp.refl _, hle⟩
  -- the second one
  have hmr : cmp (f m) (f r) ≤ 0 ∧ (2 * i + 1 ≤ cnt → cmp (f (2 * i + 1)) (f r) ≤ 0) := by
    rcases hright with ⟨rfl, -, hlt⟩ | ⟨rfl, hle⟩
    · exact ⟨hcmp.le_of_lt hlt, fun _ => hcmp.refl _⟩
    · exact ⟨hcmp.refl _, hle⟩
  refine ⟨?_, hcmp.trans _ _ _ him.1 hmr.1, ?_⟩
  · rcases hright with ⟨rfl, hle, -⟩ | ⟨rfl, -⟩
    · exact .inr ⟨.inr rfl, hle⟩
    · rcases hleft with ⟨rfl, hle, -⟩ | ⟨rfl, -⟩
      · exact .inr ⟨.inl rfl, hle⟩
      · exact .inl rfl
  · rintro c (rfl | rfl) hc
    · exact hcmp.trans _ _ _ (him.2 hc) hmr.1
    · exact hmr.2 hc

/-- A heap with `i` exempt is a heap if `i` is not less than its children. -/
theorem HeapExcept.heapFrom (h : HeapExcept cmp cnt lo i f)
    (hi : ∀ c, Child i c → c ≤ cnt → cmp (f c) (f i) ≤ 0) : HeapFrom cmp cnt lo f := by
  intro j c hj hc hcnt
  by_cases hji : j = i
  · subst hji
    exact hi c hc hcnt
  · exact h.heap j c hj hji hc hcnt

/-- The exempt position moves down to the child that is exchanged with it. -/
theorem HeapExcept.swap {m : ℕ} (h : HeapExcept cmp cnt lo i f) (hlo : lo ≤ i) (hi : 1 ≤ i) (hm : Child i m)
    (hmcnt : m ≤ cnt) (him : cmp (f i) (f m) ≤ 0) (hchild : ∀ c, Child i c → c ≤ cnt → cmp (f c) (f m) ≤ 0) :
    HeapExcept cmp cnt lo m (swap f i m) := by
  refine ⟨fun j c hj hjm hc hcnt => ?_, fun p c hp hpm hc hcnt => ?_⟩ <;> unfold Child at *
  · by_cases hji : j = i
    · subst hji
      rw [swap_left]
      by_cases hcm : c = m
      · rw [hcm, swap_right]
        exact him
      · rw [swap_of_ne f (by omega) hcm]
        exact hchild c hc hcnt
    · rw [swap_of_ne f hji hjm]
      by_cases hci : c = i
      · -- `j` is the parent of `i`
        subst hci
        rw [swap_left]
        exact h.skip j m hj hc hm hmcnt
      · rw [swap_of_ne f hci (by omega)]
        exact h.heap j c hj hji hc hcnt
  · obtain rfl : p = i := by omega
    rw [swap_left, swap_of_ne f (by omega) (by omega)]
    exact h.heap m c (by omega) (by omega) hc hcnt

/-- **Sifting down.** The heap property is restored and only positions from `i` on are rearranged. -/
theorem siftDown_spec (hcmp : TotalPreorder cmp) (h : HeapExcept cmp cnt lo i f) (hlo : lo ≤ i) (hi : 1 ≤ i)
    (hcnt : i ≤ cnt) (hn : cnt < n + i) :
    ∃ f', siftDown cmp cnt n i f = some f' ∧ HeapFrom cmp cnt lo f' ∧ Rearranges i cnt f f' := by
  induction n generalizing i f with
  | zero => exact absurd hn (by omega)
  | succ n ih =>
    obtain ⟨hm, him, hchild⟩ := largest_spec hcmp cnt f i
    rw [siftDown]
    generalize largest cmp cnt f i = m at hm him hchild
    by_cases hmi : m = i
    · subst hmi
      rw [if_pos rfl]
      exact ⟨f, rfl, h.heapFrom hchild, .refl _ _ f⟩
    · obtain ⟨hmc, hmcnt⟩ := hm.resolve_left hmi
      have hlt : i < m := by
        unfold Child at hmc
        omega
      rw [if_neg hmi]
      obtain ⟨f', hf', hheap, hre⟩ := ih (h.swap hlo hi hmc hmcnt him hchild) (by omega) (by omega) hmcnt (by omega)
      refine ⟨f', hf', hheap, ?_⟩
      exact (rearranges_swap ⟨Nat.le_refl i, hcnt⟩ ⟨Nat.le_of_lt hlt, hmcnt⟩).trans
        (hre.mono (Nat.le_of_lt hlt) (Nat.le_refl cnt))

/-! ### The two loops -/

theorem buildHeap_spec (hcmp : TotalPreorder cmp) (hn : cnt < n + 1) (hi : i ≤ cnt)
    (h : HeapFrom cmp cnt (i + 1) f) :
    ∃ f', buildHeap cmp cnt n i f = some f' ∧ HeapFrom cmp cnt 1 f' ∧ Rearranges 1 cnt f f' := by
  induction i generalizing f with
  | zero => exact ⟨f, rfl, h, .refl _ _ f⟩
  | succ i ih =>
    have hexcept : HeapExcept cmp cnt (i + 1) (i + 1) f := by
      refine ⟨fun j c hj hne => h j c (by omega), fun p c hp hpi => ?_⟩
      unfold Child at hpi
      omega
    obtain ⟨f₁, hf₁, hheap, hre⟩ := siftDown_spec hcmp hexcept (Nat.le_refl _) (by omega) hi (by omega : cnt < n + (i + 1))
    obtain ⟨f₂, hf₂, hheap₂, hre₂⟩ := ih (by omega) hheap
    refine ⟨f₂, ?_, hheap₂, (hre.mono (by omega) (Nat.le_refl cnt)).trans hre₂⟩
    rw [buildHeap, hf₁]
    exact hf₂

/-- The greatest element of a heap is at position 1. -/
theorem HeapFrom.le_root (hcmp : TotalPreorder cmp) (h : HeapFrom cmp cnt 1 f) (hk : 1 ≤ k) (hcnt : k ≤ cnt) :
    cmp (f k) (f 1) ≤ 0 := by
  induction k using Nat.strongRecOn with
  | ind k ih =>
    by_cases h1 : k = 1
    · rw [h1]
      exact hcmp.refl _
    · have hparent : Child (k / 2) k := by
        unfold Child
        omega
      exact hcmp.trans _ _ _ (h (k / 2) k (by omega) hparent hcnt) (ih (k / 2) (by omega) (by omega) (by omega))

variable (cmp) in
/-- The elements behind position `i` are in order and not less than those of the heap in front of them. -/
structure Drained (cnt i : ℕ) (f : ℕ → α) : Prop where
  heap : HeapFrom cmp i 1 f
  sorted : ∀ k l, i < k → k ≤ l → l ≤ cnt → cmp (f k) (f l) ≤ 0
  above : ∀ k l, 1 ≤ k → k ≤ i → i < l → l ≤ cnt → cmp (f k) (f l) ≤ 0

/-- The greatest element of the heap goes behind it. -/
theorem Drained.step (hcmp : TotalPreorder cmp) (h : Drained cmp cnt (i + 2) f) (hi : i + 2 ≤ cnt)
    (hn : i + 1 < n + 1) :
    ∃ f', siftDown cmp (i + 1) n 1 (swap f 1 (i + 2)) = some f' ∧ Drained cmp cnt (i + 1) f' ∧
      Rearranges 1 cnt f f' := by
  have hexcept : HeapExcept cmp (i + 1) 1 1 (swap f 1 (i + 2)) := by
    refine ⟨fun j c hj hne hc hcnt => ?_, fun p c hp hp1 => ?_⟩ <;> unfold Child at *
    · rw [swap_of_ne f hne (by omega), swap_of_ne f (by omega) (by omega)]
      exact h.heap j c hj hc (by omega)
    · omega
  obtain ⟨f', hf', hheap, hre⟩ := siftDown_spec hcmp hexcept (Nat.le_refl 1) (Nat.le_refl 1) (by omega) hn
  have hroot : ∀ k, 1 ≤ k → k ≤ i + 2 → cmp (f k) (f 1) ≤ 0 := fun k hk hk' => h.heap.le_root hcmp hk hk'
  have hlast : f' (i + 2) = f 1 := by rw [hre.outside (by omega), swap_right]
  have htail : ∀ l, i + 2 < l → f' l = f l := fun l hl => by
    rw [hre.outside (by omega), swap_of_ne f (by omega) (by omega)]
  -- what is left in the heap comes from the heap
  have hrest : ∀ k, 1 ≤ k → k ≤ i + 1 → ∃ l, 1 ≤ l ∧ l ≤ i + 2 ∧ f' k = f l := by
    intro k hk hk'
    obtain ⟨l, hl, heq⟩ := hre.inside ⟨hk, hk'⟩
    have hswap : Rearranges 1 (i + 2) f (swap f 1 (i + 2)) := rearranges_swap (by omega) (by omega)
    obtain ⟨l', hl', heq'⟩ := hswap.inside (k := l) (by omega)
    exact ⟨l', hl'.1, hl'.2, heq.trans heq'⟩
  refine ⟨f', hf', ⟨hheap, fun k l hk hkl hl => ?_, fun k l hk hki hl hl' => ?_⟩, ?_⟩
  · by_cases hki : k = i + 2
    · rw [hki, hlast]
      by_cases hli : l = i + 2
      · rw [hli, hlast]
        exact hcmp.refl _
      · rw [htail l (by omega)]
        exact h.above 1 l (by omega) (by omega) (by omega) hl
    · rw [htail k (by omega), htail l (by omega)]
      exact h.sorted k l (by omega) hkl hl
  · obtain ⟨k', hk', hk'i, heq⟩ := hrest k hk hki
    rw [heq]
    by_cases hli : l = i + 2
    · rw [hli, hlast]
      exact hroot k' hk' hk'i
    · rw [htail l (by omega)]
      exact h.above k' l hk' hk'i (by omega) hl'
  · exact (rearranges_swap (by omega) (by omega)).trans (hre.mono (Nat.le_refl 1) (by omega))

theorem drain_spec (hcmp : TotalPreorder cmp) (hn : cnt < n + 1) (hi : i ≤ cnt) (h : Drained cmp cnt i f) :
    ∃ f', drain cmp n i f = some f' ∧ Rearranges 1 cnt f f' ∧
      ∀ k l, 1 ≤ k → k ≤ l → l ≤ cnt → cmp (f' k) (f' l) ≤ 0 := by
  induction i generalizing f with
  | zero => exact ⟨f, rfl, .refl _ _ f, fun k l hk hkl hl => h.sorted k l hk hkl hl⟩
  | succ i ih =>
    cases i with
    | zero =>
      refine ⟨f, rfl, .refl _ _ f, fun k l hk hkl hl => ?_⟩
      by_cases hl1 : l = 1
      · obtain rfl : k = 1 := by omega
        rw [hl1]
        exact hcmp.refl _
      · by_cases hk1 : k = 1
        · exact h.above k l hk (by omega) (by omega) hl
        · exact h.sorted k l (by omega) hkl hl
    | succ i =>
      obtain ⟨f₁, hf₁, hdrained, hre⟩ := h.step hcmp hi (by omega : i + 1 < n + 1)
      obtain ⟨f₂, hf₂, hre₂, hsorted⟩ := ih (by omega) hdrained
      refine ⟨f₂, ?_, hre.trans hre₂, hsorted⟩
      rw [drain, hf₁]
      exact hf₂

/-- **Heap sort.** The two loops, with enough turns for each sift, sort the sequence. -/
theorem sorted_heapSort (hcmp : TotalPreorder cmp) (hn : cnt < n + 1) (f : ℕ → α) :
    ∃ f₁ f₂, buildHeap cmp cnt n (cnt / 2) f = some f₁ ∧ drain cmp n cnt f₁ = some f₂ ∧ Rearranges 1 cnt f f₂ ∧
      ∀ k l, 1 ≤ k → k ≤ l → l ≤ cnt → cmp (f₂ k) (f₂ l) ≤ 0 := by
  have hleaves : HeapFrom cmp cnt (cnt / 2 + 1) f := by
    intro i c hi hc hcnt
    unfold Child at hc
    omega
  obtain ⟨f₁, hf₁, hheap, hre⟩ := buildHeap_spec hcmp hn (Nat.div_le_self cnt 2) hleaves
  obtain ⟨f₂, hf₂, hre₂, hsorted⟩ := drain_spec hcmp hn (Nat.le_refl cnt)
    (⟨hheap, fun k l hk hkl hl => by omega, fun k l _ _ hl hl' => by omega⟩ : Drained cmp cnt cnt f₁)
  exact ⟨f₁, f₂, hf₁, hf₂, hre.trans hre₂, hsorted⟩

end HeapSort
end Pintos

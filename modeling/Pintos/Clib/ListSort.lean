import Pintos.Clib.LinkedList
import Pintos.Lib.List

/-!
# Sorting linked lists

`list_sort` and `list_insert_ordered` of `lib/kernel/list.c`, on the links. `less` compares elements. The loops have a
number of turns, and one that needs more is `running`.

The sequence of the elements goes through the steps of the natural merge sort of `Pintos.Lib.List`:

* `findEndOfRun_eq` — `find_end_of_run` finds where the next run begins;
* `mergeLoop_spec` — `inplace_merge` merges two neighbouring runs, one splice for each element that changes places;
* `passLoop_spec`, `sortLoop_spec` — a pass merges the runs two by two, and passes are made until one run is left;
* `list_sort_stable` — the sorted list has the same elements, and equivalent ones keep their order.
-/

namespace Pintos
namespace Clib

open LinkStore

variable {S α : Type} [DecidableEq α] (M : LinkStore S α) (less : α → α → Bool)

/-- The loop of `is_sorted`. -/
def isSortedLoop (b : α) (s : S) : ℕ → α → Except Halt Bool
  | 0, _ => throw .running
  | n + 1, a => do
    let a ← listNext M s a
    if a ≠ b then
      if less a (← listPrev M s a) then return false else isSortedLoop b s n a
    else return true

/-- `is_sorted`. -/
def isSorted (turns : ℕ) (a b : α) (s : S) : Except Halt Bool :=
  if a ≠ b then isSortedLoop M less b s turns a else return true

/-- The loop of `find_end_of_run`. -/
def runLoop (b : α) (s : S) : ℕ → α → Except Halt α
  | 0, _ => throw .running
  | n + 1, a => do
    let a ← listNext M s a
    if a ≠ b then
      if !less a (← listPrev M s a) then runLoop b s n a else return a
    else return a

/-- `find_end_of_run`. -/
def findEndOfRun (turns : ℕ) (a b : α) (s : S) : Except Halt α := do
  assert (a ≠ b)
  runLoop M less b s turns a

/-- The loop of `inplace_merge`. -/
def mergeLoop (b1 : α) : ℕ → α → α → S → Except Halt S
  | 0, _, _, _ => throw .running
  | n + 1, a0, a1b0, s =>
    if a0 ≠ a1b0 ∧ a1b0 ≠ b1 then
      if !less a1b0 a0 then do
        let a0 ← listNext M s a0
        mergeLoop b1 n a0 a1b0 s
      else do
        let a1b0 ← listNext M s a1b0
        let s ← listSplice M a0 (← listPrev M s a1b0) a1b0 s
        mergeLoop b1 n a0 a1b0 s
    else return s

/-- `inplace_merge`. -/
def inplaceMerge (turns : ℕ) (a0 a1b0 b1 : α) (s : S) : Except Halt S := do
  assert (← isSorted M less turns a0 a1b0 s)
  assert (← isSorted M less turns a1b0 b1 s)
  mergeLoop M less b1 turns a0 a1b0 s

/-- The `for` loop of `list_sort`: a pass over the list. -/
def passLoop (tail : α) (turns : ℕ) : ℕ → α → ℕ → S → Except Halt (ℕ × S)
  | 0, _, _, _ => throw .running
  | n + 1, a0, outputRunCnt, s =>
    if a0 ≠ tail then do
      let outputRunCnt := outputRunCnt + 1
      let a1b0 ← findEndOfRun M less turns a0 tail s
      if a1b0 = tail then return (outputRunCnt, s)
      else
        let b1 ← findEndOfRun M less turns a1b0 tail s
        let s ← inplaceMerge M less turns a0 a1b0 b1 s
        passLoop tail turns n b1 outputRunCnt s
    else return (outputRunCnt, s)

/-- The `do` loop of `list_sort`, and the assertion behind it. -/
def sortLoop (head tail : α) (turns : ℕ) : ℕ → S → Except Halt S
  | 0, _ => throw .running
  | n + 1, s => do
    let (outputRunCnt, s) ← passLoop M less tail turns turns (← listBegin M head s) 0 s
    if 1 < outputRunCnt then sortLoop head tail turns n s
    else
      assert (← isSorted M less turns (← listBegin M head s) tail s)
      return s

/-- `list_sort`. -/
def sortList (turns : ℕ) (head tail : α) (s : S) : Except Halt S := sortLoop M less head tail turns turns s

/-- The loop of `list_insert_ordered`. -/
def placeLoop (tail elem : α) (s : S) : ℕ → α → Except Halt α
  | 0, _ => throw .running
  | n + 1, e =>
    if e ≠ tail then
      if less elem e then return e
      else do
        let e ← listNext M s e
        placeLoop tail elem s n e
    else return e

/-- `list_insert_ordered`. -/
def insertOrdered (turns : ℕ) (head tail elem : α) (s : S) : Except Halt S := do
  let e ← placeLoop M less tail elem s turns (← listBegin M head s)
  listInsert M e elem s

/-! ### Runs -/

variable {M less} {s : S} {A B l r : List α} {rs : List (List α)} {a b p q t tail head : α} {n turns : ℕ}

theorem isSortedLoop_eq (h : M.Linked s (a :: (l ++ [b]))) (hb : b ∉ l) (hsorted : Sorted less (a :: l))
    (hn : l.length < n) : isSortedLoop M less b s n a = .ok true := by
  induction l generalizing a n with
  | nil =>
    obtain ⟨n, rfl⟩ : ∃ k, n = k + 1 := ⟨n - 1, by simp at hn; omega⟩
    rw [isSortedLoop, listNext_eq (List.isChain_cons_cons.mp h).1.1, ok_bind, if_neg (not_not_intro rfl)]
    rfl
  | cons c l ih =>
    obtain ⟨n, rfl⟩ : ∃ k, n = k + 1 := ⟨n - 1, by simp at hn; omega⟩
    obtain ⟨hac, hrest⟩ := List.isChain_cons_cons.mp h
    obtain ⟨ha, hsorted'⟩ := List.pairwise_cons.mp hsorted
    rw [List.mem_cons, not_or] at hb
    rw [isSortedLoop, listNext_eq hac.1, ok_bind, if_pos (Ne.symm hb.1), listPrev_eq hac.2, ok_bind,
      if_neg (by rw [ha c List.mem_cons_self]; decide)]
    exact ih hrest hb.2 hsorted' (by simp at hn; omega)

/-- `is_sorted` on a part of a list that is. -/
theorem isSorted_eq (h : M.Linked s (l ++ [b])) (hb : b ∉ l) (ha : (l ++ [b]).head? = some a) (hsorted : Sorted less l)
    (hn : l.length ≤ n) : isSorted M less n a b s = .ok true := by
  cases l with
  | nil =>
    cases ha
    rw [isSorted, if_neg (not_not_intro rfl)]
    rfl
  | cons c l =>
    cases ha
    rw [List.mem_cons, not_or] at hb
    rw [isSorted, if_pos (Ne.symm hb.1)]
    exact isSortedLoop_eq h hb.2 hsorted hn

theorem runLoop_eq (h : M.Linked s (a :: (l ++ [t]))) (ht : t ∉ l) (hruns : runs less (a :: l) = (a :: r) :: rs)
    (hq : (rs.flatten ++ [t]).head? = some q) (hn : l.length < n) : runLoop M less t s n a = .ok q := by
  induction l generalizing a r n with
  | nil =>
    obtain ⟨n, rfl⟩ : ∃ k, n = k + 1 := ⟨n - 1, by simp at hn; omega⟩
    cases hruns
    cases hq
    rw [runLoop, listNext_eq (List.isChain_cons_cons.mp h).1.1, ok_bind, if_neg (not_not_intro rfl)]
    rfl
  | cons c l ih =>
    obtain ⟨n, rfl⟩ : ∃ k, n = k + 1 := ⟨n - 1, by simp at hn; omega⟩
    obtain ⟨hac, hrest⟩ := List.isChain_cons_cons.mp h
    rw [List.mem_cons, not_or] at ht
    obtain ⟨r', rs', hruns'⟩ := (runs_cons c l : ∃ r rs, runs less (c :: l) = (c :: r) :: rs)
    rw [runLoop, listNext_eq hac.1, ok_bind, if_pos (Ne.symm ht.1), listPrev_eq hac.2, ok_bind]
    rw [runs, hruns'] at hruns
    cases hless : less c a with
    | true =>
      -- the next run begins with `c`
      simp only [hless, if_true] at hruns
      cases hruns
      cases hq
      rfl
    | false =>
      simp only [hless, Bool.false_eq_true, if_false] at hruns
      cases hruns
      exact ih hrest ht.2 hruns' (by simp at hn; omega)

/-- `find_end_of_run` finds the start of the next run, or the end of the list. -/
theorem findEndOfRun_eq (h : M.Linked s (a :: (l ++ [t]))) (ht : t ∉ a :: l) (hruns : runs less (a :: l) = (a :: r) :: rs)
    (hq : (rs.flatten ++ [t]).head? = some q) (hn : l.length < n) : findEndOfRun M less n a t s = .ok q := by
  rw [List.mem_cons, not_or] at ht
  rw [findEndOfRun, assert_bind (Ne.symm ht.1)]
  exact runLoop_eq h ht.2 hruns hq hn

/-! ### Merging -/

/-- The loop of `inplace_merge`: what is left of the runs, `as` and `bs`, is merged behind `p`. -/
theorem mergeLoop_spec (less : α → α → Bool) {as bs : List α} {a0 a1b0 : α} (h : M.Linked s (A ++ p :: (as ++ (bs ++ t :: B))))
    (hnodup : (A ++ p :: (as ++ (bs ++ t :: B))).Nodup) (ha : (as ++ (bs ++ [t])).head? = some a0)
    (hb : (bs ++ [t]).head? = some a1b0) (hn : as.length + bs.length < n) :
    ∃ s', mergeLoop M less t n a0 a1b0 s = .ok s' ∧
      M.Linked s' (A ++ p :: ((List.merge as bs fun x y => !less y x) ++ t :: B)) ∧
      M.Writes (· ∈ p :: (as ++ (bs ++ [t]))) s s' ∧
      (∀ y, y ∉ p :: (as ++ bs) → M.next s' y = M.next s y) ∧
      (∀ y, y ∉ as ++ (bs ++ [t]) → M.prev s' y = M.prev s y) := by
  induction n generalizing A p as bs a0 a1b0 s with
  | zero => exact absurd hn (Nat.not_lt_zero _)
  | succ n ih =>
    cases as with
    | nil =>
      -- the first run is used up
      obtain rfl : a0 = a1b0 := Option.some.inj (ha.symm.trans hb)
      refine ⟨s, ?_, by simpa using h, .refl, fun _ _ => rfl, fun _ _ => rfl⟩
      rw [mergeLoop, if_neg (fun hne => hne.1 rfl)]
      rfl
    | cons a as =>
      obtain rfl : a = a0 := Option.some.inj ha
      cases bs with
      | nil =>
        obtain rfl : t = a1b0 := Option.some.inj hb
        refine ⟨s, ?_, by simpa using h, .refl, fun _ _ => rfl, fun _ _ => rfl⟩
        rw [mergeLoop, if_neg (fun hne => hne.2 rfl)]
        rfl
      | cons b bs =>
        obtain rfl : b = a1b0 := Option.some.inj hb
        have hne : a ≠ b ∧ b ≠ t := by
          rw [List.nodup_append] at hnodup
          grind
        rw [mergeLoop, if_pos hne, List.cons_merge_cons]
        cases hless : less b a with
        | false =>
          -- `a` is in its place
          obtain ⟨a0, ha0⟩ : ∃ a0, (as ++ (b :: bs ++ [t])).head? = some a0 := by
            cases as <;> exact ⟨_, rfl⟩
          have hshift : A ++ p :: (a :: as ++ (b :: bs ++ t :: B)) = (A ++ [p]) ++ a :: (as ++ (b :: bs ++ t :: B)) := by
            simp
          rw [hshift] at h hnodup
          have hnext : M.Follows s a a0 := h.follows (by cases as <;> exact ha0)
          obtain ⟨s', hok, hlinked, hw, hN, hP⟩ := ih h hnodup ha0 rfl (by simp at hn ⊢; omega)
          refine ⟨s', ?_, by simpa using hlinked, hw.mono fun x hx => List.mem_cons_of_mem p hx, fun y hy => hN y ?_,
            fun y hy => hP y fun hin => hy (List.mem_cons_of_mem a hin)⟩
          · simp only [Bool.not_false, if_true]
            rw [listNext_eq hnext.1, ok_bind]
            exact hok
          · exact fun hin => hy (List.mem_cons_of_mem p hin)
        | true =>
          -- `b` goes in front of `a`
          obtain ⟨q, C, hC⟩ : ∃ q C, bs ++ t :: B = q :: C := List.exists_cons_of_ne_nil (by simp)
          have hq : (bs ++ [t]).head? = some q := by
            cases bs <;> exact congrArg List.head? hC
          obtain ⟨Z, u, hu⟩ : ∃ Z u, a :: as = Z ++ [u] :=
            ⟨_, _, (List.dropLast_append_getLast (List.cons_ne_nil _ _)).symm⟩
          have hsplit : A ++ p :: (a :: as ++ (b :: bs ++ t :: B)) = A ++ p :: (a :: as ++ b :: q :: C) := by
            rw [← hC, List.cons_append (a := b)]
          rw [hsplit] at h hnodup
          have hbq : M.Follows s b q := by
            have hassoc : A ++ p :: (a :: as ++ b :: q :: C) = (A ++ p :: a :: as) ++ b :: q :: C := by simp
            rw [hassoc] at h
            exact h.follows rfl
          obtain ⟨s₁, hsplice, hlinked₁, hw₁, hN₁, hP₁⟩ := listSplice_spec rfl hu h hnodup
          have hmoved : A ++ p :: b :: (a :: as ++ q :: C) = (A ++ [p]) ++ b :: (a :: as ++ (bs ++ t :: B)) := by
            rw [hC]
            simp
          have hperm : (A ++ p :: b :: (a :: as ++ q :: C)).Perm (A ++ p :: (a :: as ++ b :: q :: C)) :=
            (List.perm_middle.symm.cons p).append_left A
          have hnodup₁ := hmoved ▸ hperm.nodup_iff.mpr hnodup
          rw [hmoved] at hlinked₁
          obtain ⟨s', hok, hlinked, hw, hN, hP⟩ := ih hlinked₁ hnodup₁ rfl hq (by simp at hn ⊢; omega)
          have hqsub : [q].Sublist (bs ++ [t]) := List.singleton_sublist.mpr (List.mem_of_head? hq)
          have hsub : (a :: as ++ [b, q]).Sublist (a :: as ++ (b :: bs ++ [t])) := (hqsub.cons_cons b).append_left _
          refine ⟨s', ?_, by simpa using hlinked, ?_, fun y hy => ?_, fun y hy => ?_⟩
          · simp only [Bool.not_true, Bool.false_eq_true, if_false]
            rw [listNext_eq hbq.1, ok_bind, listPrev_eq hbq.2, ok_bind, hsplice, ok_bind]
            exact hok
          · refine (hw₁.mono fun x hx => ?_).trans (hw.mono fun x hx => ?_)
            · rcases List.mem_cons.mp hx with rfl | hx
              · exact List.mem_cons_self
              · exact List.mem_cons_of_mem p (hsub.subset hx)
            · exact List.mem_cons_of_mem p (List.perm_middle.symm.subset hx)
          · rw [hN y fun hin => hy (List.mem_cons_of_mem p (List.perm_middle.symm.subset hin)), hN₁ y fun hin => hy ?_]
            exact ((((List.nil_sublist bs).cons_cons b).append_left _).cons_cons p).subset hin
          · rw [hP y fun hin => hy ?_, hP₁ y fun hin => hy (hsub.subset hin)]
            exact ((List.sublist_cons_self b _).append_left _).subset hin

/-- `inplace_merge` of two sorted runs. -/
theorem inplaceMerge_spec {as bs : List α} {a0 a1b0 : α} (h : M.Linked s (A ++ p :: (as ++ (bs ++ t :: B))))
    (hnodup : (A ++ p :: (as ++ (bs ++ t :: B))).Nodup) (ha : (as ++ (bs ++ [t])).head? = some a0)
    (hb : (bs ++ [t]).head? = some a1b0) (hn : as.length + bs.length < n) (hsa : Sorted less as)
    (hsb : Sorted less bs) :
    ∃ s', inplaceMerge M less n a0 a1b0 t s = .ok s' ∧
      M.Linked s' (A ++ p :: ((List.merge as bs fun x y => !less y x) ++ t :: B)) ∧
      M.Writes (· ∈ p :: (as ++ (bs ++ [t]))) s s' ∧
      (∀ y, y ∉ p :: (as ++ bs) → M.next s' y = M.next s y) ∧
      (∀ y, y ∉ as ++ (bs ++ [t]) → M.prev s' y = M.prev s y) := by
  obtain ⟨q, C, hC⟩ : ∃ q C, bs ++ t :: B = q :: C := List.exists_cons_of_ne_nil (by simp)
  obtain rfl : q = a1b0 := by
    cases bs <;> cases hC <;> exact Option.some.inj hb
  have hnd := (List.nodup_append.mp hnodup).2.1
  have hfirst : isSorted M less n a0 q s = .ok true := by
    have hlink : M.Linked s (as ++ [q]) := by
      have hsplit : A ++ p :: (as ++ (bs ++ t :: B)) = (A ++ [p]) ++ ((as ++ [q]) ++ C) := by
        rw [hC]
        simp
      rw [hsplit] at h
      exact (List.IsChain.right_of_append h).left_of_append
    refine isSorted_eq hlink ?_ ?_ hsa (by omega)
    · rw [hC] at hnd
      grind
    · cases as with
      | nil => exact hb.symm.trans ha
      | cons a as => exact ha
  have hsecond : isSorted M less n q t s = .ok true := by
    have hlink : M.Linked s (bs ++ [t]) := by
      have hsplit : A ++ p :: (as ++ (bs ++ t :: B)) = (A ++ p :: as) ++ ((bs ++ [t]) ++ B) := by simp
      rw [hsplit] at h
      exact (List.IsChain.right_of_append h).left_of_append
    refine isSorted_eq hlink ?_ hb hsb (by omega)
    grind
  obtain ⟨s', hok, hspec⟩ := mergeLoop_spec less h hnodup ha hb hn
  refine ⟨s', ?_, hspec⟩
  rw [inplaceMerge, hfirst, ok_bind, assert_bind rfl, hsecond, ok_bind, assert_bind rfl]
  exact hok

/-! ### Passes -/

/-- A pass merges the runs of the list two by two. -/
theorem passLoop_spec (hless : StrictWeak less) {a0 : α} (cnt : ℕ) (h : M.Linked s (A ++ p :: (l ++ [tail])))
    (hnodup : (A ++ p :: (l ++ [tail])).Nodup) (ha : (l ++ [tail]).head? = some a0) (hn : (runs less l).length < n)
    (hturns : l.length < turns) :
    ∃ s', passLoop M less tail turns n a0 cnt s = .ok (cnt + (mergePairs less (runs less l)).length, s') ∧
      M.Linked s' (A ++ p :: ((mergePairs less (runs less l)).flatten ++ [tail])) ∧
      M.Writes (· ∈ p :: (l ++ [tail])) s s' ∧
      (∀ y, y ∉ p :: l → M.next s' y = M.next s y) ∧ (∀ y, y ∉ l ++ [tail] → M.prev s' y = M.prev s y) := by
  induction n generalizing A p l a0 cnt s with
  | zero => exact absurd hn (Nat.not_lt_zero _)
  | succ n ih =>
    have hflat : (runs less l).flatten = l := flatten_runs l
    have hnd := (List.nodup_cons.mp (List.nodup_append.mp hnodup).2.1).2
    have htail : tail ∉ l := fun hin => (List.nodup_append.mp hnd).2.2 tail hin tail List.mem_cons_self rfl
    match hruns : runs less l with
    | [] =>
      obtain rfl : l = [] := by
        rw [hruns] at hflat
        exact hflat.symm
      obtain rfl : tail = a0 := Option.some.inj ha
      refine ⟨s, ?_, h, .refl, fun _ _ => rfl, fun _ _ => rfl⟩
      rw [passLoop, if_neg (not_not_intro rfl)]
      rfl
    | r :: rs =>
      obtain ⟨a, r, l', rfl, rfl⟩ := runs_head hruns
      obtain rfl : a = a0 := Option.some.inj ha
      have hatail : a ≠ tail := fun heq => htail (heq ▸ List.mem_cons_self)
      have hseg : M.Linked s (a :: (l' ++ [tail])) := by
        have hsplit : A ++ p :: (a :: l' ++ [tail]) = (A ++ [p]) ++ (a :: (l' ++ [tail])) := by simp
        rw [hsplit] at h
        exact List.IsChain.right_of_append h
      rw [hruns] at hflat hn
      rw [passLoop, if_pos hatail]
      cases rs with
      | nil =>
        -- the last run has no partner
        rw [findEndOfRun_eq hseg htail hruns rfl (by simp at hturns; omega), ok_bind, if_pos rfl]
        refine ⟨s, rfl, ?_, .refl, fun _ _ => rfl, fun _ _ => rfl⟩
        rw [← hflat] at h
        exact h
      | cons r₂ rs =>
        have hrest : runs less (r₂ ++ rs.flatten) = r₂ :: rs := runs_flatten_tail hruns
        obtain ⟨b, r₂, -, rfl, -⟩ := runs_head hrest
        obtain ⟨t, B, hB⟩ : ∃ t B, rs.flatten ++ [tail] = t :: B := List.exists_cons_of_ne_nil (by simp)
        have hsorted : ∀ x ∈ (a :: r) :: (b :: r₂) :: rs, Sorted less x := fun x hx =>
          sorted_of_mem_runs hless (hruns ▸ hx)
        have hl' : l' = r ++ (b :: r₂ ++ rs.flatten) := by simpa using hflat.symm
        subst hl'
        have htail₂ : tail ∉ b :: (r₂ ++ rs.flatten) := fun hin =>
          htail (List.mem_cons_of_mem a (List.mem_append_right r hin))
        have hbtail : b ≠ tail := fun heq => htail₂ (heq ▸ List.mem_cons_self)
        have hseg₂ : M.Linked s (b :: (r₂ ++ rs.flatten ++ [tail])) := by
          have hsplit : a :: (r ++ (b :: r₂ ++ rs.flatten) ++ [tail]) = (a :: r) ++ (b :: (r₂ ++ rs.flatten ++ [tail])) := by
            simp
          rw [hsplit] at hseg
          exact List.IsChain.right_of_append hseg
        rw [findEndOfRun_eq hseg htail hruns (q := b) rfl (by simp at hturns ⊢; omega), ok_bind, if_neg hbtail,
          findEndOfRun_eq hseg₂ htail₂ hrest (by rw [hB]; rfl) (by simp at hturns ⊢; omega), ok_bind]
        -- the chain as `inplace_merge` sees it
        have hchain : A ++ p :: (a :: (r ++ (b :: r₂ ++ rs.flatten)) ++ [tail]) =
            A ++ p :: ((a :: r) ++ ((b :: r₂) ++ t :: B)) := by
          rw [← hB]
          simp
        rw [hchain] at h hnodup
        obtain ⟨s₁, hok₁, hlinked₁, hw₁, hN₁, hP₁⟩ := inplaceMerge_spec (n := turns) h hnodup rfl rfl
          (by simp at hturns ⊢; omega) (hsorted _ List.mem_cons_self) (hsorted _ (List.mem_cons_of_mem _ List.mem_cons_self))
        rw [hok₁, ok_bind]
        -- the rest of the pass, behind the merged runs
        have hmem : ∀ x, x ∈ List.merge (a :: r) (b :: r₂) (fun x y => !less y x) ↔ x ∈ (a :: r) ++ (b :: r₂) :=
          fun x => (List.merge_perm_append _).mem_iff
        obtain ⟨Z, u, hu⟩ : ∃ Z u, List.merge (a :: r) (b :: r₂) (fun x y => !less y x) = Z ++ [u] :=
          ⟨_, _, (List.dropLast_append_getLast (List.ne_nil_of_mem ((hmem a).mpr List.mem_cons_self))).symm⟩
        have hperm : (A ++ p :: (List.merge (a :: r) (b :: r₂) (fun x y => !less y x) ++ t :: B)).Perm
            (A ++ p :: ((a :: r) ++ ((b :: r₂) ++ t :: B))) := by
          rw [← List.append_assoc (a :: r)]
          exact (((List.merge_perm_append _).append_right _).cons p).append_left A
        have hnext : A ++ p :: (List.merge (a :: r) (b :: r₂) (fun x y => !less y x) ++ t :: B) =
            (A ++ p :: Z) ++ u :: (rs.flatten ++ [tail]) := by
          rw [hu, hB]
          simp
        have hrs : runs less rs.flatten = rs := runs_flatten_tail hrest
        obtain ⟨s', hok, hlinked, hw, hN, hP⟩ := ih (cnt + 1) (hnext ▸ hlinked₁) (hnext ▸ hperm.nodup_iff.mpr hnodup)
          (by rw [hB]; rfl) (by rw [hrs]; simp at hn; omega) (by simp at hturns ⊢; omega)
        rw [hrs] at hok hlinked
        have humem : u ∈ (a :: r) ++ (b :: r₂) := (hmem u).mp (by simp [hu])
        have hassoc : a :: (r ++ (b :: r₂ ++ rs.flatten)) = (a :: r) ++ (b :: r₂) ++ rs.flatten := by simp
        have hsub₁ : (a :: r ++ (b :: r₂ ++ [t])).Sublist (a :: (r ++ (b :: r₂ ++ rs.flatten)) ++ [tail]) := by
          have htsub : [t].Sublist (rs.flatten ++ [tail]) := List.singleton_sublist.mpr (by simp [hB])
          rw [hassoc, ← List.append_assoc, List.append_assoc _ rs.flatten]
          exact htsub.append_left _
        have hsub₂ : (u :: rs.flatten).Sublist (a :: (r ++ (b :: r₂ ++ rs.flatten))) := by
          rw [hassoc]
          exact (List.singleton_sublist.mpr humem).append_right _
        refine ⟨s', ?_, ?_, ?_, fun y hy => ?_, fun y hy => ?_⟩
        · rw [hok, mergePairs, List.length_cons, Nat.add_assoc, Nat.add_comm 1]
        · rw [mergePairs, List.flatten_cons, hu]
          simpa using hlinked
        · refine (hw₁.mono fun x hx => ?_).trans (hw.mono fun x hx => List.mem_cons_of_mem p ?_)
          · rcases List.mem_cons.mp hx with rfl | hx
            · exact List.mem_cons_self
            · exact List.mem_cons_of_mem p (hsub₁.subset hx)
          · exact (hsub₂.append_right [tail]).subset hx
        · rw [hN y fun hin => hy (List.mem_cons_of_mem p (hsub₂.subset hin)), hN₁ y fun hin => hy ?_]
          rw [hassoc]
          exact ((List.sublist_append_left _ rs.flatten).cons_cons p).subset hin
        · rw [hP y fun hin => hy ?_, hP₁ y fun hin => hy (hsub₁.subset hin)]
          rw [hassoc]
          exact ((List.sublist_append_right _ rs.flatten).append_right [tail]).subset hin

/-! ### The whole sort -/

/-- **The passes.** The list goes through those of the merge sort of sequences. -/
theorem sortLoop_spec (hless : StrictWeak less) (h : M.IsList s head tail l) (hn : (runs less l).length ≤ n) (hpos : 0 < n)
    (hturns : l.length < turns) :
    ∃ s', sortLoop M less head tail turns n s = .ok s' ∧ M.IsList s' head tail (listSortLoop less n l) ∧
      M.Writes (· ∈ head :: (l ++ [tail])) s s' := by
  induction n generalizing s l with
  | zero => exact absurd hpos (Nat.lt_irrefl 0)
  | succ n ih =>
    obtain ⟨a0, B, hB⟩ : ∃ a0 B, l ++ [tail] = a0 :: B := List.exists_cons_of_ne_nil (by simp)
    obtain ⟨s₁, hpass, hlinked, hw, hN, hP⟩ := passLoop_spec (A := []) (n := turns) hless 0 h.linked h.nodup
      (by rw [hB]; rfl) (Nat.lt_of_le_of_lt (length_runs_le l) hturns) hturns
    have hperm : (mergePairs less (runs less l)).flatten.Perm l := by
      have hmerge : (mergePairs less (runs less l)).flatten.Perm (runs less l).flatten := perm_mergePairs _
      rwa [flatten_runs] at hmerge
    have hperm' : (head :: ((mergePairs less (runs less l)).flatten ++ [tail])).Perm (head :: (l ++ [tail])) :=
      (hperm.append_right _).cons head
    have hsorted := sorted_of_mem_mergePairs hless (fun r (hr : r ∈ runs less l) => sorted_of_mem_runs hless hr)
    have hlen : (mergePairs less (runs less l)).length = ((runs less l).length + 1) / 2 := length_mergePairs _
    have hnext := length_runs_flatten_le hsorted
    rw [sortLoop, listBegin_eq h (by rw [hB]; rfl), ok_bind, hpass, ok_bind, listSortLoop]
    rw [Nat.zero_add]
    generalize mergePairs less (runs less l) = out at *
    have hlist : M.IsList s₁ head tail out.flatten := by
      have hnd := h.nodup
      refine ⟨hperm'.nodup_iff.mpr hnd, hlinked, ?_, ?_⟩
      · rw [hP head (List.nodup_cons.mp hnd).1, h.prev_head]
      · rw [hN tail ?_, h.next_tail]
        grind
    dsimp only
    by_cases hlt : 1 < out.length
    · rw [if_pos hlt, if_pos hlt]
      obtain ⟨s', hok, hlist', hw'⟩ := ih hlist (by omega) (by omega) (by rw [hperm.length_eq]; exact hturns)
      exact ⟨s', hok, hlist', hw.trans (hw'.mono fun x hx => hperm'.mem_iff.mp hx)⟩
    · rw [if_neg hlt, if_neg hlt]
      have hone : Sorted less out.flatten := by
        rcases out with _ | ⟨r, _ | ⟨r', out⟩⟩
        · exact List.Pairwise.nil
        · simpa using hsorted r List.mem_cons_self
        · simp at hlt
      obtain ⟨a₁, B₁, hB₁⟩ : ∃ a₁ B₁, out.flatten ++ [tail] = a₁ :: B₁ := List.exists_cons_of_ne_nil (by simp)
      have htail : tail ∉ out.flatten := by
        have hnd := hlist.nodup
        grind
      refine ⟨s₁, ?_, hlist, hw⟩
      rw [listBegin_eq hlist (by rw [hB₁]; rfl), ok_bind, isSorted_eq (List.IsChain.tail hlist.linked) htail
        (by rw [hB₁]; rfl) hone (by rw [hperm.length_eq]; omega), ok_bind, assert_bind rfl]
      rfl

theorem sortList_spec (hless : StrictWeak less) (h : M.IsList s head tail l) (hturns : l.length < turns) :
    ∃ s', sortList M less turns head tail s = .ok s' ∧ M.IsList s' head tail (listSort less l) ∧
      M.Writes (· ∈ head :: (l ++ [tail])) s s' := by
  have hruns : (runs less l).length ≤ l.length := length_runs_le l
  obtain ⟨s', hok, hlist, hw⟩ := sortLoop_spec (n := turns) hless h (by omega) (by omega) hturns
  rw [listSortLoop_eq hless (by omega : (runs less l).length ≤ turns) hruns] at hlist
  exact ⟨s', hok, hlist, hw⟩

/-! ### Ordered insertion -/

/-- The place the loop finds: everything in front of it is not after `a`, and what it is in front of is. -/
theorem placeLoop_eq (less : α → α → Bool) (a : α) (h : M.Linked s (l ++ [tail])) (htail : tail ∉ l) (he : (l ++ [tail]).head? = some b)
    (hn : l.length < n) :
    ∃ l₁ l₂ q, l = l₁ ++ l₂ ∧ (∀ x ∈ l₁, less a x = false) ∧ (∀ x ∈ l₂.head?, less a x = true) ∧
      (l₂ ++ [tail]).head? = some q ∧ placeLoop M less tail a s n b = .ok q := by
  induction l generalizing b n with
  | nil =>
    obtain ⟨n, rfl⟩ : ∃ k, n = k + 1 := ⟨n - 1, by simp at hn; omega⟩
    obtain rfl : tail = b := Option.some.inj he
    refine ⟨[], [], tail, rfl, by simp, by simp, rfl, ?_⟩
    rw [placeLoop, if_neg (not_not_intro rfl)]
    rfl
  | cons c l ih =>
    obtain ⟨n, rfl⟩ : ∃ k, n = k + 1 := ⟨n - 1, by simp at hn; omega⟩
    obtain rfl : c = b := Option.some.inj he
    rw [List.mem_cons, not_or] at htail
    rw [placeLoop, if_pos (Ne.symm htail.1)]
    cases hless : less a c with
    | true => exact ⟨[], c :: l, c, rfl, by simp, by simp [hless], rfl, rfl⟩
    | false =>
      obtain ⟨b, hb⟩ : ∃ b, (l ++ [tail]).head? = some b := by
        cases l <;> exact ⟨_, rfl⟩
      have hnext : M.Follows s c b := Linked.follows (A := []) h hb
      obtain ⟨l₁, l₂, q, rfl, hl₁, hl₂, hq, hplace⟩ := ih (List.IsChain.tail h) htail.2 hb (by simp at hn; omega)
      refine ⟨c :: l₁, l₂, q, rfl, ?_, hl₂, hq, ?_⟩
      · rintro x (_ | ⟨_, hx⟩)
        · exact hless
        · exact hl₁ x hx
      · rw [if_neg (by decide), listNext_eq hnext.1, ok_bind]
        exact hplace

/-- `list_insert_ordered` into a sorted list. -/
theorem insertOrdered_spec (hless : StrictWeak less) (h : M.IsList s head tail l) (hturns : l.length < turns)
    (hsorted : Sorted less l) (ha : a ∉ head :: (l ++ [tail])) :
    ∃ l₁ l₂ s', l = l₁ ++ l₂ ∧ (∀ x ∈ l₁, less a x = false) ∧ (∀ x ∈ l₂, less a x = true) ∧
      insertOrdered M less turns head tail a s = .ok s' ∧ M.IsList s' head tail (l₁ ++ a :: l₂) ∧
      M.Writes (· ∈ a :: head :: (l ++ [tail])) s s' := by
  obtain ⟨b, hb⟩ : ∃ b, (l ++ [tail]).head? = some b := by
    cases l <;> exact ⟨_, rfl⟩
  have htail : tail ∉ l := fun hin =>
    (List.nodup_append.mp (List.nodup_cons.mp h.nodup).2).2.2 tail hin tail List.mem_cons_self rfl
  obtain ⟨l₁, l₂, q, rfl, hl₁, hl₂, hq, hplace⟩ := placeLoop_eq less a (List.IsChain.tail h.linked) htail hb hturns
  obtain ⟨s', hok, hlist, hw⟩ := insert_isList h ha hq
  refine ⟨l₁, l₂, s', rfl, hl₁, ?_, ?_, hlist, hw⟩
  · -- behind an element that is after `a`, all are
    cases l₂ with
    | nil => simp
    | cons c l₂ =>
      have hc : less a c = true := hl₂ c rfl
      have hrest := (List.pairwise_cons.mp (List.pairwise_append.mp hsorted).2.1).1
      rintro x (_ | ⟨_, hx⟩)
      · exact hc
      · exact hless.less_of_less hc (hrest x hx)
  · rw [insertOrdered, listBegin_eq h hb, ok_bind, hplace, ok_bind]
    exact hok

/-- **`list_sort` and `list_insert_ordered`.** The sorted list is well formed, and has the elements of the given one in
order; equivalent elements are in the order they had. An element inserted into a sorted list comes behind those that
are equivalent to it. -/
theorem list_sort_stable (M : LinkStore S α) (less : α → α → Bool) (hless : StrictWeak less) {s : S} {head tail : α}
    {l : List α} (h : M.IsList s head tail l) {turns : ℕ} (hturns : l.length < turns) :
    (∃ s' l', sortList M less turns head tail s = .ok s' ∧ M.IsList s' head tail l' ∧ l'.Perm l ∧ Sorted less l' ∧
      (∀ a b, less a b = false → less b a = false → ([a, b].Sublist l' ↔ [a, b].Sublist l)) ∧
      ∀ x, x ∉ head :: (l ++ [tail]) → M.prev s' x = M.prev s x ∧ M.next s' x = M.next s x) ∧
    (Sorted less l → ∀ elem, elem ∉ head :: (l ++ [tail]) →
      ∃ s' l₁ l₂, l = l₁ ++ l₂ ∧ insertOrdered M less turns head tail elem s = .ok s' ∧
        M.IsList s' head tail (l₁ ++ elem :: l₂) ∧ Sorted less (l₁ ++ elem :: l₂) ∧
        (∀ x ∈ l, less elem x = false → less x elem = false → x ∈ l₁) ∧
        ∀ x, x ∉ elem :: head :: (l ++ [tail]) → M.prev s' x = M.prev s x ∧ M.next s' x = M.next s x) := by
  constructor
  · obtain ⟨s', hok, hlist, hw⟩ := sortList_spec hless h hturns
    have hnodup : l.Nodup := (List.nodup_append.mp (List.nodup_cons.mp h.nodup).2).1
    exact ⟨s', listSort less l, hok, hlist, perm_listSort l, sorted_listSort hless l,
      fun a b hab hba => sublist_listSort_iff hless hnodup hab hba, fun x hx => hw.keep hx⟩
  · intro hsorted elem helem
    obtain ⟨l₁, l₂, s', rfl, hl₁, hl₂, hok, hlist, hw⟩ := insertOrdered_spec hless h hturns hsorted helem
    refine ⟨s', l₁, l₂, rfl, hok, hlist, ?_, fun x hx hlt _ => ?_, fun x hx => hw.keep hx⟩
    · obtain ⟨hs₁, hs₂, hs⟩ := List.pairwise_append.mp hsorted
      refine List.pairwise_append.mpr ⟨hs₁, List.pairwise_cons.mpr ⟨fun x hx => hless.asymm _ _ (hl₂ x hx), hs₂⟩, ?_⟩
      rintro x hx y (_ | ⟨_, hy⟩)
      · exact hl₁ x hx
      · exact hs x hx y hy
    · rcases List.mem_append.mp hx with hx | hx
      · exact hx
      · rw [hl₂ x hx] at hlt
        cases hlt

/-- The pointers of the nodes of `c`, linked in this order. -/
def linkUp (c : List ℕ) (x : ℕ) : Option ℕ × Option ℕ := ((c.tail.zip c).lookup x, (c.zip c.tail).lookup x)

/-- Four elements, odd ones first. -/
theorem list_sort_stable_four :
    (∃ s' l', sortList (pointers ℕ) (fun a b => decide ((a % 2 : ℤ) > b % 2)) 5 0 1 (linkUp [0, 2, 3, 4, 5, 1]) = .ok s' ∧
      (pointers ℕ).IsList s' 0 1 l' ∧ l'.Perm [2, 3, 4, 5] ∧ [3, 5].Sublist l') ∧
    ∃ s' l₁ l₂, [3, 2] = l₁ ++ l₂ ∧
      insertOrdered (pointers ℕ) (fun a b => decide ((a % 2 : ℤ) > b % 2)) 5 0 1 7 (linkUp [0, 3, 2, 1]) = .ok s' ∧
      (pointers ℕ).IsList s' 0 1 (l₁ ++ 7 :: l₂) ∧ 3 ∈ l₁ := by
  have hless := strictWeak_of_key fun a : ℕ => (a % 2 : ℤ)
  have hfour : (pointers ℕ).IsList (linkUp [0, 2, 3, 4, 5, 1]) 0 1 [2, 3, 4, 5] :=
    ⟨by decide, by unfold Linked Follows; decide, rfl, rfl⟩
  have htwo : (pointers ℕ).IsList (linkUp [0, 3, 2, 1]) 0 1 [3, 2] :=
    ⟨by decide, by unfold Linked Follows; decide, rfl, rfl⟩
  obtain ⟨s', l', hok, hlist, hperm, -, hstable, -⟩ := (list_sort_stable _ _ hless hfour (by decide : 4 < 5)).1
  obtain ⟨s'', l₁, l₂, hsplit, hok', hlist', -, hbehind, -⟩ := (list_sort_stable _ _ hless htwo (by decide : 2 < 5)).2
    (by unfold Sorted; decide) 7 (by decide)
  exact ⟨⟨s', l', hok, hlist, hperm, (hstable 3 5 (by decide) (by decide)).mpr (by decide)⟩,
    s'', l₁, l₂, hsplit, hok', hlist', hbehind 3 (by decide) (by decide) (by decide)⟩

end Clib
end Pintos

import Mathlib

/-!
# Ordered insertion and sorting of `lib/kernel/list.c`

`list_insert_ordered` and `list_sort` at the level of the sequence of elements, for any comparison
`less`. `list_sort` is a natural merge sort: a pass cuts the list into the runs `find_end_of_run`
finds and merges them two by two (`inplace_merge`), and passes are made until one run is left.

* `pairwise_listInsertOrdered` — what an insertion into a sorted list keeps;
* `sorted_listSort`, `perm_listSort` — the result is a sorted permutation;
* `pairwise_listSort` — the sort is stable: a relation between earlier and later elements survives
  if it holds of elements that `less` puts in order.
-/

namespace Pintos

variable {α : Type} (less : α → α → Bool)

/-- `less` orders the elements up to ties. -/
structure StrictWeak : Prop where
  asymm : ∀ a b, less a b = true → less b a = false
  /-- Not being after is transitive. -/
  trans : ∀ a b c, less b a = false → less c b = false → less c a = false

/-- No element is before an earlier one. -/
def Sorted (l : List α) : Prop := l.Pairwise fun a b => less b a = false

/-- `list_insert_ordered`. -/
def listInsertOrdered (x : α) : List α → List α
  | [] => [x]
  | e :: l => if less x e then x :: e :: l else e :: listInsertOrdered x l

/-- The runs of a list, each as long as `find_end_of_run` makes it. -/
def runs : List α → List (List α)
  | [] => []
  | a :: l =>
    match runs l with
    | (b :: r) :: rs => if less b a then [a] :: (b :: r) :: rs else (a :: b :: r) :: rs
    | rs => [a] :: rs

/-- One pass of `list_sort`: `inplace_merge` of the first run with the second, the third with the
fourth and so on. -/
def mergePairs : List (List α) → List (List α)
  | a :: b :: rs => List.merge a b (fun x y => !less y x) :: mergePairs rs
  | rs => rs

/-- The `do` loop of `list_sort`, at most `n` passes. -/
def listSortLoop : ℕ → List α → List α
  | 0, l => l
  | n + 1, l =>
    let out := mergePairs less (runs less l)
    if 1 < out.length then listSortLoop n out.flatten else out.flatten

/-- `list_sort`. A pass leaves fewer runs than it found, so `l.length` passes are enough
(`sorted_listSort`). -/
def listSort (l : List α) : List α := listSortLoop less l.length l

variable {less}

/-- Comparing integer keys, larger ones first. -/
theorem strictWeak_of_key (key : α → ℤ) : StrictWeak fun a b => decide (key a > key b) where
  asymm := by
    intro a b h
    simp only [decide_eq_true_eq, decide_eq_false_iff_not] at h ⊢
    omega
  trans := by
    intro a b c h₁ h₂
    simp only [decide_eq_false_iff_not] at h₁ h₂ ⊢
    omega

/-- An element that is before `b` is before everything that is not before `b`. -/
theorem StrictWeak.less_of_less (h : StrictWeak less) {a b c : α} (hab : less a b = true)
    (hbc : less c b = false) : less a c = true := by
  cases hac : less a c with
  | true => rfl
  | false =>
    have hab' := h.trans b c a hbc hac
    rw [hab] at hab'
    cases hab'

/-! ### Insertion -/

theorem perm_listInsertOrdered (x : α) (l : List α) :
    (listInsertOrdered less x l).Perm (x :: l) := by
  induction l with
  | nil => exact List.Perm.refl _
  | cons e l ih =>
    rw [listInsertOrdered]
    split
    · exact List.Perm.refl _
    · exact (ih.cons e).trans (List.Perm.swap x e l)

theorem mem_listInsertOrdered {x y : α} {l : List α} :
    y ∈ listInsertOrdered less x l ↔ y = x ∨ y ∈ l := by
  rw [(perm_listInsertOrdered x l).mem_iff, List.mem_cons]

theorem listInsertOrdered_congr {less' : α → α → Bool} {x : α} {l : List α}
    (h : ∀ e ∈ l, less x e = less' x e) : listInsertOrdered less x l = listInsertOrdered less' x l := by
  induction l with
  | nil => rfl
  | cons e l ih =>
    rw [listInsertOrdered, listInsertOrdered, h e List.mem_cons_self,
      ih fun e' he' => h e' (List.mem_cons_of_mem e he')]

/-- A relation between earlier and later elements of a sorted list survives an insertion if the new
element has it to those it is put before, and those it is put behind have it to the new one. -/
theorem pairwise_listInsertOrdered (h : StrictWeak less) {P : α → α → Prop} {x : α} {l : List α}
    (hsorted : Sorted less l) (hP : l.Pairwise P)
    (hbefore : ∀ e ∈ l, less x e = true → P x e) (hbehind : ∀ e ∈ l, less x e = false → P e x) :
    (listInsertOrdered less x l).Pairwise P := by
  induction l with
  | nil => exact List.pairwise_singleton P x
  | cons e l ih =>
    obtain ⟨hse, hsl⟩ := List.pairwise_cons.mp hsorted
    obtain ⟨hPe, hPl⟩ := List.pairwise_cons.mp hP
    rw [listInsertOrdered]
    split
    · next hxe =>
      refine List.pairwise_cons.mpr ⟨fun y hy => ?_, hP⟩
      rcases List.mem_cons.mp hy with rfl | hyl
      · exact hbefore y hy hxe
      · exact hbefore y hy (h.less_of_less hxe (hse y hyl))
    · next hxe =>
      have hxe' : less x e = false := by simpa using hxe
      refine List.pairwise_cons.mpr ⟨fun y hy => ?_, ih hsl hPl
        (fun y hy => hbefore y (List.mem_cons_of_mem _ hy))
        (fun y hy => hbehind y (List.mem_cons_of_mem _ hy))⟩
      rcases mem_listInsertOrdered.mp hy with rfl | hyl
      · exact hbehind e List.mem_cons_self hxe'
      · exact hPe y hyl

theorem sorted_listInsertOrdered (h : StrictWeak less) (x : α) {l : List α}
    (hsorted : Sorted less l) : Sorted less (listInsertOrdered less x l) :=
  pairwise_listInsertOrdered h hsorted hsorted (fun e _ hxe => h.asymm x e hxe) fun _ _ hxe => hxe

theorem takeWhile_ne_cons [DecidableEq α] {e t : α} (l : List α) (h : e ≠ t) :
    (e :: l).takeWhile (fun a => decide (a ≠ t)) = e :: l.takeWhile fun a => decide (a ≠ t) := by
  simp [h]

/-- An element that goes behind `t` and everything before `t` leaves alone what is before `t`. -/
theorem takeWhile_listInsertOrdered [DecidableEq α] {x t : α} {l : List α} (ht : t ∈ l)
    (hless : ∀ e, e = t ∨ e ∈ l.takeWhile (fun a => decide (a ≠ t)) → less x e = false) :
    (listInsertOrdered less x l).takeWhile (fun a => decide (a ≠ t)) =
      l.takeWhile (fun a => decide (a ≠ t)) := by
  induction l with
  | nil => cases ht
  | cons e l ih =>
    by_cases he : e = t
    · subst he
      rw [listInsertOrdered, hless e (.inl rfl)]
      simp
    · rw [takeWhile_ne_cons l he] at hless ⊢
      rw [listInsertOrdered, hless e (.inr List.mem_cons_self), if_neg Bool.false_ne_true,
        takeWhile_ne_cons _ he]
      congr 1
      refine ih ((List.mem_cons.1 ht).resolve_left (Ne.symm he)) fun e' he' => hless e' ?_
      exact he'.imp_right (List.mem_cons_of_mem e)

/-- What is before `t` is related to `t`. -/
theorem rel_of_mem_takeWhile [DecidableEq α] {P : α → α → Prop} {t e : α} {l : List α} (ht : t ∈ l)
    (hl : l.Pairwise P) (he : e ∈ l.takeWhile fun a => decide (a ≠ t)) : P e t := by
  induction l with
  | nil => cases ht
  | cons a l ih =>
    obtain ⟨ha, hl⟩ := List.pairwise_cons.1 hl
    by_cases hat : a = t
    · subst hat
      simp at he
    · rw [takeWhile_ne_cons l hat] at he
      have htl := (List.mem_cons.1 ht).resolve_left (Ne.symm hat)
      obtain rfl | he := List.mem_cons.1 he
      · exact ha t htl
      · exact ih htl hl he

/-- What `dropWhile` leaves of a list with ascending keys. -/
theorem mem_dropWhile_iff {key : α → ℤ} {b : ℤ} {x : α} {l : List α}
    (h : l.Pairwise fun a a' => key a ≤ key a') :
    x ∈ l.dropWhile (fun a => decide (key a ≤ b)) ↔ x ∈ l ∧ b < key x := by
  induction l with
  | nil => simp
  | cons a l ih =>
    obtain ⟨ha, hl⟩ := List.pairwise_cons.1 h
    by_cases hab : key a ≤ b
    · rw [List.dropWhile_cons_of_pos (by simpa using hab), ih hl, List.mem_cons]
      constructor
      · exact fun hx => ⟨.inr hx.1, hx.2⟩
      · rintro ⟨rfl | hx, hlt⟩
        · omega
        · exact ⟨hx, hlt⟩
    · rw [List.dropWhile_cons_of_neg (by simpa using hab)]
      refine ⟨fun hx => ⟨hx, ?_⟩, fun hx => hx.1⟩
      obtain rfl | hx := List.mem_cons.1 hx
      · omega
      · have hle := ha x hx
        omega

/-! ### Runs -/

theorem flatten_runs (l : List α) : (runs less l).flatten = l := by
  induction l with
  | nil => rfl
  | cons a l ih =>
    rw [runs]
    split
    · next b r rs heq =>
      rw [heq] at ih
      split <;> simpa using ih
    · simpa using ih

/-- The first run starts with the first element. -/
theorem runs_cons (a : α) (l : List α) : ∃ r rs, runs less (a :: l) = (a :: r) :: rs := by
  rw [runs]
  split
  · split
    · exact ⟨_, _, rfl⟩
    · exact ⟨_, _, rfl⟩
  · exact ⟨_, _, rfl⟩

/-- Behind a run the runs are those of the rest of the list. -/
theorem runs_flatten_tail (h : runs less l = r :: rs) : runs less rs.flatten = rs := by
  induction l generalizing r rs with
  | nil => cases h
  | cons a l ih =>
    have hl : runs less (runs less l).flatten = runs less l := by rw [flatten_runs]
    rw [runs] at h
    split at h
    next b r' rs' heq =>
      split at h
      · cases h
        rw [← heq]
        exact hl
      · cases h
        exact ih heq
    next =>
      cases h
      exact hl

/-- The first run begins where the list does. -/
theorem runs_head (h : runs less l = r :: rs) : ∃ a r' l', r = a :: r' ∧ l = a :: l' := by
  cases l with
  | nil => cases h
  | cons a l =>
    obtain ⟨r', rs', hruns⟩ : ∃ r rs, runs less (a :: l) = (a :: r) :: rs := runs_cons a l
    cases hruns.symm.trans h
    exact ⟨a, r', l, rfl, rfl⟩

theorem sorted_of_mem_runs (h : StrictWeak less) {l r : List α} (hr : r ∈ runs less l) :
    Sorted less r := by
  induction l generalizing r with
  | nil => simp [runs] at hr
  | cons a l ih =>
    rw [runs] at hr
    split at hr
    · next b r' rs heq =>
      rw [heq] at ih
      have hb := ih List.mem_cons_self
      split at hr
      · rcases List.mem_cons.mp hr with rfl | hr
        · exact List.pairwise_singleton _ a
        · exact ih hr
      · next hba =>
        rcases List.mem_cons.mp hr with rfl | hr
        · refine List.pairwise_cons.mpr ⟨fun y hy => ?_, hb⟩
          rcases List.mem_cons.mp hy with rfl | hy
          · simpa using hba
          · exact h.trans a b y (by simpa using hba) ((List.pairwise_cons.mp hb).1 y hy)
        · exact ih (List.mem_cons_of_mem _ hr)
    · rcases List.mem_cons.mp hr with rfl | hr
      · exact List.pairwise_singleton _ a
      · exact ih hr

/-- One more element makes at most one more run. -/
theorem length_runs_cons_le (a : α) (l : List α) :
    (runs less (a :: l)).length ≤ (runs less l).length + 1 := by
  rw [runs]
  split
  · next heq =>
    rw [heq]
    split <;> simp
  · simp

theorem length_runs_le (l : List α) : (runs less l).length ≤ l.length := by
  induction l with
  | nil => exact Nat.le_refl _
  | cons a l ih => exact Nat.le_trans (length_runs_cons_le a l) (Nat.succ_le_succ ih)

/-- Sorted elements in front make at most one more run. -/
theorem length_runs_append_le {r : List α} (hr : Sorted less r) (l : List α) :
    (runs less (r ++ l)).length ≤ (runs less l).length + 1 := by
  induction r with
  | nil => exact Nat.le_succ _
  | cons a r ih =>
    obtain ⟨ha, hr'⟩ := List.pairwise_cons.mp hr
    cases r with
    | nil => exact length_runs_cons_le a l
    | cons b r =>
      -- `a` joins the run of `b`
      have hba : less b a = false := ha b List.mem_cons_self
      obtain ⟨r₁, rs, heq⟩ : ∃ r₁ rs, runs less (b :: (r ++ l)) = (b :: r₁) :: rs := runs_cons _ _
      have hih := ih hr'
      rw [List.cons_append] at hih
      rw [List.cons_append, List.cons_append, runs, heq]
      rw [heq] at hih
      simpa [hba] using hih

theorem length_runs_flatten_le {rs : List (List α)} (h : ∀ r ∈ rs, Sorted less r) :
    (runs less rs.flatten).length ≤ rs.length := by
  induction rs with
  | nil => exact Nat.le_refl _
  | cons r rs ih =>
    have hr := length_runs_append_le (h r List.mem_cons_self) rs.flatten
    have hrs := ih fun r' hr' => h r' (List.mem_cons_of_mem _ hr')
    rw [List.flatten_cons, List.length_cons]
    omega

/-! ### Sorting -/

theorem perm_mergePairs (rs : List (List α)) :
    (mergePairs less rs).flatten.Perm rs.flatten := by
  fun_induction mergePairs less rs with
  | case1 a b rs ih =>
    rw [List.flatten_cons, List.flatten_cons, List.flatten_cons, ← List.append_assoc]
    exact List.Perm.append (List.merge_perm_append _) ih
  | case2 rs _ => exact List.Perm.refl _

theorem length_mergePairs (rs : List (List α)) :
    (mergePairs less rs).length = (rs.length + 1) / 2 := by
  fun_induction mergePairs less rs with
  | case1 a b rs ih =>
    simp only [List.length_cons, ih]
    omega
  | case2 rs hrs =>
    match rs, hrs with
    | [], _ => simp
    | [_], _ => simp
    | a :: b :: l, h => exact absurd rfl (h a b l)

theorem sorted_of_mem_mergePairs (h : StrictWeak less) {rs : List (List α)}
    (hrs : ∀ r ∈ rs, Sorted less r) : ∀ r ∈ mergePairs less rs, Sorted less r := by
  fun_induction mergePairs less rs with
  | case1 a b rs ih =>
    intro r hr
    rcases List.mem_cons.mp hr with rfl | hr
    · have hle : ∀ {l : List α}, Sorted less l →
          l.Pairwise fun x y => (!less y x) = true := fun hl => hl.imp (by simp)
      have hm : (List.merge a b fun x y => !less y x).Pairwise fun x y => (!less y x) = true := by
        refine List.pairwise_merge (fun x y z hxy hyz => ?_) (fun x y => ?_) a b
          (hle (hrs a List.mem_cons_self))
          (hle (hrs b (List.mem_cons_of_mem _ List.mem_cons_self)))
        · simp only [Bool.not_eq_true'] at hxy hyz ⊢
          exact h.trans x y z hxy hyz
        · cases hyx : less y x with
          | false => simp
          | true => simp [h.asymm y x hyx]
      exact hm.imp (by simp)
    · exact ih (fun r' hr' => hrs r' (List.mem_cons_of_mem _ (List.mem_cons_of_mem _ hr'))) r hr
  | case2 rs _ => exact hrs

theorem perm_listSort (l : List α) : (listSort less l).Perm l := by
  have hloop : ∀ n (l : List α), (listSortLoop less n l).Perm l := by
    intro n
    induction n with
    | zero => exact fun l => List.Perm.refl l
    | succ n ih =>
      intro l
      have hpass : (mergePairs less (runs less l)).flatten.Perm l := by
        have hperm : (mergePairs less (runs less l)).flatten.Perm (runs less l).flatten :=
          perm_mergePairs _
        rwa [flatten_runs] at hperm
      rw [listSortLoop]
      split
      · exact (ih _).trans hpass
      · exact hpass
  exact hloop _ l

/-- **The result of `list_sort` is sorted.** Each pass at least halves the number of runs, rounding
up, so that number bounds the passes that are needed. -/
theorem sorted_listSort (h : StrictWeak less) (l : List α) : Sorted less (listSort less l) := by
  have hloop : ∀ n (l : List α), (runs less l).length ≤ n → Sorted less (listSortLoop less n l) := by
    intro n
    induction n with
    | zero =>
      intro l hl
      have hnil : runs less l = [] := List.eq_nil_of_length_eq_zero (Nat.le_zero.mp hl)
      have hl' : (runs less l).flatten = l := flatten_runs l
      rw [hnil] at hl'
      rw [listSortLoop, ← hl']
      exact List.Pairwise.nil
    | succ n ih =>
      intro l hl
      have hruns : ∀ r ∈ mergePairs less (runs less l), Sorted less r :=
        sorted_of_mem_mergePairs h fun r hr => sorted_of_mem_runs h hr
      have hlen : (mergePairs less (runs less l)).length = ((runs less l).length + 1) / 2 :=
        length_mergePairs _
      rw [listSortLoop]
      split
      · have hnext := length_runs_flatten_le hruns
        exact ih _ (by omega)
      · next hone =>
        match hout : mergePairs less (runs less l) with
        | [] => exact List.Pairwise.nil
        | [r] =>
          rw [hout] at hruns
          simpa using hruns r List.mem_cons_self
        | _ :: _ :: _ => simp [hout] at hone
  exact hloop _ l (length_runs_le l)

/-- More passes than there are runs make no difference. -/
theorem listSortLoop_eq (h : StrictWeak less) {l : List α} {n n' : ℕ} (hn : (runs less l).length ≤ n)
    (hn' : (runs less l).length ≤ n') : listSortLoop less n l = listSortLoop less n' l := by
  have hnil : ∀ n, listSortLoop less n ([] : List α) = [] := by
    intro n
    cases n <;> rfl
  have hempty : (runs less l).length ≤ 0 → l = [] := fun h0 => by
    have hl : (runs less l).flatten = l := flatten_runs l
    rwa [List.eq_nil_of_length_eq_zero (Nat.le_zero.mp h0), List.flatten_nil, eq_comm] at hl
  induction n generalizing n' l with
  | zero =>
    rw [hempty hn, hnil, hnil]
  | succ n ih =>
    cases n' with
    | zero => rw [hempty hn', hnil, hnil]
    | succ n' =>
      have hruns : ∀ r ∈ mergePairs less (runs less l), Sorted less r :=
        sorted_of_mem_mergePairs h fun r hr => sorted_of_mem_runs h hr
      have hlen : (mergePairs less (runs less l)).length = ((runs less l).length + 1) / 2 := length_mergePairs _
      have hnext := length_runs_flatten_le hruns
      rw [listSortLoop, listSortLoop]
      split
      · refine ih (by omega) (by omega) fun h0 => ?_
        have hl : (runs less (mergePairs less (runs less l)).flatten).flatten = _ := flatten_runs _
        rwa [List.eq_nil_of_length_eq_zero (Nat.le_zero.mp h0), List.flatten_nil, eq_comm] at hl
      · rfl

/-- Merging two sorted runs keeps a relation between earlier and later elements if the relation
holds of elements that `less` puts in order: only these change places. -/
theorem pairwise_merge_runs (h : StrictWeak less) {P : α → α → Prop}
    (hless : ∀ a b, less a b = true → P a b) {a b : List α} (ha : Sorted less a)
    (hP : (a ++ b).Pairwise P) : (List.merge a b fun x y => !less y x).Pairwise P := by
  induction a generalizing b with
  | nil => simpa using hP
  | cons x a iha =>
    obtain ⟨hxa, ha'⟩ := List.pairwise_cons.mp ha
    obtain ⟨hPx, hPab⟩ := List.pairwise_cons.mp hP
    induction b with
    | nil => simpa using hP
    | cons y b ihb =>
      rw [List.cons_merge_cons]
      split
      · refine List.pairwise_cons.mpr ⟨fun z hz => hPx z ?_, iha ha' hPab⟩
        simpa [List.mem_merge] using hz
      · next hyx =>
        have hyx' : less y x = true := by simpa using hyx
        have hPb : (x :: a ++ b).Pairwise P :=
          hP.sublist ((List.sublist_cons_self y b).append_left (x :: a))
        refine List.pairwise_cons.mpr ⟨fun z hz => ?_,
          ihb hPb (List.pairwise_cons.mp hPb).1 (List.pairwise_cons.mp hPb).2⟩
        rcases List.mem_merge.mp hz with hz | hz
        · -- `y` is put before all of the rest of the first run
          rcases List.mem_cons.mp hz with rfl | hz
          · exact hless y z hyx'
          · exact hless y z (h.less_of_less hyx' (hxa z hz))
        · have hyb : (y :: b).Pairwise P := (List.pairwise_append.mp hP).2.1
          exact (List.pairwise_cons.mp hyb).1 z hz

theorem pairwise_mergePairs (h : StrictWeak less) {P : α → α → Prop}
    (hless : ∀ a b, less a b = true → P a b) {rs : List (List α)}
    (hrs : ∀ r ∈ rs, Sorted less r) (hP : rs.flatten.Pairwise P) :
    (mergePairs less rs).flatten.Pairwise P := by
  fun_induction mergePairs less rs with
  | case1 a b rs ih =>
    rw [List.flatten_cons, List.flatten_cons, ← List.append_assoc] at hP
    obtain ⟨hab, hrest, hcross⟩ := List.pairwise_append.mp hP
    rw [List.flatten_cons, List.pairwise_append]
    refine ⟨pairwise_merge_runs h hless (hrs a List.mem_cons_self) hab, ih (fun r hr =>
      hrs r (List.mem_cons_of_mem _ (List.mem_cons_of_mem _ hr))) hrest, ?_⟩
    intro x hx y hy
    refine hcross x ?_ y ((perm_mergePairs rs).mem_iff.mp hy)
    simpa [List.mem_merge] using hx
  | case2 rs _ => exact hP

/-- **`list_sort` is stable.** A relation between earlier and later elements survives the sort if it
holds of elements that `less` puts in order. -/
theorem pairwise_listSort (h : StrictWeak less) {P : α → α → Prop}
    (hless : ∀ a b, less a b = true → P a b) {l : List α} (hP : l.Pairwise P) :
    (listSort less l).Pairwise P := by
  have hloop : ∀ n (l : List α), l.Pairwise P → (listSortLoop less n l).Pairwise P := by
    intro n
    induction n with
    | zero => exact fun l hl => hl
    | succ n ih =>
      intro l hl
      have hpass : (mergePairs less (runs less l)).flatten.Pairwise P :=
        pairwise_mergePairs h hless (fun r hr => sorted_of_mem_runs h hr)
          (by rw [flatten_runs]; exact hl)
      rw [listSortLoop]
      split
      · exact ih _ hpass
      · exact hpass
  exact hloop _ l hP

/-- Two elements are in one order or the other. -/
theorem pair_sublist_total {a b : α} {l : List α} (ha : a ∈ l) (hb : b ∈ l) (hne : a ≠ b) :
    [a, b].Sublist l ∨ [b, a].Sublist l := by
  obtain ⟨l₁, l₂, rfl⟩ := List.append_of_mem ha
  rcases List.mem_append.mp hb with hb | hb
  · exact .inr ((List.singleton_sublist.mpr hb).append (List.singleton_sublist.mpr List.mem_cons_self))
  · rcases List.mem_cons.mp hb with rfl | hb
    · exact absurd rfl hne
    · exact .inl (((List.singleton_sublist.mpr hb).cons_cons a).trans (List.sublist_append_right _ _))

theorem pair_sublist_asymm {a b : α} {l : List α} (hl : l.Nodup) (hab : [a, b].Sublist l) : ¬ [b, a].Sublist l := by
  induction l with
  | nil => cases hab
  | cons x l ih =>
    obtain ⟨hx, hl⟩ := List.nodup_cons.mp hl
    intro hba
    rcases List.sublist_cons_iff.mp hab with hab | ⟨r, hr, hab⟩
    · rcases List.sublist_cons_iff.mp hba with hba | ⟨r', hr', -⟩
      · exact ih hl hab hba
      · exact hx (hab.subset (by cases hr'; simp))
    · cases hr
      rcases List.sublist_cons_iff.mp hba with hba | ⟨r', hr', -⟩
      · exact hx (hba.subset (by simp))
      · cases hr'
        exact hx (hab.subset (by simp))

/-- Equivalent elements are in the same order before and after the sort. -/
theorem sublist_listSort_iff (h : StrictWeak less) {a b : α} {l : List α} (hl : l.Nodup) (hab : less a b = false)
    (hba : less b a = false) : [a, b].Sublist (listSort less l) ↔ [a, b].Sublist l := by
  have hpair : (listSort less l).Pairwise fun x y => less x y = true ∨ [x, y].Sublist l :=
    pairwise_listSort h (fun _ _ hxy => .inl hxy) (List.pairwise_iff_forall_sublist.mpr fun hxy => .inr hxy)
  have hkeep : ∀ {x y}, [x, y].Sublist (listSort less l) → less x y = true ∨ [x, y].Sublist l :=
    List.pairwise_iff_forall_sublist.mp hpair
  constructor
  · intro hsub
    rcases hkeep hsub with hlt | hsub
    · rw [hab] at hlt
      cases hlt
    · exact hsub
  · intro hsub
    have hmem : ∀ x ∈ [a, b], x ∈ listSort less l := fun x hx => (perm_listSort l).mem_iff.mpr (hsub.subset hx)
    have hne : a ≠ b := by
      rintro rfl
      exact pair_sublist_asymm hl hsub hsub
    rcases pair_sublist_total (hmem a (by simp)) (hmem b (by simp)) hne with hsub' | hsub'
    · exact hsub'
    · rcases hkeep hsub' with hlt | hsub''
      · rw [hba] at hlt
        cases hlt
      · exact absurd hsub'' (pair_sublist_asymm hl hsub)

end Pintos

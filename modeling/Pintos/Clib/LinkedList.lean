import Pintos.Devices.Block
import Pintos.Lib.Links

/-!
# Lists

The functions of `lib/kernel/list.c` on single elements, on any store of links. A list is given by its two sentinels.
A `NULL` pointer that is followed is `wild`.

* `listNext_eq`, `listPrev_eq` — the neighbours of an element;
* `listInsert_spec`, `listRemove_spec`, `listSplice_spec` — what becomes of a sequence of linked elements. They also say
  which pointers are written: that is how a list keeps its sentinels, and other lists all of their elements;
* `insert_isList`, `remove_isList` and those for the ends of a list — what becomes of the list between two sentinels.
-/

namespace Pintos
namespace Clib

open LinkStore

variable {S α : Type} [DecidableEq α] (M : LinkStore S α)

/-- A pointer that is followed. -/
def deref : Option α → Except Halt α
  | some a => return a
  | none => throw .wild

/-- `ASSERT`. -/
def assert (P : Prop) [Decidable P] : Except Halt Unit := if P then return else throw .assertion

/-- `is_head`. -/
def IsHead (s : S) (elem : α) : Prop := M.prev s elem = none ∧ M.next s elem ≠ none

/-- `is_interior`. -/
def IsInterior (s : S) (elem : α) : Prop := M.prev s elem ≠ none ∧ M.next s elem ≠ none

/-- `is_tail`. -/
def IsTail (s : S) (elem : α) : Prop := M.prev s elem ≠ none ∧ M.next s elem = none

instance (s : S) (elem : α) : Decidable (IsHead M s elem) := inferInstanceAs (Decidable (_ ∧ _))

instance (s : S) (elem : α) : Decidable (IsInterior M s elem) := inferInstanceAs (Decidable (_ ∧ _))

instance (s : S) (elem : α) : Decidable (IsTail M s elem) := inferInstanceAs (Decidable (_ ∧ _))

/-- `list_init`. -/
def listInit (head tail : α) (s : S) : S :=
  let s := M.setPrev s head none
  let s := M.setNext s head (some tail)
  let s := M.setPrev s tail (some head)
  M.setNext s tail none

/-- `list_begin`. -/
def listBegin (head : α) (s : S) : Except Halt α := deref (M.next s head)

/-- `list_next`. -/
def listNext (s : S) (elem : α) : Except Halt α := do
  assert (IsHead M s elem ∨ IsInterior M s elem)
  deref (M.next s elem)

/-- `list_prev`. -/
def listPrev (s : S) (elem : α) : Except Halt α := do
  assert (IsInterior M s elem ∨ IsTail M s elem)
  deref (M.prev s elem)

/-- `list_insert`. -/
def listInsert (before elem : α) (s : S) : Except Halt S := do
  assert (IsInterior M s before ∨ IsTail M s before)
  let s := M.setPrev s elem (M.prev s before)
  let s := M.setNext s elem (some before)
  let s := M.setNext s (← deref (M.prev s before)) (some elem)
  return M.setPrev s before (some elem)

/-- `list_splice`. -/
def listSplice (before first last : α) (s : S) : Except Halt S := do
  assert (IsInterior M s before ∨ IsTail M s before)
  if first = last then return s
  else
    let last ← listPrev M s last
    assert (IsInterior M s first)
    assert (IsInterior M s last)
    let s := M.setNext s (← deref (M.prev s first)) (M.next s last)
    let s := M.setPrev s (← deref (M.next s last)) (M.prev s first)
    let s := M.setPrev s first (M.prev s before)
    let s := M.setNext s last (some before)
    let s := M.setNext s (← deref (M.prev s before)) (some first)
    return M.setPrev s before (some last)

/-- `list_remove`. -/
def listRemove (elem : α) (s : S) : Except Halt (α × S) := do
  assert (IsInterior M s elem)
  let s := M.setNext s (← deref (M.prev s elem)) (M.next s elem)
  let s := M.setPrev s (← deref (M.next s elem)) (M.prev s elem)
  return (← deref (M.next s elem), s)

/-- `list_push_front`. -/
def listPushFront (head elem : α) (s : S) : Except Halt S := do
  listInsert M (← listBegin M head s) elem s

/-- `list_push_back`. -/
def listPushBack (tail elem : α) (s : S) : Except Halt S := listInsert M tail elem s

/-- `list_empty`. -/
def listEmpty (head tail : α) (s : S) : Except Halt Bool := do
  return (← listBegin M head s) = tail

/-- `list_front`. -/
def listFront (head tail : α) (s : S) : Except Halt α := do
  assert (¬ (← listEmpty M head tail s))
  listBegin M head s

/-- `list_pop_front`. -/
def listPopFront (head tail : α) (s : S) : Except Halt (α × S) := do
  let front ← listFront M head tail s
  let (_, s) ← listRemove M front s
  return (front, s)

/-! ### Neighbours -/

variable {M} {s : S} {A B : List α} {x y p q e b t u : α}

omit [DecidableEq α] in
@[simp] theorem deref_some (a : α) : deref (some a) = .ok a := rfl

theorem ok_bind {β γ : Type} (a : β) (f : β → Except Halt γ) : (Except.ok a >>= f) = f a := rfl

theorem assert_bind {β : Type} {P : Prop} [Decidable P] (h : P) (f : Unit → Except Halt β) : (assert P >>= f) = f () := by
  rw [assert, if_pos h]
  rfl

theorem listNext_eq (h : M.next s x = some y) : listNext M s x = .ok y := by
  have hassert : IsHead M s x ∨ IsInterior M s x := by
    unfold IsHead IsInterior
    rw [h]
    cases M.prev s x <;> simp
  rw [listNext, assert_bind hassert, h, deref_some]

theorem interior_or_tail (h : M.prev s y = some x) : IsInterior M s y ∨ IsTail M s y := by
  unfold IsInterior IsTail
  rw [h]
  cases M.next s y <;> simp

theorem listPrev_eq (h : M.prev s y = some x) : listPrev M s y = .ok x := by
  rw [listPrev, assert_bind (interior_or_tail h), h, deref_some]

theorem isInterior (h : M.prev s x = some p) (h' : M.next s x = some q) : IsInterior M s x := by
  unfold IsInterior
  rw [h, h']
  simp

/-! ### Changes -/

theorem listInsert_spec (h : M.Linked s (A ++ p :: b :: B)) (hnodup : (A ++ p :: e :: b :: B).Nodup) :
    ∃ s', listInsert M b e s = .ok s' ∧ M.Linked s' (A ++ p :: e :: b :: B) ∧ M.Writes (· ∈ [p, e, b]) s s' ∧
      (∀ y, y ∉ [p, e] → M.next s' y = M.next s y) ∧ (∀ y, y ∉ [e, b] → M.prev s' y = M.prev s y) := by
  obtain ⟨-, hpb, -⟩ := linked_append_cons_cons.mp h
  have hne : p ≠ e ∧ e ≠ b := by
    rw [List.nodup_append] at hnodup
    grind
  obtain ⟨hpe, heb⟩ := hne
  obtain ⟨s', hs'⟩ : ∃ s', s' = M.setPrev (M.setNext (M.setNext (M.setPrev s e (some p)) e (some b)) p (some e)) b
    (some e) := ⟨_, rfl⟩
  have hnext : ∀ y, M.next s' y = if y = p then some e else if y = e then some b else M.next s y := fun y => by
    rw [hs', M.next_setPrev, M.next_setNext, M.next_setNext, M.next_setPrev]
  have hprev : ∀ y, M.prev s' y = if y = b then some e else if y = e then some p else M.prev s y := fun y => by
    rw [hs', M.prev_setPrev, M.prev_setNext, M.prev_setNext, M.prev_setPrev]
  have hN : ∀ y, y ∉ [p, e] → M.next s' y = M.next s y := by grind
  have hP : ∀ y, y ∉ [e, b] → M.prev s' y = M.prev s y := by grind
  refine ⟨s', ?_, h.insert hnodup ⟨?_, ?_⟩ ⟨?_, ?_⟩ hN hP, ?_, hN, hP⟩
  · rw [listInsert, assert_bind (interior_or_tail hpb.2), hpb.2]
    simp only [M.prev_setNext, M.prev_setPrev, if_neg (Ne.symm heb), hpb.2, deref_some, ok_bind]
    rw [hs']
    rfl
  · rw [hnext, if_pos rfl]
  · rw [hprev, if_neg heb, if_pos rfl]
  · rw [hnext, if_neg (Ne.symm hpe), if_pos rfl]
  · rw [hprev, if_pos rfl]
  · rw [hs']
    exact (((Writes.refl.setPrev (by simp) _).setNext (by simp) _).setNext (by simp) _).setPrev (by simp) _

theorem listRemove_spec (h : M.Linked s (A ++ p :: e :: q :: B)) (hnodup : (A ++ p :: e :: q :: B).Nodup) :
    ∃ s', listRemove M e s = .ok (q, s') ∧ M.Linked s' (A ++ p :: q :: B) ∧ M.Writes (· ∈ [p, q]) s s' ∧
      (∀ y, y ∉ [p] → M.next s' y = M.next s y) ∧ (∀ y, y ∉ [q] → M.prev s' y = M.prev s y) := by
  obtain ⟨-, hpe, hB⟩ := linked_append_cons_cons.mp h
  obtain ⟨heq, -⟩ := List.isChain_cons_cons.mp hB
  have hne : p ≠ e ∧ e ≠ q := by
    rw [List.nodup_append] at hnodup
    grind
  obtain ⟨hpe', heq'⟩ := hne
  obtain ⟨s', hs'⟩ : ∃ s', s' = M.setPrev (M.setNext s p (some q)) q (some p) := ⟨_, rfl⟩
  have hnext : ∀ y, M.next s' y = if y = p then some q else M.next s y := fun y => by
    rw [hs', M.next_setPrev, M.next_setNext]
  have hprev : ∀ y, M.prev s' y = if y = q then some p else M.prev s y := fun y => by
    rw [hs', M.prev_setPrev, M.prev_setNext]
  have hN : ∀ y, y ∉ [p] → M.next s' y = M.next s y := by grind
  have hP : ∀ y, y ∉ [q] → M.prev s' y = M.prev s y := by grind
  refine ⟨s', ?_, h.remove hnodup ⟨?_, ?_⟩ hN hP, ?_, hN, hP⟩
  · rw [listRemove, assert_bind (isInterior hpe.2 heq.1), hpe.2, heq.1]
    simp only [deref_some, ok_bind, M.next_setNext, M.prev_setNext, M.next_setPrev, if_neg (Ne.symm hpe'), hpe.2, heq.1]
    rw [hs']
    rfl
  · rw [hnext, if_pos rfl]
  · rw [hprev, if_pos rfl]
  · rw [hs']
    exact (Writes.refl.setNext (by simp) _).setPrev (by simp) _

/-- `list_splice` of one element to a place further in front, as `inplace_merge` does it. -/
theorem listSplice_spec {part Y Z : List α} (hb : part = b :: Y) (hu : part = Z ++ [u])
    (h : M.Linked s (A ++ p :: (part ++ e :: t :: B))) (hnodup : (A ++ p :: (part ++ e :: t :: B)).Nodup) :
    ∃ s', listSplice M b e t s = .ok s' ∧ M.Linked s' (A ++ p :: e :: (part ++ t :: B)) ∧
      M.Writes (· ∈ p :: (part ++ [e, t])) s s' ∧ (∀ y, y ∉ p :: (part ++ [e]) → M.next s' y = M.next s y) ∧
      (∀ y, y ∉ part ++ [e, t] → M.prev s' y = M.prev s y) := by
  have hbpart : b ∈ part := by simp [hb]
  have hupart : u ∈ part := by simp [hu]
  have hpb : M.Follows s p b := by
    rw [hb] at h
    exact (linked_append_cons_cons.mp h).2.1
  have hue : M.Follows s u e ∧ M.Follows s e t := by
    have hsplit : A ++ p :: (part ++ e :: t :: B) = (A ++ p :: Z) ++ u :: e :: t :: B := by rw [hu]; simp
    rw [hsplit] at h
    obtain ⟨-, hue, hrest⟩ := linked_append_cons_cons.mp h
    exact ⟨hue, (List.isChain_cons_cons.mp hrest).1⟩
  obtain ⟨hue, het⟩ := hue
  have hne : p ≠ u ∧ e ≠ u ∧ p ≠ e ∧ b ≠ t ∧ e ≠ b ∧ e ≠ t := by
    rw [List.nodup_append] at hnodup
    grind
  obtain ⟨hpu, heu, hpe, hbt, heb, het'⟩ := hne
  obtain ⟨s', hs'⟩ : ∃ s', s' = M.setPrev (M.setNext (M.setNext (M.setPrev (M.setPrev (M.setNext s u (some t)) t
    (some u)) e (some p)) e (some b)) p (some e)) b (some e) := ⟨_, rfl⟩
  have hnext : ∀ y, M.next s' y =
      if y = p then some e else if y = e then some b else if y = u then some t else M.next s y := fun y => by
    rw [hs', M.next_setPrev, M.next_setNext, M.next_setNext, M.next_setPrev, M.next_setPrev, M.next_setNext]
  have hprev : ∀ y, M.prev s' y =
      if y = b then some e else if y = e then some p else if y = t then some u else M.prev s y := fun y => by
    rw [hs', M.prev_setPrev, M.prev_setNext, M.prev_setNext, M.prev_setPrev, M.prev_setPrev, M.prev_setNext]
  have hN : ∀ y, y ∉ [p, e, u] → M.next s' y = M.next s y := by grind
  have hP : ∀ y, y ∉ [e, b, t] → M.prev s' y = M.prev s y := by grind
  refine ⟨s', ?_, h.moveUp hb hu hnodup ⟨?_, ?_⟩ ⟨?_, ?_⟩ ⟨?_, ?_⟩ hN hP, ?_, ?_, ?_⟩
  · rw [listSplice, assert_bind (interior_or_tail hpb.2), if_neg het', listPrev_eq het.2, ok_bind,
      assert_bind (isInterior hue.2 het.1), assert_bind (isInterior hue.2 het.1), hue.2, het.1]
    simp only [deref_some, ok_bind, M.next_setNext, M.prev_setNext, M.prev_setPrev, if_neg heu,
      if_neg hbt, if_neg (Ne.symm heb), hue.2, het.1, hpb.2]
    rw [hs']
    rfl
  · rw [hnext, if_pos rfl]
  · rw [hprev, if_neg heb, if_pos rfl]
  · rw [hnext, if_neg (Ne.symm hpe), if_pos rfl]
  · rw [hprev, if_pos rfl]
  · rw [hnext, if_neg (Ne.symm hpu), if_neg (Ne.symm heu), if_pos rfl]
  · rw [hprev, if_neg (Ne.symm hbt), if_neg (Ne.symm het'), if_pos rfl]
  · rw [hs']
    refine (((((Writes.refl.setNext ?_ _).setPrev ?_ _).setPrev ?_ _).setNext ?_ _).setNext ?_ _).setPrev ?_ _ <;>
      simp [hbpart, hupart]
  · intro y hy
    refine hN y ?_
    grind
  · intro y hy
    refine hP y ?_
    grind

/-! ### Whole lists -/

variable {head tail : α} {l l₁ l₂ : List α}

omit [DecidableEq α] in
/-- The element in front of a place and the one behind it. -/
theorem exists_around (head tail : α) (l₁ l₂ : List α) :
    ∃ A p b B, head :: l₁ = A ++ [p] ∧ l₂ ++ [tail] = b :: B ∧ ∀ m, head :: (l₁ ++ m ++ l₂ ++ [tail]) = A ++ p :: (m ++ b :: B) := by
  obtain ⟨A, p, hA⟩ : ∃ A p, head :: l₁ = A ++ [p] := ⟨_, _, (List.dropLast_append_getLast (List.cons_ne_nil _ _)).symm⟩
  obtain ⟨b, B, hB⟩ : ∃ b B, l₂ ++ [tail] = b :: B := List.exists_cons_of_ne_nil (by simp)
  refine ⟨A, p, b, B, hA, hB, fun m => ?_⟩
  calc head :: (l₁ ++ m ++ l₂ ++ [tail]) = (head :: l₁) ++ (m ++ (l₂ ++ [tail])) := by simp
    _ = A ++ p :: (m ++ b :: B) := by rw [hA, hB]; simp

/-- An element comes into a list. -/
theorem insert_isList (h : M.IsList s head tail (l₁ ++ l₂)) (he : e ∉ head :: (l₁ ++ l₂ ++ [tail]))
    (hb : (l₂ ++ [tail]).head? = some b) :
    ∃ s', listInsert M b e s = .ok s' ∧ M.IsList s' head tail (l₁ ++ e :: l₂) ∧
      M.Writes (· ∈ e :: head :: (l₁ ++ l₂ ++ [tail])) s s' := by
  obtain ⟨A, p, b', B, hA, hB, hchain⟩ := exists_around head tail l₁ l₂
  obtain rfl : b' = b := by
    rw [hB] at hb
    exact Option.some.inj hb
  have hold : head :: (l₁ ++ l₂ ++ [tail]) = A ++ p :: b' :: B := by simpa using hchain []
  have hnew : head :: (l₁ ++ e :: l₂ ++ [tail]) = A ++ p :: e :: b' :: B := by simpa using hchain [e]
  have hnodup : (A ++ p :: e :: b' :: B).Nodup := by
    have hn := h.nodup
    rw [← hnew]
    grind
  obtain ⟨s', hok, hlinked, hw, hN, hP⟩ := listInsert_spec (by rw [← hold]; exact h.linked) hnodup
  have hp : p ∈ head :: l₁ := by simp [hA]
  have hb' : b' ∈ l₂ ++ [tail] := by simp [hB]
  have hn := h.nodup
  refine ⟨s', hok, ⟨?_, ?_, ?_, ?_⟩, hw.mono fun x hx => ?_⟩
  · rw [hnew]
    exact hnodup
  · rw [hnew]
    exact hlinked
  · rw [hP head (by grind), h.prev_head]
  · rw [hN tail (by grind), h.next_tail]
  · grind

/-- An element leaves a list. -/
theorem remove_isList (h : M.IsList s head tail (l₁ ++ e :: l₂)) :
    ∃ q s', listRemove M e s = .ok (q, s') ∧ (l₂ ++ [tail]).head? = some q ∧ M.IsList s' head tail (l₁ ++ l₂) ∧
      M.Writes (· ∈ head :: (l₁ ++ l₂ ++ [tail])) s s' := by
  obtain ⟨A, p, q, B, hA, hB, hchain⟩ := exists_around head tail l₁ l₂
  have hnew : head :: (l₁ ++ l₂ ++ [tail]) = A ++ p :: q :: B := by simpa using hchain []
  have hold : head :: (l₁ ++ e :: l₂ ++ [tail]) = A ++ p :: e :: q :: B := by simpa using hchain [e]
  have hnodup : (A ++ p :: e :: q :: B).Nodup := by
    rw [← hold]
    exact h.nodup
  obtain ⟨s', hok, hlinked, hw, hN, hP⟩ := listRemove_spec (by rw [← hold]; exact h.linked) hnodup
  have hp : p ∈ head :: l₁ := by simp [hA]
  have hq : q ∈ l₂ ++ [tail] := by simp [hB]
  have hn := h.nodup
  refine ⟨q, s', hok, by rw [hB]; rfl, ⟨?_, ?_, ?_, ?_⟩, hw.mono fun x hx => ?_⟩
  · grind
  · rw [hnew]
    exact hlinked
  · rw [hP head (by grind), h.prev_head]
  · rw [hN tail (by grind), h.next_tail]
  · grind

/-- `list_init` makes an empty list. -/
theorem listInit_isList (h : head ≠ tail) (s : S) :
    M.IsList (listInit M head tail s) head tail [] ∧ M.Writes (· ∈ [head, tail]) s (listInit M head tail s) := by
  have hnext : ∀ y, M.next (listInit M head tail s) y =
      if y = tail then none else if y = head then some tail else M.next s y := fun y => by
    rw [listInit, M.next_setNext, M.next_setPrev, M.next_setNext, M.next_setPrev]
  have hprev : ∀ y, M.prev (listInit M head tail s) y =
      if y = tail then some head else if y = head then none else M.prev s y := fun y => by
    rw [listInit, M.prev_setNext, M.prev_setPrev, M.prev_setNext, M.prev_setPrev]
  refine ⟨⟨by simp [h], ?_, ?_, ?_⟩, ?_⟩
  · refine List.isChain_cons_cons.mpr ⟨⟨?_, ?_⟩, List.isChain_singleton _⟩
    · rw [hnext, if_neg h, if_pos rfl]
    · rw [hprev, if_pos rfl]
  · rw [hprev, if_neg h, if_pos rfl]
  · rw [hnext, if_pos rfl]
  · exact (((Writes.refl.setPrev (by simp) _).setNext (by simp) _).setPrev (by simp) _).setNext (by simp) _

theorem listBegin_eq (h : M.IsList s head tail l) (hb : (l ++ [tail]).head? = some b) : listBegin M head s = .ok b := by
  obtain ⟨b', B, hB⟩ : ∃ b B, l ++ [tail] = b :: B := List.exists_cons_of_ne_nil (by simp)
  obtain rfl : b' = b := by
    rw [hB] at hb
    exact Option.some.inj hb
  have hlinked := h.linked
  rw [hB] at hlinked
  rw [listBegin, (List.isChain_cons_cons.mp hlinked).1.1, deref_some]

/-- `list_empty`. -/
theorem listEmpty_eq (h : M.IsList s head tail l) : listEmpty M head tail s = .ok (decide (l = [])) := by
  cases l with
  | nil =>
    rw [listEmpty, listBegin_eq h rfl]
    simp [ok_bind, pure, Except.pure]
  | cons x l =>
    have hne : x ≠ tail := by
      have hnodup := h.nodup
      grind
    rw [listEmpty, listBegin_eq h rfl]
    simp [ok_bind, pure, Except.pure, hne]

/-- `list_push_front`. -/
theorem pushFront_isList (h : M.IsList s head tail l) (he : e ∉ head :: (l ++ [tail])) :
    ∃ s', listPushFront M head e s = .ok s' ∧ M.IsList s' head tail (e :: l) ∧
      M.Writes (· ∈ e :: head :: (l ++ [tail])) s s' := by
  obtain ⟨b, B, hB⟩ : ∃ b B, l ++ [tail] = b :: B := List.exists_cons_of_ne_nil (by simp)
  have hb : (l ++ [tail]).head? = some b := by
    rw [hB]
    rfl
  obtain ⟨s', hok, hlist⟩ := insert_isList (show M.IsList s head tail ([] ++ l) from h) he hb
  exact ⟨s', by rw [listPushFront, listBegin_eq h hb, ok_bind, hok], hlist⟩

/-- `list_push_back`. -/
theorem pushBack_isList (h : M.IsList s head tail l) (he : e ∉ head :: (l ++ [tail])) :
    ∃ s', listPushBack M tail e s = .ok s' ∧ M.IsList s' head tail (l ++ [e]) ∧
      M.Writes (· ∈ e :: head :: (l ++ [tail])) s s' := by
  rw [← List.append_nil l] at h he
  obtain ⟨s', hok, hlist, hw⟩ := insert_isList h he rfl
  rw [List.append_nil] at hw
  exact ⟨s', hok, hlist, hw⟩

/-- `list_pop_front`. -/
theorem popFront_isList (h : M.IsList s head tail (x :: l)) :
    ∃ s', listPopFront M head tail s = .ok (x, s') ∧ M.IsList s' head tail l ∧
      M.Writes (· ∈ head :: (l ++ [tail])) s s' := by
  obtain ⟨q, s', hok, -, hlist, hw⟩ := remove_isList (show M.IsList s head tail ([] ++ x :: l) from h)
  refine ⟨s', ?_, hlist, hw⟩
  rw [listPopFront, listFront, listEmpty_eq h, ok_bind, assert_bind (by simp), listBegin_eq h rfl, ok_bind, hok, ok_bind]
  rfl

end Clib
end Pintos

import Mathlib

/-!
# A linked list with a cursor

A list of elements that are known by their addresses, and a pointer into it that outlives the operations on
the list. Whoever removes an element first moves a pointer to it on to the next one.

* `begin`, `next` — the first element and the element after one; for an address that is not in the list
  there is no telling what `next` reads;
* `remove` — the element is removed, and the cursor moved on if it was there;
* `Points` — the cursor by its place in the list; `points_remove` and `points_removeAll` say where it is after
  a removal and after a loop of removals;
* `two_rounds` — who is taken if one goes round the list from a place on, and round again.
-/

namespace Pintos
namespace Cursor

variable {α : Type} [DecidableEq α]

/-- A pointer: null, to the sentinel behind the last element, or to an element. -/
inductive Ptr (α : Type)
  | null
  | tail
  | elem (a : α)
  deriving DecidableEq, Repr

/-- The first element, or the sentinel. -/
def begin : List α → Ptr α
  | [] => .tail
  | a :: _ => .elem a

/-- What comes after the element `a`. -/
def next (a : α) : List α → Option (Ptr α)
  | [] => none
  | b :: l => if b = a then some (begin l) else next a l

/-- The cursor after `a` has been removed. -/
def moveOn (l : List α) (a : α) (p : Ptr α) : Option (Ptr α) := if p = .elem a then next a l else some p

/-- Remove the elements of `todo` that satisfy `drop` one after the other. -/
def removeAll (drop : α → Bool) : List α → List α → Ptr α → Option (List α × Ptr α)
  | [], l, p => some (l, p)
  | a :: todo, l, p =>
    if drop a then (moveOn l a p).bind (removeAll drop todo (l.erase a)) else removeAll drop todo l p

/-- The pointer is null, or points to the sentinel or to an element of the list. -/
def Valid (l : List α) (p : Ptr α) : Prop := p = .null ∨ p = .tail ∨ ∃ a ∈ l, p = .elem a

/-- The pointer points to this place of the list, or to none. -/
def Points (l : List α) : Ptr α → Option ℕ → Prop
  | .null, o | .tail, o => o = none
  | .elem a, o => ∃ i, o = some i ∧ l[i]? = some a

/-- The place of the cursor after the element at `i` was removed from a list of `n`. -/
def placeAfter (o : Option ℕ) (i n : ℕ) : Option ℕ :=
  match o with
  | none => none
  | some h => if h < i then some h else if h = i then (if i + 1 < n then some i else none)
      else some (h - 1)

variable {l : List α} {p : Ptr α} {o : Option ℕ} {a : α} {i : ℕ}

omit [DecidableEq α] in
theorem Points.valid (h : Points l p o) : Valid l p := by
  cases p with
  | null => exact .inl rfl
  | tail => exact .inr (.inl rfl)
  | elem a =>
    obtain ⟨i, -, hi⟩ := h
    exact .inr (.inr ⟨a, List.mem_of_getElem? hi, rfl⟩)

omit [DecidableEq α] in
theorem points_begin (l : List α) : Points l (begin l) (if 0 < l.length then some 0 else none) := by
  cases l with
  | nil => rfl
  | cons a l => exact ⟨0, by simp, rfl⟩

omit [DecidableEq α] in
/-- The same elements further back. -/
theorem Points.append_left (h : Points l p o) (k : List α) :
    Points (k ++ l) p (o.map (k.length + ·)) := by
  cases p with
  | null | tail => simp_all [Points]
  | elem a =>
    obtain ⟨i, rfl, hi⟩ := h
    refine ⟨k.length + i, rfl, ?_⟩
    rw [List.getElem?_append_right (Nat.le_add_right ..), Nat.add_sub_cancel_left, hi]

omit [DecidableEq α] in
/-- Elements are added at the end. -/
theorem Points.append_right (h : Points l p o) (k : List α) : Points (l ++ k) p o := by
  cases p with
  | null | tail => exact h
  | elem a =>
    obtain ⟨i, rfl, hi⟩ := h
    obtain ⟨hlt, -⟩ := List.getElem?_eq_some_iff.mp hi
    exact ⟨i, rfl, by rw [List.getElem?_append_left hlt, hi]⟩

/-- What comes after the element at `i`. -/
theorem next_eq (hn : l.Nodup) (hi : l[i]? = some a) :
    ∃ p, next a l = some p ∧ Points l p (if i + 1 < l.length then some (i + 1) else none) := by
  induction l generalizing i with
  | nil => simp at hi
  | cons b l ih =>
    cases i with
    | zero =>
      obtain rfl : b = a := by simpa using hi
      refine ⟨begin l, if_pos rfl, ?_⟩
      have hb := (points_begin l).append_left [b]
      by_cases hl : 0 < l.length
      · simpa [hl] using hb
      · simpa [hl] using hb
    | succ i =>
      have hi' : l[i]? = some a := by simpa using hi
      have hne : b ≠ a := by
        rintro rfl
        exact (List.nodup_cons.mp hn).1 (List.mem_of_getElem? hi')
      obtain ⟨p, hp, hpt⟩ := ih (List.nodup_cons.mp hn).2 hi'
      refine ⟨p, (if_neg hne).trans hp, ?_⟩
      have hb := hpt.append_left [b]
      have hlen : i + 1 + 1 < (b :: l).length ↔ i + 1 < l.length := by simp
      by_cases hl : i + 1 < l.length
      · rw [if_pos (hlen.mpr hl)]
        simpa [hl, Nat.add_comm 1] using hb
      · rw [if_neg (mt hlen.mp hl)]
        simpa [hl] using hb

/-- An element does not come after itself. -/
theorem next_ne (hn : l.Nodup) (hi : l[i]? = some a) (hp : next a l = some p) : p ≠ .elem a := by
  obtain ⟨q, hq, hpt⟩ := next_eq hn hi
  obtain rfl : q = p := Option.some.inj (hq.symm.trans hp)
  rintro rfl
  obtain ⟨j, hj, ha⟩ := hpt
  have hij : i = j := (List.getElem?_inj (List.getElem?_eq_some_iff.mp hi).1 hn).mp (hi.trans ha.symm)
  by_cases hlast : i + 1 < l.length
  · rw [if_pos hlast] at hj
    cases hj
    omega
  · rw [if_neg hlast] at hj
    cases hj

theorem erase_eq_eraseIdx (hn : l.Nodup) (hi : l[i]? = some a) : l.erase a = l.eraseIdx i := by
  obtain ⟨hlt, rfl⟩ := List.getElem?_eq_some_iff.mp hi
  exact hn.erase_getElem i hlt

/-- **A removal** leaves the cursor at the element that it was at, or else at the next one. -/
theorem points_remove (hn : l.Nodup) (hi : l[i]? = some a) (h : Points l p o) :
    ∃ p', moveOn l a p = some p' ∧ Points (l.erase a) p' (placeAfter o i l.length) := by
  rw [erase_eq_eraseIdx hn hi]
  obtain ⟨hlt, -⟩ := List.getElem?_eq_some_iff.mp hi
  -- a pointer to an element that stays
  have hstay : ∀ b j, l[j]? = some b → j ≠ i →
      (l.eraseIdx i)[if j < i then j else j - 1]? = some b := by
    intro b j hj hne
    rw [List.getElem?_eraseIdx]
    by_cases hji : j < i
    · rw [if_pos hji, if_pos hji, hj]
    · rw [if_neg hji, if_neg (by omega), Nat.sub_add_cancel (by omega), hj]
  by_cases hp : p = .elem a
  · subst hp
    obtain ⟨j, rfl, hj⟩ := h
    obtain rfl : i = j := (List.getElem?_inj hlt hn).mp (hi.trans hj.symm)
    obtain ⟨q, hq, hpt⟩ := next_eq hn hi
    refine ⟨q, (if_pos rfl).trans hq, ?_⟩
    simp only [placeAfter, Nat.lt_irrefl, if_false, if_true]
    by_cases hlast : i + 1 < l.length
    · rw [if_pos hlast] at hpt ⊢
      cases q with
      | null | tail => cases hpt
      | elem b =>
        obtain ⟨k, hk, hb⟩ := hpt
        cases hk
        have := hstay b (i + 1) hb (by omega)
        rw [if_neg (by omega), Nat.add_sub_cancel] at this
        exact ⟨i, rfl, this⟩
    · rw [if_neg hlast] at hpt ⊢
      cases q with
      | null | tail => rfl
      | elem b =>
        obtain ⟨k, hk, -⟩ := hpt
        cases hk
  · refine ⟨p, if_neg hp, ?_⟩
    cases p with
    | null | tail =>
      cases h
      rfl
    | elem b =>
      obtain ⟨j, rfl, hj⟩ := h
      have hne : j ≠ i := by
        rintro rfl
        rw [hi] at hj
        exact hp (by rw [Option.some.inj hj])
      refine ⟨if j < i then j else j - 1, ?_, hstay b j hj hne⟩
      simp only [placeAfter, if_neg hne]
      split <;> rfl

/-- The place of the cursor after a loop that has kept `k` elements and comes to `todo`. -/
def placeAfterAll (drop : α → Bool) (k : ℕ) (todo : List α) (o : Option ℕ) : Option ℕ :=
  o.bind fun h =>
    let h' := if h ≤ k then h else k + (todo.take (h - k)).countP fun a => !drop a
    if h' < k + todo.countP (fun a => !drop a) then some h' else none

section Places

variable {drop : α → Bool} {k : ℕ} {todo : List α}

omit [DecidableEq α] in
theorem placeAfterAll_keep (hd : drop a = false) :
    placeAfterAll drop k (a :: todo) o = placeAfterAll drop (k + 1) todo o := by
  cases o with
  | none => rfl
  | some h =>
    simp only [placeAfterAll, Option.bind_some, List.countP_cons, hd]
    by_cases hle : h ≤ k
    · rw [if_pos hle, if_pos (by omega : h ≤ k + 1)]
      simp [Nat.add_comm 1, Nat.add_assoc]
    · obtain ⟨m, rfl⟩ : ∃ m, h = k + 1 + m := ⟨h - k - 1, by omega⟩
      rw [if_neg hle, show k + 1 + m - k = m + 1 by omega, List.take_succ_cons, List.countP_cons, hd,
        Nat.add_sub_cancel_left]
      cases m with
      | zero => simp [Nat.add_comm 1, Nat.add_assoc]
      | succ m =>
        rw [if_neg (by omega : ¬ k + 1 + (m + 1) ≤ k + 1)]
        simp [Nat.add_comm 1, Nat.add_assoc]

omit [DecidableEq α] in
theorem placeAfterAll_drop (hd : drop a = true) :
    placeAfterAll drop k (a :: todo) o =
      placeAfterAll drop k todo (placeAfter o k (k + (todo.length + 1))) := by
  cases o with
  | none => rfl
  | some h =>
    simp only [placeAfterAll, placeAfter, Option.bind_some, List.countP_cons, hd]
    by_cases hlt : h < k
    · simp [hlt, Nat.le_of_lt hlt]
    · by_cases heq : h = k
      · subst heq
        cases todo <;> simp
      · obtain ⟨m, rfl⟩ : ∃ m, h = k + 1 + m := ⟨h - k - 1, by omega⟩
        rw [if_neg hlt, if_neg heq, Option.bind_some, if_neg (by omega : ¬ k + 1 + m ≤ k),
          show k + 1 + m - k = m + 1 by omega, List.take_succ_cons, List.countP_cons, hd,
          show k + 1 + m - 1 = k + m by omega]
        cases m with
        | zero => simp
        | succ m =>
          rw [if_neg (by omega : ¬ k + (m + 1) ≤ k), Nat.add_sub_cancel_left]
          simp

end Places

/-- **A loop of removals.** -/
theorem points_removeAll (drop : α → Bool) (todo : List α) {kept : List α} (hn : (kept ++ todo).Nodup)
    (h : Points (kept ++ todo) p o) :
    ∃ p', removeAll drop todo (kept ++ todo) p = some (kept ++ todo.filter (fun a => !drop a), p') ∧
      Points (kept ++ todo.filter fun a => !drop a) p' (placeAfterAll drop kept.length todo o) := by
  induction todo generalizing kept p o with
  | nil =>
    refine ⟨p, by simp [removeAll], ?_⟩
    rw [List.append_nil] at h
    rw [List.filter_nil, List.append_nil]
    cases p with
    | null | tail => cases h; rfl
    | elem a =>
      obtain ⟨i, rfl, hi⟩ := h
      obtain ⟨hlt, -⟩ := List.getElem?_eq_some_iff.mp hi
      refine ⟨i, ?_, hi⟩
      simp [placeAfterAll, Nat.le_of_lt hlt, hlt]
  | cons a todo ih =>
    rw [removeAll]
    cases hd : drop a with
    | false =>
      have happ : kept ++ a :: todo = (kept ++ [a]) ++ todo := by simp
      rw [happ] at hn h ⊢
      obtain ⟨p', hp', hpt⟩ := ih hn h
      refine ⟨p', ?_, ?_⟩
      · rw [if_neg (by simp), hp']
        simp [hd]
      · rw [placeAfterAll_keep hd]
        simpa [hd] using hpt
    | true =>
      have hi : (kept ++ a :: todo)[kept.length]? = some a := by simp
      obtain ⟨q, hq, hpt⟩ := points_remove hn hi h
      have herase : (kept ++ a :: todo).erase a = kept ++ todo := by
        rw [erase_eq_eraseIdx hn hi, List.eraseIdx_append_of_length_le (Nat.le_refl _)]
        simp
      rw [herase] at hpt
      have hn' : (kept ++ todo).Nodup := by
        rw [← herase]
        exact hn.erase a
      obtain ⟨p', hp', hpt'⟩ := ih hn' hpt
      refine ⟨p', ?_, ?_⟩
      · rw [if_pos rfl, hq, herase, Option.bind_some, hp']
        simp [hd]
      · rw [placeAfterAll_drop hd]
        simpa [hd] using hpt'

/-! ### Going round -/

section Rounds

variable {α : Type} {l : List α} {p q : α → Bool}

/-- A list up to the first element with a property. -/
theorem exists_first (h : ∃ a ∈ l, p a = true) :
    ∃ v post, l = l.takeWhile (!p ·) ++ v :: post ∧ l.find? p = some v ∧ p v = true := by
  induction l with
  | nil => simp at h
  | cons a l ih =>
    cases ha : p a with
    | true => exact ⟨a, l, by simp [ha], by simp [ha], ha⟩
    | false =>
      have hl : ∃ b ∈ l, p b = true := by
        obtain ⟨b, hb, hpb⟩ := h
        rcases List.mem_cons.mp hb with rfl | hb
        · rw [ha] at hpb
          cases hpb
        · exact ⟨b, hb, hpb⟩
      obtain ⟨v, post, hsplit, hfind, hv⟩ := ih hl
      refine ⟨v, post, ?_, by rw [List.find?_cons, ha, hfind], hv⟩
      rw [List.takeWhile_cons_of_pos (by simp [ha]), List.cons_append, ← hsplit]

/-- An element of a list without repetitions comes up for the first time. -/
theorem not_mem_take_of_getElem? {a : α} {k : ℕ} (hn : l.Nodup) (hk : l[k]? = some a) : a ∉ l.take k := by
  intro hmem
  obtain ⟨j, hj⟩ := List.mem_iff_getElem?.mp hmem
  have hlt : j < k := by
    have hlen := (List.getElem?_eq_some_iff.mp hj).1
    rw [List.length_take] at hlen
    omega
  rw [List.getElem?_take_of_lt hlt] at hj
  have hjl := (List.getElem?_eq_some_iff.mp hj).1
  have := (List.getElem?_inj hjl hn).mp (hj.trans hk.symm)
  omega

/-- **Two rounds.** `p` are the elements that can be taken and `q` those that get a second chance in the first
round; `w` are the elements before the one that is taken. -/
theorem two_rounds {w : List α} (hn : l.Nodup) (hex : ∃ a ∈ l, p a = true)
    (hw : w = if l.any (fun a => p a && !q a) then l.takeWhile (fun a => !(p a && !q a))
      else l ++ l.takeWhile (!p ·)) :
    ∃ v, (l.find? fun a => p a && !q a).or (l.find? p) = some v ∧ p v = true ∧
      (l ++ l)[w.length]? = some v ∧ w = (l ++ l).take w.length ∧ w.length < 2 * l.length ∧
      (∀ k a, k < w.length → (l ++ l)[k]? = some a → p a = true → a ∉ (l ++ l).take k ∧ q a = true) ∧
      (q v = true → v ∈ w) := by
  by_cases hany : l.any (fun a => p a && !q a) = true
  · -- the first round is enough
    rw [if_pos hany] at hw
    obtain ⟨v, post, hsplit, hfind, hv⟩ := exists_first (List.any_eq_true.mp hany)
    rw [← hw] at hsplit
    simp only [Bool.and_eq_true, Bool.not_eq_true'] at hv
    have hlen : w.length < l.length := by
      rw [hsplit, List.length_append, List.length_cons]
      omega
    have hget : l[w.length]? = some v := by
      conv_lhs => rw [hsplit]
      simp
    have htake : l.take w.length = w := by
      conv_lhs => rw [hsplit]
      simp
    refine ⟨v, by rw [hfind]; rfl, hv.1, ?_, ?_, by omega, ?_, ?_⟩
    · rw [List.getElem?_append_left hlen, hget]
    · rw [List.take_append_of_le_length (by omega), htake]
    · intro k a hk ha hp
      rw [List.getElem?_append_left (by omega)] at ha
      rw [List.take_append_of_le_length (by omega)]
      refine ⟨not_mem_take_of_getElem? hn ha, ?_⟩
      have hmem : a ∈ w := by
        rw [← htake]
        exact List.mem_of_getElem? ((List.getElem?_take_of_lt hk).trans ha)
      rw [hw] at hmem
      have := List.mem_takeWhile_imp hmem
      simpa [hp] using this
    · intro hq
      rw [hv.2] at hq
      cases hq
  · -- all of the first round gets a second chance
    rw [if_neg hany] at hw
    have hall : ∀ a ∈ l, p a = true → q a = true := by
      intro a ha hp
      by_contra hq
      exact hany (List.any_eq_true.mpr ⟨a, ha, by simp [hp, hq]⟩)
    have hnone : (l.find? fun a => p a && !q a) = none := by
      rw [List.find?_eq_none]
      intro a ha hr
      simp only [Bool.and_eq_true, Bool.not_eq_true'] at hr
      rw [hall a ha hr.1] at hr
      cases hr.2
    obtain ⟨v, post, hsplit, hfind, hv⟩ := exists_first hex
    have hlen : (l.takeWhile (!p ·)).length < l.length := by
      conv_rhs => rw [hsplit]
      rw [List.length_append, List.length_cons]
      omega
    have hget : l[(l.takeWhile (!p ·)).length]? = some v := by
      generalize l.takeWhile (!p ·) = w' at hsplit
      rw [hsplit]
      simp
    have htake : l.take (l.takeWhile (!p ·)).length = l.takeWhile (!p ·) := by
      generalize l.takeWhile (!p ·) = w' at hsplit
      rw [hsplit]
      simp
    have hwlen : w.length = l.length + (l.takeWhile (!p ·)).length := by
      rw [hw, List.length_append]
    refine ⟨v, by rw [hnone, hfind]; rfl, hv, ?_, ?_, by omega, ?_, ?_⟩
    · rw [hwlen, List.getElem?_append_right (by omega), Nat.add_sub_cancel_left, hget]
    · rw [hwlen, List.take_length_add_append, htake, hw]
    · intro k a hk ha hp
      by_cases hkl : k < l.length
      · rw [List.getElem?_append_left hkl] at ha
        rw [List.take_append_of_le_length (by omega)]
        exact ⟨not_mem_take_of_getElem? hn ha, hall a (List.mem_of_getElem? ha) hp⟩
      · rw [List.getElem?_append_right (by omega)] at ha
        have hmem : a ∈ l.takeWhile (!p ·) := by
          rw [← htake]
          exact List.mem_of_getElem? ((List.getElem?_take_of_lt (by omega)).trans ha)
        have := List.mem_takeWhile_imp hmem
        simp [hp] at this
    · intro _
      rw [hw]
      exact List.mem_append_left _ (List.mem_of_find?_eq_some hfind)

/-- Two rounds from a place on. -/
theorem getElem?_rounds {h k : ℕ} (hk : k < 2 * l.length) :
    (l.rotate h ++ l.rotate h)[k]? = l[(h + k) % l.length]? := by
  by_cases hkl : k < l.length
  · rw [List.getElem?_append_left (by simpa using hkl), List.getElem?_rotate hkl, Nat.add_comm]
  · rw [List.getElem?_append_right (by simpa using Nat.le_of_not_lt hkl), List.length_rotate,
      List.getElem?_rotate (by omega), show k - l.length + h = h + k - l.length by omega,
      ← Nat.mod_eq_sub_mod (by omega)]

end Rounds

end Cursor
end Pintos

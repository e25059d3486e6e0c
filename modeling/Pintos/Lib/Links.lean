import Mathlib

/-!
# Doubly linked nodes

A store holds, for every node, a pointer to the node in front of it and one to the node behind it. Lists are read off
the store: a sequence of nodes is linked if each one and the next point to each other.

* `LinkStore` — what can be read and written, with the laws of reading after writing; `pointers` is the plainest one;
* `Linked`, `IsList` — a sequence of nodes, and a list between two sentinels;
* `Linked.insert`, `Linked.remove`, `Linked.moveUp` — what writing to the nodes around a place does to a sequence;
* `Writes` — the writes that lead from a store to another all go to certain nodes.
-/

namespace Pintos

/-- The pointers of the nodes `α` in the stores `S`. -/
structure LinkStore (S α : Type) [DecidableEq α] where
  prev : S → α → Option α
  next : S → α → Option α
  setPrev : S → α → Option α → S
  setNext : S → α → Option α → S
  prev_setPrev : ∀ s x v y, prev (setPrev s x v) y = if y = x then v else prev s y
  next_setPrev : ∀ s x v y, next (setPrev s x v) y = next s y
  prev_setNext : ∀ s x v y, prev (setNext s x v) y = prev s y
  next_setNext : ∀ s x v y, next (setNext s x v) y = if y = x then v else next s y

namespace LinkStore

variable {S α : Type} [DecidableEq α] (M : LinkStore S α)

/-- The store that is nothing but the pointers of its nodes. -/
def pointers (α : Type) [DecidableEq α] : LinkStore (α → Option α × Option α) α where
  prev s x := (s x).1
  next s x := (s x).2
  setPrev s x v := fun y => if y = x then (v, (s y).2) else s y
  setNext s x v := fun y => if y = x then ((s y).1, v) else s y
  prev_setPrev s x v y := by
    dsimp only
    split <;> rfl
  next_setPrev s x v y := by
    dsimp only
    split <;> rfl
  prev_setNext s x v y := by
    dsimp only
    split <;> rfl
  next_setNext s x v y := by
    dsimp only
    split <;> rfl

/-- The two nodes point to each other. -/
def Follows (s : S) (x y : α) : Prop := M.next s x = some y ∧ M.prev s y = some x

/-- The nodes are linked in this order. -/
def Linked (s : S) (c : List α) : Prop := c.IsChain (M.Follows s)

/-- The list `l` between the sentinels `head` and `tail`. -/
structure IsList (s : S) (head tail : α) (l : List α) : Prop where
  nodup : (head :: (l ++ [tail])).Nodup
  linked : M.Linked s (head :: (l ++ [tail]))
  prev_head : M.prev s head = none
  next_tail : M.next s tail = none

/-- Some writes to nodes that satisfy `T`. -/
inductive Writes (T : α → Prop) (s : S) : S → Prop
  | refl : Writes T s s
  | setPrev {s' : S} {x : α} (h : Writes T s s') (hx : T x) (v : Option α) : Writes T s (M.setPrev s' x v)
  | setNext {s' : S} {x : α} (h : Writes T s s') (hx : T x) (v : Option α) : Writes T s (M.setNext s' x v)

variable {M} {s s' s'' : S} {T T' : α → Prop}

/-! ### Writes -/

theorem Writes.mono (h : M.Writes T s s') (hT : ∀ x, T x → T' x) : M.Writes T' s s' := by
  induction h with
  | refl => exact .refl
  | setPrev _ hx v ih => exact .setPrev ih (hT _ hx) v
  | setNext _ hx v ih => exact .setNext ih (hT _ hx) v

theorem Writes.trans (h : M.Writes T s s') (h' : M.Writes T s' s'') : M.Writes T s s'' := by
  induction h' with
  | refl => exact h
  | setPrev _ hx v ih => exact .setPrev ih hx v
  | setNext _ hx v ih => exact .setNext ih hx v

/-- The other nodes keep their pointers. -/
theorem Writes.keep (h : M.Writes T s s') {y : α} (hy : ¬ T y) :
    M.prev s' y = M.prev s y ∧ M.next s' y = M.next s y := by
  induction h with
  | refl => exact ⟨rfl, rfl⟩
  | setPrev _ hx v ih =>
    rw [M.prev_setPrev, M.next_setPrev, if_neg (by rintro rfl; exact hy hx)]
    exact ih
  | setNext _ hx v ih =>
    rw [M.prev_setNext, M.next_setNext, if_neg (by rintro rfl; exact hy hx)]
    exact ih

/-! ### Sequences -/

variable {A B C : List α} {x y p q e b t u : α}

theorem linked_append_cons_cons :
    M.Linked s (A ++ x :: y :: B) ↔ M.Linked s (A ++ [x]) ∧ M.Follows s x y ∧ M.Linked s (y :: B) :=
  List.isChain_append_cons_cons

/-- A node of a linked sequence and the one behind it. -/
theorem Linked.follows (h : M.Linked s (A ++ x :: C)) (hy : C.head? = some y) : M.Follows s x y := by
  obtain ⟨C, rfl⟩ : ∃ C', C = y :: C' := ⟨C.tail, (List.cons_head?_tail hy).symm⟩
  exact (linked_append_cons_cons.mp h).2.1

/-- Nodes that keep their pointers to each other stay linked. -/
theorem Linked.congr (h : M.Linked s C) (hnext : ∀ x ∈ C.dropLast, M.next s' x = M.next s x)
    (hprev : ∀ y ∈ C.tail, M.prev s' y = M.prev s y) : M.Linked s' C := by
  induction C with
  | nil => exact List.isChain_nil
  | cons x C ih =>
    cases C with
    | nil => exact List.isChain_singleton x
    | cons y C =>
      obtain ⟨hxy, hC⟩ := List.isChain_cons_cons.mp h
      refine List.isChain_cons_cons.mpr ⟨⟨?_, ?_⟩, ih hC (fun z hz => hnext z ?_) fun z hz => hprev z ?_⟩
      · rw [hnext x (by simp), hxy.1]
      · rw [hprev y (by simp), hxy.2]
      · exact List.mem_cons_of_mem x hz
      · exact List.mem_cons_of_mem y hz

/-- The same, if all that is written are the next pointers of `N` and the previous pointers of `P`. -/
theorem Linked.frame {N P : List α} (h : M.Linked s C) (hN : ∀ y, y ∉ N → M.next s' y = M.next s y)
    (hP : ∀ y, y ∉ P → M.prev s' y = M.prev s y) (hCN : ∀ x ∈ C.dropLast, x ∉ N) (hCP : ∀ y ∈ C.tail, y ∉ P) :
    M.Linked s' C :=
  h.congr (fun x hx => hN x (hCN x hx)) fun y hy => hP y (hCP y hy)

/-- A node comes between two others. -/
theorem Linked.insert (h : M.Linked s (A ++ p :: b :: B)) (hnodup : (A ++ p :: e :: b :: B).Nodup)
    (hpe : M.Follows s' p e) (heb : M.Follows s' e b) (hN : ∀ y, y ∉ [p, e] → M.next s' y = M.next s y)
    (hP : ∀ y, y ∉ [e, b] → M.prev s' y = M.prev s y) : M.Linked s' (A ++ p :: e :: b :: B) := by
  obtain ⟨hA, -, hB⟩ := linked_append_cons_cons.mp h
  refine linked_append_cons_cons.mpr ⟨?_, hpe, List.isChain_cons_cons.mpr ⟨heb, ?_⟩⟩
  · refine hA.frame hN hP (fun x hx => ?_) fun y hy => ?_
    · rw [List.dropLast_concat] at hx
      grind
    · have hy : y ∈ A ++ [p] := List.mem_of_mem_tail hy
      grind
  · refine hB.frame hN hP (fun x hx => ?_) fun y hy => ?_
    · have hx : x ∈ b :: B := List.dropLast_subset _ hx
      grind
    · rw [List.tail_cons] at hy
      grind

/-- A node between two others leaves. -/
theorem Linked.remove (h : M.Linked s (A ++ p :: e :: q :: B)) (hnodup : (A ++ p :: e :: q :: B).Nodup)
    (hpq : M.Follows s' p q) (hN : ∀ y, y ∉ [p] → M.next s' y = M.next s y)
    (hP : ∀ y, y ∉ [q] → M.prev s' y = M.prev s y) : M.Linked s' (A ++ p :: q :: B) := by
  obtain ⟨hA, -, hB⟩ := linked_append_cons_cons.mp h
  obtain ⟨-, hB⟩ := List.isChain_cons_cons.mp hB
  refine linked_append_cons_cons.mpr ⟨?_, hpq, ?_⟩
  · refine hA.frame hN hP (fun x hx => ?_) fun y hy => ?_
    · rw [List.dropLast_concat] at hx
      grind
    · have hy : y ∈ A ++ [p] := List.mem_of_mem_tail hy
      grind
  · refine Linked.frame hB hN hP (fun x hx => ?_) fun y hy => ?_
    · have hx : x ∈ q :: B := List.dropLast_subset _ hx
      grind
    · rw [List.tail_cons] at hy
      grind

/-- A node moves to the front of a part of the sequence, from `b` to `u`, that it followed. -/
theorem Linked.moveUp {part Y Z : List α} (hb : part = b :: Y) (hu : part = Z ++ [u])
    (h : M.Linked s (A ++ p :: (part ++ e :: t :: B))) (hnodup : (A ++ p :: (part ++ e :: t :: B)).Nodup)
    (hpe : M.Follows s' p e) (heb : M.Follows s' e b) (hut : M.Follows s' u t)
    (hN : ∀ y, y ∉ [p, e, u] → M.next s' y = M.next s y) (hP : ∀ y, y ∉ [e, b, t] → M.prev s' y = M.prev s y) :
    M.Linked s' (A ++ p :: e :: (part ++ t :: B)) := by
  have hbpart : b ∈ part := by simp [hb]
  have hupart : u ∈ part := by simp [hu]
  have hA : M.Linked s (A ++ [p]) := by
    rw [hb] at h
    exact (linked_append_cons_cons.mp h).1
  have hrest : M.Linked s (part ++ e :: t :: B) := by
    rw [hb] at h ⊢
    exact (linked_append_cons_cons.mp h).2.2
  obtain ⟨hpart, hB, -⟩ := List.isChain_append.mp hrest
  obtain ⟨-, hB⟩ := List.isChain_cons_cons.mp hB
  have hlast : part.getLast? = some u := by rw [hu, List.getLast?_concat]
  refine linked_append_cons_cons.mpr ⟨?_, hpe, ?_⟩
  · refine hA.frame hN hP (fun x hx => ?_) fun y hy => ?_
    · rw [List.dropLast_concat] at hx
      grind
    · have hy : y ∈ A ++ [p] := List.mem_of_mem_tail hy
      grind
  · have hpart' : M.Linked s' part := by
      refine Linked.frame hpart hN hP (fun x hx => ?_) fun y hy => ?_
      · rw [hu, List.dropLast_concat] at hx
        grind
      · rw [hb, List.tail_cons] at hy
        grind
    have hB' : M.Linked s' (t :: B) := by
      refine Linked.frame hB hN hP (fun x hx => ?_) fun y hy => ?_
      · have hx : x ∈ t :: B := List.dropLast_subset _ hx
        grind
      · rw [List.tail_cons] at hy
        grind
    have hjoin : M.Linked s' (part ++ t :: B) := by
      refine List.isChain_append.mpr ⟨hpart', hB', fun x hx y hy => ?_⟩
      rw [hlast] at hx
      cases hx
      cases hy
      exact hut
    rw [hb] at hjoin ⊢
    exact List.isChain_cons_cons.mpr ⟨heb, hjoin⟩

end LinkStore
end Pintos

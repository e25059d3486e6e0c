/-!
# Actions that change a state and may fail

Rules for `StateT σ (Except ε)`. A postcondition is about the result and the state after it.

* `Ensures x s Q` — from the state `s`, `x` does not fail, and `Q` holds afterwards;
* `Allows x s Q` — from the state `s`, if `x` does not fail, then `Q` holds afterwards.

Both have a rule for each way in which a `do` block is put together, and one for loops over a list;
`exists_turn_of_forM` finds the turn that such a loop has made for an element.
-/

namespace Pintos
namespace Action

variable {σ ε α β : Type} {s : σ}

/-- Total correctness. -/
def Ensures (x : StateT σ (Except ε) α) (s : σ) (Q : α → σ → Prop) : Prop :=
  ∃ a s', x s = .ok (a, s') ∧ Q a s'

/-- Partial correctness. -/
def Allows (x : StateT σ (Except ε) α) (s : σ) (Q : α → σ → Prop) : Prop :=
  ∀ a s', x s = .ok (a, s') → Q a s'

section Equations

variable {x : StateT σ (Except ε) α} {f : α → StateT σ (Except ε) β}

/-- A step that does not fail. -/
theorem bind_of_ok {a : α} {s' : σ} (h : x s = .ok (a, s')) : (x >>= f) s = f a s' := by
  simp only [bind, StateT.bind, h, Except.bind]

theorem bind_of_error {e : ε} (h : x s = .error e) : (x >>= f) s = .error e := by
  simp only [bind, StateT.bind, h, Except.bind]

/-- The last step of two that do not fail. -/
theorem bind_eq_ok {r : β × σ} :
    (x >>= f) s = .ok r ↔ ∃ a s', x s = .ok (a, s') ∧ f a s' = .ok r := by
  match h : x s with
  | .error e => simp [bind_of_error h]
  | .ok (a, s') =>
    rw [bind_of_ok h]
    refine ⟨fun hf => ⟨a, s', rfl, hf⟩, ?_⟩
    rintro ⟨b, s'', heq, hf⟩
    cases heq
    exact hf

@[simp] theorem get_apply : (get : StateT σ (Except ε) σ) s = .ok (s, s) := rfl

@[simp] theorem set_apply (s' : σ) : (set s' : StateT σ (Except ε) PUnit) s = .ok (⟨⟩, s') := rfl

@[simp] theorem modify_apply (g : σ → σ) :
    (modify g : StateT σ (Except ε) PUnit) s = .ok (⟨⟩, g s) := rfl

/-- A step that does not change the state. -/
theorem lift_apply {y : Except ε α} {a : α} (h : y = .ok a) :
    (liftM y : StateT σ (Except ε) α) s = .ok (a, s) := by
  subst h
  rfl

end Equations

/-! ### Total correctness -/

namespace Ensures

variable {x : StateT σ (Except ε) α} {f : α → StateT σ (Except ε) β} {P Q : α → σ → Prop}
  {R : β → σ → Prop}

theorem of_eq {a : α} {s' : σ} (h : x s = .ok (a, s')) (hQ : Q a s') : Ensures x s Q := ⟨a, s', h, hQ⟩

theorem bind (h : Ensures x s Q) (hf : ∀ a s', Q a s' → Ensures (f a) s' R) : Ensures (x >>= f) s R := by
  obtain ⟨a, s', heq, hQ⟩ := h
  obtain ⟨b, s'', heq', hR⟩ := hf a s' hQ
  exact ⟨b, s'', (bind_of_ok heq).trans heq', hR⟩

theorem pure {a : α} (h : Q a s) : Ensures (pure a : StateT σ (Except ε) α) s Q := ⟨a, s, rfl, h⟩

end Ensures

/-! ### Partial correctness -/

namespace Allows

variable {x : StateT σ (Except ε) α} {f : α → StateT σ (Except ε) β} {P Q : α → σ → Prop}
  {R : β → σ → Prop}

theorem mono (h : Allows x s P) (hPQ : ∀ a s', P a s' → Q a s') : Allows x s Q :=
  fun a s' heq => hPQ a s' (h a s' heq)

theorem bind (h : Allows x s Q) (hf : ∀ a s', Q a s' → Allows (f a) s' R) : Allows (x >>= f) s R := by
  intro b s'' heq
  obtain ⟨a, s', hx, hf'⟩ := bind_eq_ok.mp heq
  exact hf a s' (h a s' hx) b s'' hf'

/-- A step of which it is known what it does. -/
theorem bind_eq {a : α} {s' : σ} (h : x s = .ok (a, s')) (hf : Allows (f a) s' R) :
    Allows (x >>= f) s R := by
  intro b s'' heq
  exact hf b s'' ((bind_of_ok h).symm.trans heq)

theorem pure {a : α} (h : Q a s) : Allows (pure a : StateT σ (Except ε) α) s Q := by
  intro b s' heq
  cases heq
  exact h

theorem throw (e : ε) : Allows (throw e : StateT σ (Except ε) α) s Q := by
  intro b s' heq
  cases heq

theorem get_bind {g : σ → StateT σ (Except ε) β} (h : Allows (g s) s R) : Allows (get >>= g) s R :=
  bind_eq rfl h

theorem set_bind {s' : σ} {g : PUnit → StateT σ (Except ε) β} (h : Allows (g ⟨⟩) s' R) :
    Allows (set s' >>= g) s R :=
  bind_eq rfl h

theorem modify_bind {g : σ → σ} {f : PUnit → StateT σ (Except ε) β} (h : Allows (f ⟨⟩) (g s) R) :
    Allows (modify g >>= f) s R :=
  bind_eq rfl h

theorem of_ensures (h : Ensures x s Q) : Allows x s Q := by
  obtain ⟨a, s', heq, hQ⟩ := h
  intro b s'' heq'
  cases heq.symm.trans heq'
  exact hQ

end Allows
/-! ### Loops -/

section Loops

variable {ι : Type} {f : ι → StateT σ (Except ε) PUnit} {l : List ι}

theorem Ensures.forM {I : σ → Prop} (hf : ∀ i ∈ l, ∀ s, I s → Ensures (f i) s fun _ s' => I s') (h : I s) :
    Ensures (l.forM f) s fun _ s' => I s' := by
  induction l generalizing s with
  | nil => exact .pure h
  | cons i l ih =>
    refine .bind (hf i (List.mem_cons_self ..) s h) fun _ s' h' => ?_
    exact ih (fun j hj => hf j (List.mem_cons_of_mem _ hj)) h'

theorem Allows.forM {I : σ → Prop} (hf : ∀ i ∈ l, ∀ s, I s → Allows (f i) s fun _ s' => I s') (h : I s) :
    Allows (l.forM f) s fun _ s' => I s' := by
  induction l generalizing s with
  | nil => exact .pure h
  | cons i l ih =>
    refine .bind (hf i (List.mem_cons_self ..) s h) fun _ s' h' => ?_
    exact ih (fun j hj => hf j (List.mem_cons_of_mem _ hj)) h'

/-- A loop that ends has made each of its turns. What every turn keeps holds up to the turn and from it to the end. -/
theorem exists_turn_of_forM {R : σ → σ → Prop} (hrefl : ∀ s, R s s) (htrans : ∀ s t u, R s t → R t u → R s u)
    (hf : ∀ i ∈ l, ∀ s, Allows (f i) s fun _ s' => R s s') {s' : σ} (hok : l.forM f s = .ok (⟨⟩, s')) {i : ι}
    (hi : i ∈ l) : ∃ t t', R s t ∧ f i t = .ok (⟨⟩, t') ∧ R t' s' := by
  induction l generalizing s with
  | nil => cases hi
  | cons j l ih =>
    have hl : ∀ i ∈ l, ∀ s, Allows (f i) s fun _ s' => R s s' := fun i hi => hf i (List.mem_cons_of_mem _ hi)
    obtain ⟨⟨⟩, s₁, hj, hrest⟩ := bind_eq_ok.mp hok
    rcases List.mem_cons.mp hi with rfl | hi
    · exact ⟨s, s₁, hrefl s, hj, Allows.forM (I := R s₁)
        (fun k hk t ht => (hl k hk t).mono fun _ t' h' => htrans _ _ _ ht h') (hrefl s₁) _ _ hrest⟩
    · obtain ⟨t, t', ht, hturn, ht'⟩ := ih hl hrest hi
      exact ⟨t, t', htrans _ _ _ (hf j (List.mem_cons_self ..) s _ _ hj) ht, hturn, ht'⟩

end Loops

end Action
end Pintos

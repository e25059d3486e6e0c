import Pintos.Systems.Simulation

/-!
# Flat memory

Memory as a program sees it: blocks of bytes that come with a first content, can be read and written,
and go away. `Flat.machine` is the abstract machine, and `Flat.last` says what a list of labels
leaves in a byte. In every trace a read returns this (`Flat.read_last`).
-/

namespace Pintos
namespace Flat

variable {α β : Type} [DecidableEq α]

/-- What is seen of a memory with blocks named by `α` and bytes in `β`. -/
inductive Label (α β : Type)
  | read (x : α) (b : ℕ) (v : β)
  | write (x : α) (b : ℕ) (v : β)
  | create (x : α) (content : ℕ → β)
  | destroy (x : α)
  | internal

abbrev Mem (α β : Type) := α → Option (ℕ → β)

inductive Step : Mem α β → Label α β → Mem α β → Prop
  | read {m : Mem α β} {x : α} {c : ℕ → β} (b : ℕ) (hx : m x = some c) : Step m (.read x b (c b)) m
  | write {m : Mem α β} {x : α} {c : ℕ → β} (b : ℕ) (v : β) (hx : m x = some c) :
      Step m (.write x b v) (Function.update m x (some (Function.update c b v)))
  | create {m : Mem α β} {x : α} (c : ℕ → β) (hx : m x = none) :
      Step m (.create x c) (Function.update m x (some c))
  | destroy {m : Mem α β} {x : α} (hx : m x ≠ none) : Step m (.destroy x) (Function.update m x none)
  | internal {m : Mem α β} : Step m .internal m

/-- The abstract machine. It starts without blocks. -/
def machine (α β : Type) [DecidableEq α] : Spec (Mem α β) (Label α β) where
  init m := m = fun _ => none
  step := Step

/-- What a step leaves in the byte `b` of the block `x`. -/
def Label.leaves (x : α) (b : ℕ) (old : Option β) : Label α β → Option β
  | .write y d v => if y = x ∧ d = b then some v else old
  | .create y c => if y = x then some (c b) else old
  | .destroy y => if y = x then none else old
  | _ => old

/-- What was last stored in the byte, or else what the block was created with. -/
def last (x : α) (b : ℕ) (es : List (Label α β)) : Option β :=
  es.foldl (fun old e => e.leaves x b old) none

theorem Step.leaves {m m' : Mem α β} {e : Label α β} (h : Step m e m') (x : α) (b : ℕ) :
    (m' x).map (fun c => c b) = e.leaves x b ((m x).map fun c => c b) := by
  cases h with
  | read d hx | internal => rfl
  | write d v hx =>
    next y c =>
    by_cases hy : y = x
    · subst hy
      by_cases hd : d = b
      · simp [Label.leaves, hd]
      · simp [Label.leaves, hd, hx, Function.update_of_ne (Ne.symm hd)]
    · simp [Label.leaves, hy, Function.update_of_ne (Ne.symm hy)]
  | create c hx | destroy hx =>
    next y =>
    by_cases hy : y = x
    · subst hy
      simp [Label.leaves]
    · simp [Label.leaves, hy, Function.update_of_ne (Ne.symm hy)]

/-- The memory after a trace. -/
theorem traces_last {es : List (Label α β)} {m : Mem α β} (h : (machine α β).Traces es m) (x : α)
    (b : ℕ) : (m x).map (fun c => c b) = last x b es := by
  induction h with
  | init h =>
    cases h
    rfl
  | step _ hs ih =>
    rw [Step.leaves hs x b, ih, last, last, List.foldl_append]
    rfl

/-- A trace goes through every state on its way. -/
theorem traces_of_prefix {es es' : List (Label α β)} {m : Mem α β}
    (h : (machine α β).Traces es m) (hp : es' <+: es) : ∃ m', (machine α β).Traces es' m' := by
  induction h with
  | init h =>
    obtain rfl := List.prefix_nil.1 hp
    exact ⟨_, .init h⟩
  | step ht hs ih =>
    obtain rfl | hp' := List.prefix_concat_iff.1 hp
    · exact ⟨_, .step ht hs⟩
    · exact ih hp'

/-- **A read returns what was last stored**, or else what the block was created with. -/
theorem read_last {es es' : List (Label α β)} {m : Mem α β} {x : α} {b : ℕ} {v : β}
    (h : (machine α β).Traces es m) (hp : es' ++ [.read x b v] <+: es) : last x b es' = some v := by
  obtain ⟨m', hm'⟩ := traces_of_prefix h hp
  generalize hes : es' ++ [Label.read x b v] = es'' at hm'
  cases hm' with
  | init _ => simp at hes
  | step ht hs =>
    obtain ⟨rfl, he⟩ := List.append_inj' hes rfl
    obtain rfl := List.singleton_inj.1 he
    rw [← traces_last ht]
    cases hs with
    | read _ hx => rw [hx]; rfl

end Flat
end Pintos

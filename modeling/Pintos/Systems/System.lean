import Mathlib

/-!
# Transition systems with a partial step function

A system is a set of initial states and a computable partial step function: `step s a = none` says
that the action `a` is not enabled in `s`. The kernel models of this project are such systems, one
action being what a thread, an interrupt handler or the hardware does without being interleaved.

* `ReachableVia ok` — the states reached by runs all of whose steps satisfy `ok`. The unrestricted
  notion is `Reachable`.
* `ReachableVia.invariant` — the induction that turns a step lemma into a run lemma.
* `run` — the executable counterpart; `reachableVia_of_runWith` transports a computed run to
  `ReachableVia`, and `exists_of_runWith` evaluates one.
-/

namespace Pintos

/-- A transition system whose steps are computed by a partial function. -/
structure System (State Act : Type) where
  /-- The initial states. -/
  init : State → Prop
  step : State → Act → Option State

namespace System

variable {State Act : Type} (sys : System State Act)

/-- The states reached from an initial state by steps that all satisfy `ok`. -/
inductive ReachableVia (ok : State → Act → Prop) : State → Prop
  | init {s : State} (h : sys.init s) : ReachableVia ok s
  | step {s s' : State} {a : Act} (h : ReachableVia ok s) (hok : ok s a)
      (hs : sys.step s a = some s') : ReachableVia ok s'

/-- The states reached by any run. -/
def Reachable (s : State) : Prop := sys.ReachableVia (fun _ _ => True) s

/-- `s'` is reached from `s` by steps that all satisfy `ok`. -/
inductive Steps (ok : State → Act → Prop) (s : State) : State → Prop
  | refl : Steps ok s s
  | tail {x s' : State} {a : Act} (h : Steps ok s x) (hok : ok x a)
      (hs : sys.step x a = some s') : Steps ok s s'

/-- Run a list of actions, checking `okb` in front of each of them. -/
def runWith (okb : State → Act → Bool) : State → List Act → Option State
  | s, [] => some s
  | s, a :: as => if okb s a then (sys.step s a).bind fun s' => runWith okb s' as else none

/-- Run a list of actions. -/
def run : State → List Act → Option State := sys.runWith fun _ _ => true

variable {sys} {ok : State → Act → Prop}

/-- **Invariant rule.** A predicate that holds initially and is kept by every admitted step holds
in every state an admitted run reaches. -/
theorem ReachableVia.invariant {P : State → Prop} (h0 : ∀ s, sys.init s → P s)
    (hstep : ∀ s a s', P s → ok s a → sys.step s a = some s' → P s') {s : State}
    (h : sys.ReachableVia ok s) : P s := by
  induction h with
  | init h => exact h0 _ h
  | step _ hok hs ih => exact hstep _ _ _ ih hok hs

/-- Weakening the condition on the steps keeps every reached state. -/
theorem ReachableVia.mono {ok' : State → Act → Prop} (himp : ∀ s a, ok s a → ok' s a) {s : State}
    (h : sys.ReachableVia ok s) : sys.ReachableVia ok' s := by
  induction h with
  | init h => exact .init h
  | step _ hok hs ih => exact .step ih (himp _ _ hok) hs

/-- A predicate that every admitted step keeps survives any number of them. -/
theorem Steps.invariant {P : State → Prop}
    (hstep : ∀ s a s', P s → ok s a → sys.step s a = some s' → P s') {s s' : State}
    (h : sys.Steps ok s s') (h0 : P s) : P s' := by
  induction h with
  | refl => exact h0
  | tail _ hok hs ih => exact hstep _ _ _ ih hok hs

/-- A state reached by any steps from a reachable one is reachable. -/
theorem Reachable.steps {s s' : State} (h : sys.Reachable s) (hs : sys.Steps ok s s') :
    sys.Reachable s' :=
  hs.invariant (P := sys.Reachable) (fun _ _ _ hx _ hstep => .step hx trivial hstep) h

/-- A computed run adds steps. -/
theorem Steps.runWith {okb : State → Act → Bool} (himp : ∀ s a, okb s a = true → ok s a)
    {as : List Act} {s x s' : State} (h : sys.Steps ok s x) (hr : sys.runWith okb x as = some s') :
    sys.Steps ok s s' := by
  induction as generalizing x with
  | nil =>
    cases hr
    exact h
  | cons a as ih =>
    rw [System.runWith] at hr
    split at hr
    · next hok =>
      obtain ⟨y, hy, hr'⟩ := Option.bind_eq_some_iff.mp hr
      exact ih (.tail h (himp _ _ hok) hy) hr'
    · cases hr

/-- A computed run that starts in a reached state ends in a reached state. -/
theorem ReachableVia.runWith {okb : State → Act → Bool}
    (himp : ∀ s a, okb s a = true → ok s a) {as : List Act} {s s' : State}
    (h : sys.ReachableVia ok s) (hr : sys.runWith okb s as = some s') :
    sys.ReachableVia ok s' := by
  induction as generalizing s with
  | nil =>
    obtain rfl : s = s' := Option.some.inj hr
    exact h
  | cons a as ih =>
    rw [System.runWith] at hr
    split at hr
    · next hok =>
      obtain ⟨s₁, hs₁, hr₁⟩ := Option.bind_eq_some_iff.mp hr
      exact ih (.step h (himp _ _ hok) hs₁) hr₁
    · exact absurd hr (by simp)

/-- A computed run from an initial state ends in a reached state. -/
theorem reachableVia_of_runWith {okb : State → Act → Bool}
    (himp : ∀ s a, okb s a = true → ok s a) {as : List Act} {s s' : State} (h : sys.init s)
    (hr : sys.runWith okb s as = some s') : sys.ReachableVia ok s' :=
  (ReachableVia.init h).runWith himp hr

/-- A computed unrestricted run from an initial state ends in a reachable state. -/
theorem reachable_of_run {as : List Act} {s s' : State} (h : sys.init s)
    (hr : sys.run s as = some s') : sys.Reachable s' := by
  have himp : ∀ (s : State) (a : Act), (fun _ _ => true : State → Act → Bool) s a = true → True :=
    fun _ _ _ => trivial
  exact reachableVia_of_runWith himp h hr

/-- Evaluate a run and test its last state. -/
theorem exists_of_runWith {okb : State → Act → Bool} {as : List Act} {s : State}
    (P : State → Prop) [DecidablePred P]
    (h : (sys.runWith okb s as).any (fun s' => decide (P s')) = true) :
    ∃ s', sys.runWith okb s as = some s' ∧ P s' := by
  cases hr : sys.runWith okb s as with
  | none => simp [hr] at h
  | some s' =>
    refine ⟨s', rfl, ?_⟩
    simpa [hr] using h

end System

end Pintos

import Pintos.Systems.System

/-!
# Traces and simulation

What an observer sees of a run is the list of its labels (`System.Traces`). An abstract machine (`Spec`)
says which lists are right. If every step of the system is matched by a step of the abstract machine
under the same label (`Simulates`), the machine has all traces of the system
(`Simulates.exists_traces`).
-/

namespace Pintos

/-- An abstract machine: what it starts with, and what it may do under a label. -/
structure Spec (σ ε : Type) where
  init : σ → Prop
  step : σ → ε → σ → Prop

/-- The labels of a run of the machine, and where it ends. -/
inductive Spec.Traces {σ ε : Type} (spec : Spec σ ε) : List ε → σ → Prop
  | init {m : σ} (h : spec.init m) : Traces spec [] m
  | step {es : List ε} {e : ε} {m m' : σ} (h : Traces spec es m) (hs : spec.step m e m') :
      Traces spec (es ++ [e]) m'

section

variable {State Act σ ε : Type} {sys : System State Act} {ok : State → Act → Prop}
  {lab : State → Act → State → ε} {spec : Spec σ ε} {R : State → σ → Prop}

/-- The labels of a run all of whose steps satisfy `ok`, and where it ends. -/
inductive System.Traces (sys : System State Act) (ok : State → Act → Prop)
    (lab : State → Act → State → ε) : List ε → State → Prop
  | init {s : State} (h : sys.init s) : Traces sys ok lab [] s
  | step {es : List ε} {s s' : State} {a : Act} (h : Traces sys ok lab es s) (hok : ok s a)
      (hs : sys.step s a = some s') : Traces sys ok lab (es ++ [lab s a s']) s'

theorem System.Traces.reachable {es : List ε} {s : State} (h : sys.Traces ok lab es s) :
    sys.ReachableVia ok s := by
  induction h with
  | init h => exact .init h
  | step _ hok hs ih => exact .step ih hok hs

/-- Every run has a trace. -/
theorem System.ReachableVia.exists_traces {s : State} (h : sys.ReachableVia ok s) :
    ∃ es, sys.Traces ok lab es s := by
  induction h with
  | init h => exact ⟨[], .init h⟩
  | step _ hok hs ih =>
    obtain ⟨es, hes⟩ := ih
    exact ⟨_, .step hes hok hs⟩

/-- Every step of the system from a state that a run reaches is a step of the machine. -/
structure Simulates (sys : System State Act) (ok : State → Act → Prop)
    (lab : State → Act → State → ε) (spec : Spec σ ε) (R : State → σ → Prop) : Prop where
  init : ∀ s, sys.init s → ∃ m, spec.init m ∧ R s m
  step : ∀ s a s' m, sys.ReachableVia ok s → R s m → ok s a → sys.step s a = some s' →
    ∃ m', spec.step m (lab s a s') m' ∧ R s' m'

/-- **A simulation transports traces.** -/
theorem Simulates.exists_traces (h : Simulates sys ok lab spec R) {es : List ε} {s : State}
    (ht : sys.Traces ok lab es s) : ∃ m, spec.Traces es m ∧ R s m := by
  induction ht with
  | init hs =>
    obtain ⟨m, hm, hr⟩ := h.init _ hs
    exact ⟨m, .init hm, hr⟩
  | step ht hok hs ih =>
    obtain ⟨m, hm, hr⟩ := ih
    obtain ⟨m', hm', hr'⟩ := h.step _ _ _ _ ht.reachable hr hok hs
    exact ⟨m', .step hm hm', hr'⟩

end

end Pintos

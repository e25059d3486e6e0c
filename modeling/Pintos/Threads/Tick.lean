import Pintos.Threads.Changes

/-!
# The timer interrupt, part by part

`beforeMlfqsTick` is the timer interrupt up to where it calls `thread_mlfqs_tick`, and `mlfqsNumbers` is
`thread_mlfqs_tick` up to where it computes priorities. Around these two, the timer interrupt changes the
priority and the status of threads and the lists of the scheduler, and nothing else of a thread's record
(`Spares`).
-/

namespace Pintos
namespace Threads

/-- `thread_mlfqs_tick`: the tick of the thread on the CPU. -/
def mlfqsCount (s : St) : St :=
  if s.idleThread = some s.cur then s
  else s.upd s.cur fun r => { r with recentCpu := fpAddInt r.recentCpu 1 }

/-- `thread_mlfqs_tick` before it computes priorities. -/
def mlfqsNumbers (s : St) : St :=
  if s.ticks % timerFreq = 0 then mlfqsSecond (mlfqsCount s) else mlfqsCount s

/-- The timer interrupt, up to where it calls `thread_mlfqs_tick`. -/
def beforeMlfqsTick (s : St) : St :=
  let s := { s with
    yieldOnReturn := false
    ticks := s.ticks + 1
    threadTicks := s.threadTicks + 1 }
  let s := if timeSlice ≤ s.threadTicks then { s with yieldOnReturn := true } else s
  let s := threadWakeUp s
  if s.aging then threadAging s else s

/-- `p` reads nothing of a record that the scheduler writes when it chooses threads. -/
def Inert {α : Type} (p : Thread → α) : Prop :=
  ∀ r x y z w, p { r with status := x, priority := y, stamp := z, moved := w } = p r

/-- What `d` has of `p` it has from `s`, and so it is with the numbers of the BSD scheduler. Threads may have
ended since. -/
structure Spares {α : Type} (p : Thread → α) (s d : St) : Prop where
  threads : ∀ t r', d.threads t = some r' → ∃ r, s.threads t = some r ∧ p r' = p r
  allList : d.allList.Sublist s.allList
  loadAvg : d.loadAvg = s.loadAvg
  ticks : d.ticks = s.ticks
  mlfqs : d.mlfqs = s.mlfqs

section Spares

variable {α : Type} {p : Thread → α} {s s' d : St} {t : ℕ} {f : Thread → Thread}

theorem Spares.refl (p : Thread → α) (s : St) : Spares p s s :=
  ⟨fun _ r' h => ⟨r', h, rfl⟩, List.Sublist.refl _, rfl, rfl, rfl⟩

theorem Spares.trans (h : Spares p s s') (h' : Spares p s' d) : Spares p s d := by
  refine ⟨fun t r'' hr'' => ?_, h'.allList.trans h.allList, h'.loadAvg.trans h.loadAvg,
    h'.ticks.trans h.ticks, h'.mlfqs.trans h.mlfqs⟩
  obtain ⟨r', hr', hp'⟩ := h'.threads t r'' hr''
  obtain ⟨r, hr, hp⟩ := h.threads t r' hr'
  exact ⟨r, hr, hp'.trans hp⟩

theorem threads_upd {r' : Thread} {u : ℕ} (h : (s.upd t f).threads u = some r') :
    ∃ r, s.threads u = some r ∧ (r' = r ∧ u ≠ t ∨ r' = f r ∧ u = t) := by
  by_cases hu : u = t
  · subst hu
    cases hr : s.threads u with
    | none => simp [St.upd, hr] at h
    | some r =>
      simp only [St.upd, hr, Option.map_some, Function.update_self, Option.some.injEq] at h
      exact ⟨r, rfl, .inr ⟨h.symm, rfl⟩⟩
  · simp only [St.upd, ne_eq, hu, not_false_eq_true, Function.update_of_ne] at h
    exact ⟨r', h, .inl ⟨rfl, hu⟩⟩

theorem Spares.upd (h : Spares p s d) (hf : ∀ r, p (f r) = p r) : Spares p s (d.upd t f) := by
  refine h.trans { Spares.refl p d with threads := fun u r' hr' => ?_ }
  obtain ⟨r, hr, ⟨rfl, -⟩ | ⟨rfl, -⟩⟩ := threads_upd hr'
  · exact ⟨r', hr, rfl⟩
  · exact ⟨r, hr, hf r⟩

theorem Spares.foldl {g : St → ℕ → St} (hg : ∀ d t, Spares p d (g d t)) (l : List ℕ) :
    Spares p s (l.foldl g s) := by
  induction l generalizing s with
  | nil => exact Spares.refl p s
  | cons t l ih => exact (hg s t).trans ih

theorem spares_upd (hf : ∀ r, p (f r) = p r) : Spares p s (s.upd t f) := (Spares.refl p s).upd hf

theorem spares_free : Spares p s (s.free t) := by
  refine { Spares.refl p s with threads := fun u r' hr' => ?_ }
  by_cases hu : u = t
  · simp [St.free, hu] at hr'
  · exact ⟨r', by simpa [St.free, hu] using hr', rfl⟩

section Inert

variable (hp : Inert p)
include hp

theorem neutral_spares : Neutral (Spares p) where
  refl := Spares.refl p
  trans := Spares.trans
  record s t f hf := spares_upd fun r => by
    obtain ⟨_, _, _, _, he⟩ := hf r
    rw [he]
    exact hp r ..
  vars s _ _ _ _ _ _ _ _ := { Spares.refl p s with }
  free _ _ := spares_free

/-- Up to `thread_mlfqs_tick`, the timer interrupt only counts the tick. -/
theorem spares_beforeMlfqsTick : Spares p { s with ticks := s.ticks + 1 } (beforeMlfqsTick s) := by
  have h := neutral_spares hp
  have hage : ∀ d, Spares p d (if d.aging then threadAging d else d) := by
    intro d
    split
    · exact h.threadAging
    · exact h.refl d
  have hcount : ∀ d : St, Spares p d
      (if timeSlice ≤ d.threadTicks then { d with yieldOnReturn := true } else d) := by
    intro d
    split
    · exact h.vars d _ _ _ _ _ _ _ _
    · exact h.refl d
  have hstart : Spares p { s with ticks := s.ticks + 1 } { s with
      yieldOnReturn := false, ticks := s.ticks + 1, threadTicks := s.threadTicks + 1 } :=
    h.vars { s with ticks := s.ticks + 1 } _ _ _ _ _ _ _ _
  exact ((hstart.trans (hcount _)).trans h.threadWakeUp).trans (hage _)

omit hp in
/-- After `thread_mlfqs_tick`, the timer interrupt may yield. -/
theorem tick_eq : intrHandler timerInterrupt s =
    (let d := if s.mlfqs then threadMlfqsTick (beforeMlfqsTick s) else beforeMlfqsTick s
    if d.yieldOnReturn then threadYield d else d) := by
  have hunit : Inert fun _ => () := fun _ _ _ _ _ => rfl
  rw [← show (beforeMlfqsTick s).mlfqs = s.mlfqs from (spares_beforeMlfqsTick hunit).mlfqs]
  rfl

theorem spares_timerInterrupt : Spares p
    (if s.mlfqs then threadMlfqsTick (beforeMlfqsTick s) else beforeMlfqsTick s)
    (intrHandler timerInterrupt s) := by
  rw [tick_eq]
  dsimp only
  generalize (if s.mlfqs then threadMlfqsTick (beforeMlfqsTick s) else beforeMlfqsTick s) = d
  split
  · exact (neutral_spares hp).threadYield
  · exact Spares.refl p d

end Inert

/-- Up to `thread_mlfqs_tick`, only the loop of `thread_wake_up` moves threads. -/
theorem same_beforeMlfqsTick (s : St) :
    ∃ d, Same s d ∧ Same (wakeUpLoop d.sleepList d) (beforeMlfqsTick s) := by
  have hcount : ∀ d : St,
      Same d (if timeSlice ≤ d.threadTicks then { d with yieldOnReturn := true } else d) := by
    intro d
    split
    · exact ⟨rfl, rfl, rfl, rfl, rfl, rfl, rfl, rfl⟩
    · exact Same.refl d
  have hage : ∀ d : St, Same d (if d.aging then threadAging d else d) := by
    intro d
    split
    · exact same_threadAging
    · exact Same.refl d
  have hstart : Same s { s with
      yieldOnReturn := false, ticks := s.ticks + 1, threadTicks := s.threadTicks + 1 } :=
    ⟨rfl, rfl, rfl, rfl, rfl, rfl, rfl, rfl⟩
  exact ⟨_, hstart.trans (hcount _), same_checkPreemptIntr.trans (hage _)⟩

theorem running_beforeMlfqsTick (h : Running s) :
    Running (beforeMlfqsTick s) ∧ Keeps (fun _ => False) s (beforeMlfqsTick s) := by
  obtain ⟨d, hd, hlast⟩ := same_beforeMlfqsTick s
  obtain ⟨hrun, hk⟩ := Running.wakeUpLoop _ (h.same hd) rfl
  exact ⟨hrun.same hlast, hd.trans_keeps (hk.trans hlast.keeps)⟩

theorem ticks_mlfqsCount : (mlfqsCount s).ticks = s.ticks := by
  unfold mlfqsCount
  split <;> rfl

theorem ticks_mlfqsNumbers : (mlfqsNumbers s).ticks = s.ticks := by
  unfold mlfqsNumbers
  split
  · exact (foldl_eq (g := threadUpdateRecentCpu) St.ticks (fun _ _ => rfl) _).trans ticks_mlfqsCount
  · exact ticks_mlfqsCount

theorem threadMlfqsTick_eq : threadMlfqsTick s =
    if s.ticks % timeSlice = 0 then checkPreemptIntr (mlfqsSort (mlfqsNumbers s))
    else mlfqsNumbers s := by
  have hnumbers : (if (mlfqsCount s).ticks % timerFreq = 0 then mlfqsSecond (mlfqsCount s)
      else mlfqsCount s) = mlfqsNumbers s := by
    rw [ticks_mlfqsCount]
    rfl
  show (let d := if (mlfqsCount s).ticks % timerFreq = 0 then mlfqsSecond (mlfqsCount s)
      else mlfqsCount s
    if d.ticks % timeSlice = 0 then checkPreemptIntr (mlfqsSort d) else d) = _
  rw [hnumbers]
  dsimp only
  rw [ticks_mlfqsNumbers]

theorem same_mlfqsNumbers : Same s (mlfqsNumbers s) := by
  have hcount : Same s (mlfqsCount s) := by
    unfold mlfqsCount
    split
    · exact Same.refl s
    · exact Same.upd (fun _ => rfl) fun _ => rfl
  unfold mlfqsNumbers
  split
  · exact hcount.trans same_mlfqsSecond
  · exact hcount

/-- The sort of `ready_list` changes priorities only. -/
theorem spares_threadMlfqsTick (hp : Inert p) : Spares p (mlfqsNumbers s) (threadMlfqsTick s) := by
  rw [threadMlfqsTick_eq]
  split
  · exact (neutral_spares hp).mlfqsSort
  · exact Spares.refl p _

theorem Change.allList_tick (h : Change .tick s s') : s'.allList = s.allList := by
  cases h with
  | aux h => exact h.allList
  | exit hk | birth c p hk hn hu hp => cases hk
  | calcOne t hu hm => exact same_threadCalcPriority.allList
  | age hk t ht hu ha => exact same_ageThread.allList
  | calcAll hk t hm => exact same_threadUpdatePriority.allList
  | _ => rfl

theorem allList_tick (h : Inv s) (hs : step s .tick = some s') : s'.allList = s.allList :=
  step_of_change (P := fun d => d.allList = s.allList) h hs rfl fun _ _ hd hc => hc.allList_tick.trans hd

/-- `thread_mlfqs_tick` changes one field before it computes priorities. -/
theorem threads_mlfqsNumbers (hc : ∀ r x, p { r with recentCpu := x } = p r) {r' : Thread}
    (hr' : (mlfqsNumbers s).threads t = some r') : ∃ r, s.threads t = some r ∧ p r' = p r := by
  have hcount : Spares p s (mlfqsCount s) := by
    unfold mlfqsCount
    split
    · exact Spares.refl p s
    · exact spares_upd fun r => hc r _
  have hloop : ∀ d : St, Spares p d (threadForeach threadUpdateRecentCpu d) :=
    fun d => Spares.foldl (g := threadUpdateRecentCpu) (fun _ _ => spares_upd fun r => hc r _) _
  unfold mlfqsNumbers at hr'
  split at hr'
  · obtain ⟨r₁, hr₁, he₁⟩ := (hloop _).threads t r' hr'
    obtain ⟨r, hr, he⟩ := hcount.threads t r₁ hr₁
    exact ⟨r, hr, he₁.trans he⟩
  · exact hcount.threads t r' hr'

/-- **What the timer interrupt leaves alone of a record**: everything but its status, its priority and its
`recent_cpu`. -/
theorem threads_tick (hp : Inert p) (hc : ∀ r x, p { r with recentCpu := x } = p r) {r' : Thread}
    (hr' : (intrHandler timerInterrupt s).threads t = some r') : ∃ r, s.threads t = some r ∧ p r' = p r := by
  obtain ⟨r₁, hr₁, h₁⟩ := (spares_timerInterrupt hp).threads t r' hr'
  obtain ⟨r₂, hr₂, h₂⟩ : ∃ r, (beforeMlfqsTick s).threads t = some r ∧ p r₁ = p r := by
    split at hr₁
    · obtain ⟨r₂, hr₂, h₂⟩ := (spares_threadMlfqsTick hp).threads t r₁ hr₁
      obtain ⟨r₃, hr₃, h₃⟩ := threads_mlfqsNumbers hc hr₂
      exact ⟨r₃, hr₃, h₂.trans h₃⟩
    · exact ⟨r₁, hr₁, rfl⟩
  obtain ⟨r, hr, h⟩ := (spares_beforeMlfqsTick hp).threads t r₂ hr₂
  exact ⟨r, hr, h₁.trans (h₂.trans h)⟩

end Spares

end Threads
end Pintos

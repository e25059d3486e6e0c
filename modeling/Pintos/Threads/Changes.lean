import Pintos.Threads.Frame

/-!
# Elementary changes

Every step of the kernel's threads is a sequence of elementary changes (`changes_step`): a thread is put
into `ready_list`, the next one is taken off it, a sleeper is woken, a priority is computed, and so on.
Each constructor of `Change` carries what is known where the change is made, in particular which lists
the thread is in. What every elementary change keeps holds in every run, so an invariant of the lists or
of the numbers of the scheduler needs one case for each change and not one for each function of
`threads/thread.c` and `threads/synch.c`.

A change also says what can cause it (`Cause`). What a thread still has to do is not part of the picture:
`Aux` is a change of this alone.
-/

namespace Pintos
namespace Threads

/-- A record without what the lists and the numbers of the scheduler do not depend on. -/
def Thread.face (r : Thread) : Thread := { r with tid := 0, level := true, cont := [] }

def St.face (s : St) (t : ℕ) : Option Thread := (s.threads t).map Thread.face

/-- `s'` differs from `s` in nothing the elementary changes are about. -/
structure Aux (s s' : St) : Prop where
  face : s'.face = s.face
  readyList : s'.readyList = s.readyList
  sleepList : s'.sleepList = s.sleepList
  allList : s'.allList = s.allList
  sema : s'.sema = s.sema
  condWaiters : s'.condWaiters = s.condWaiters
  idleThread : s'.idleThread = s.idleThread
  cur : s'.cur = s.cur
  ticks : s'.ticks = s.ticks
  loadAvg : s'.loadAvg = s.loadAvg
  aging : s'.aging = s.aging
  mlfqs : s'.mlfqs = s.mlfqs
  clock : s'.clock = s.clock
  dispatches : s'.dispatches = s.dispatches

/-- The number of threads that `thread_mlfqs_tick` counts as ready. -/
def readyThreads (s : St) : ℤ := s.readyList.length + if s.idleThread = some s.cur then 0 else 1

/-- `load_avg` after one more second with `r` ready threads. -/
def nextLoadAvg (loadAvg r : ℤ) : ℤ :=
  fpAdd (fpMul (fpDiv (fpFromInt 59) (fpFromInt 60)) loadAvg)
    (fpMulInt (fpDiv (fpFromInt 1) (fpFromInt 60)) r)

/-- What makes a thread or an interrupt handler change something. -/
inductive Cause
  | call (c : Call)
  | stmt (x : Stmt)
  | tick
  -- Another interrupt.
  | intr
  deriving DecidableEq

/-- One elementary change. -/
inductive Change (k : Cause) : St → St → Prop
  | aux {s s' : St} (h : Aux s s') : Change k s s'
  | setIdle (s : St) (hk : k = .stmt .setIdle) (h : s.idleThread = none) (hc : s.cur = idlePage) :
      Change k s { s with idleThread := some s.cur }
  -- A thread in no list is put into `ready_list`.
  | ready (s : St) (t : ℕ) (hu : Unlisted s t) (hs : s.status t = some .blocked ∨ t = s.cur) :
      Change k s (insertReady s t)
  | dispatch (s : St) (n : ℕ) (hn : (nextThreadToRun s).1 = some n) :
      Change k s (dispatch s n (nextThreadToRun s).2)
  | free (s : St) (t : ℕ) (hd : s.status t = some .dying) (hu : Unlisted s t) : Change k s (s.free t)
  | status (s : St) (y : Status) (hy : y ≠ .running) : Change k s (s.setStatus s.cur y)
  | exit (s : St) (hk : k = .stmt .exit) : Change k s { s with allList := s.allList.erase s.cur }
  -- `thread_sleep`.
  | wakeup (s : St) (w : ℤ) (hk : k = .stmt (.sleep w)) (hu : Unlisted s s.cur) :
      Change k s (s.upd s.cur fun r => { r with wakeupTick := w })
  | asleep (s : St) (w : ℤ) (hk : k = .stmt (.sleep w)) (hu : Unlisted s s.cur) :
      Change k s { s with
        sleepList := listInsertOrdered (wakeupTickLess s) s.cur s.sleepList }
  -- The loop of `thread_wake_up`.
  | awake (s : St) (hk : k = .tick) (t : ℕ) (l : List ℕ) (hl : s.sleepList = t :: l)
      (hw : s.wakeup t ≤ s.ticks) : Change k s { s with sleepList := l }
  | enqueue (s : St) (x : Sema) (hk : k = .stmt (.down x) ∨ k = .stmt (.downAgain x))
      (hu : Unlisted s s.cur) (hv : (s.sema x).value = 0) :
      Change k s (s.setSema x { s.sema x with
        waiters := listInsertOrdered (priorityGreater s) s.cur (s.sema x).waiters })
  | dequeue (s : St) (x : Sema) (t : ℕ) (l : List ℕ) (hl : (s.sema x).waiters = t :: l) :
      Change k s (s.setSema x { s.sema x with waiters := l })
  | value (s : St) (x : Sema) (v : ℕ) : Change k s (s.setSema x { s.sema x with value := v })
  | condPush (s : St) (c : ℕ) (hk : k = .stmt (.condPush c)) : Change k s { s with
      condWaiters := Function.update s.condWaiters c (s.condWaiters c ++ [s.cur]) }
  | condPop (s : St) (c w : ℕ) (l : List ℕ) (hl : s.condWaiters c = w :: l) :
      Change k s { s with condWaiters := Function.update s.condWaiters c l }
  -- Priorities: the caller's own, that of a child, those of the ready threads, and all of them.
  | setPrio (s : St) (p : ℤ) (hk : k = .stmt (.setPriority p)) (hu : Unlisted s s.cur) :
      Change k s (s.setPrio s.cur p)
  | calcOne (s : St) (t : ℕ) (hu : Unlisted s t) (hm : s.mlfqs = true) :
      Change k s (threadCalcPriority s t)
  | age (s : St) (hk : k = .tick) (t : ℕ) (ht : t ∈ s.readyList)
      (hu : ∀ q, t ∈ s.queue q → q = .ready) (ha : s.aging = true) : Change k s (ageThread s t)
  | calcAll (s : St) (hk : k = .tick) (t : ℕ) (hm : s.mlfqs = true) :
      Change k s (threadUpdatePriority s t)
  | sort (s : St) (hk : k = .tick) (hm : s.mlfqs = true) :
      Change k s { s with readyList := listSort (priorityGreater s) s.readyList }
  | tick (s : St) (hk : k = .tick) : Change k s { s with ticks := s.ticks + 1 }
  -- The numbers of the BSD scheduler.
  | cpu (s : St) (hk : k = .tick) (hm : s.mlfqs = true) :
      Change k s (s.upd s.cur fun r => { r with recentCpu := fpAddInt r.recentCpu 1 })
  | load (s : St) (hk : k = .tick) (hm : s.mlfqs = true) :
      Change k s { s with loadAvg := nextLoadAvg s.loadAvg (readyThreads s) }
  | decay (s : St) (hk : k = .tick) (t : ℕ) (hm : s.mlfqs = true) :
      Change k s (threadUpdateRecentCpu s t)
  | nice (s : St) (n : ℤ) (hk : k = .stmt (.setNice n)) :
      Change k s (s.upd s.cur fun r => { r with nice := n })
  | inherit (s : St) (c : ℕ) (r : Thread) (hr : s.threads s.cur = some r) (ha : s.cur ∈ s.allList) :
      Change k s (s.upd c fun d => { d with nice := r.nice, recentCpu := r.recentCpu })
  | birth (s : St) (c : ℕ) (p : ℤ) (hk : k = .call (.threadCreate c p)) (hn : s.threads c = none)
      (hu : Unlisted s c) (hp : priMin ≤ p ∧ p ≤ priMax) : Change k s (initThread s c p)

/-- A sequence of elementary changes. -/
abbrev Changes (k : Cause) : St → St → Prop := Relation.ReflTransGen (Change k)

/-- The cause of what an action does. -/
def St.cause (s : St) : Act → Cause
  | .call c => .call c
  | .run =>
    match s.conts s.cur with
    | some (x :: _) => .stmt x
    | _ => .intr
  | .tick => .tick
  | _ => .intr

section Changes

variable {k : Cause} {s s' s'' d : St} {t : ℕ} {f : Thread → Thread}

theorem Change.changes (h : Change k s s') : Changes k s s' := .single h

/-! ### What no list and no number depends on -/

theorem Aux.refl (s : St) : Aux s s :=
  ⟨rfl, rfl, rfl, rfl, rfl, rfl, rfl, rfl, rfl, rfl, rfl, rfl, rfl, rfl⟩

theorem face_upd (hf : ∀ r, (f r).face = r.face) : (s.upd t f).face = s.face := by
  funext u
  by_cases hu : u = t
  · subst hu
    cases hr : s.threads u <;> simp [St.face, St.upd, hr, hf]
  · simp [St.face, St.upd, hu]

theorem aux_upd (hf : ∀ r, (f r).face = r.face) : Aux s (s.upd t f) :=
  { Aux.refl s with face := face_upd hf }

theorem aux_goOn (l : List Stmt) : Aux s (s.goOn l) := aux_upd fun _ => rfl

theorem changes_goOn (h : Changes k s d) (l : List Stmt) : Changes k s (d.goOn l) :=
  h.tail (.aux (aux_goOn l))

/-! ### The scheduler -/

theorem changes_threadUnblock (hb : s.status t = some .blocked) (hu : Unlisted s t) :
    Changes k s (threadUnblock s t) := by
  rw [threadUnblock, if_pos hb]
  exact (Change.ready s t hu (.inl hb)).changes

theorem mem_of_dispatch {n u : ℕ} {q : Queue}
    (h : u ∈ (dispatch s n (nextThreadToRun s).2).queue q) : u ∈ s.queue q := by
  cases q with
  | ready =>
    have h' : u ∈ (nextThreadToRun s).2 := h
    unfold nextThreadToRun at h'
    cases hr : s.readyList with
    | nil => simp [hr] at h'
    | cons t l =>
      simp only [hr] at h'
      show u ∈ s.readyList
      rw [hr]
      exact List.mem_cons_of_mem t h'
  | _ => exact h

/-- A thread that has ended is in no list when it calls `schedule`. -/
theorem changes_schedule (hu : s.status s.cur = some .dying → Unlisted s s.cur)
    (hok : (schedule s).panicked = false) : Changes k s (schedule s) := by
  obtain ⟨n, hn, he | ⟨hne, he, hd⟩⟩ := schedule_cases hok
  · rw [he]
    exact (Change.dispatch s n hn).changes
  · rw [he]
    refine (Change.dispatch s n hn).changes.tail (.free _ _ ?_ ?_)
    · have hst : (dispatch s n (nextThreadToRun s).2).status s.cur = s.status s.cur :=
        status_upd_of_ne hne
      rw [hst, hd]
    · exact fun q hq => hu hd q (mem_of_dispatch hq)

/-- The thread on the CPU gives it up, but goes on later. -/
theorem changes_schedule_of_ne (hd : s.status s.cur ≠ some .dying)
    (hok : (schedule s).panicked = false) : Changes k s (schedule s) :=
  changes_schedule (fun h => absurd h hd) hok

theorem status_setStatus_self {y : Status} : (s.setStatus t y).status t = some y ∨
    (s.setStatus t y).status t = none := by
  cases hr : s.threads t with
  | none | some r => simp [St.status, St.setStatus, St.upd, hr]

theorem changes_threadBlock (hok : (threadBlock s).panicked = false) : Changes k s (threadBlock s) := by
  refine (Change.status s .blocked (by decide)).changes.trans (changes_schedule_of_ne ?_ hok)
  obtain h | h := status_setStatus_self (s := s) (t := s.cur) (y := .blocked) <;>
    exact fun hd => by cases h.symm.trans hd

theorem changes_threadYield (hu : Unlisted s s.cur) (hc : s.status s.cur = some .running)
    (hok : (threadYield s).panicked = false) : Changes k s (threadYield s) := by
  unfold threadYield at hok ⊢
  split at hok
  · next hi =>
    rw [if_pos hi]
    refine (Change.status s .ready (by decide)).changes.trans (changes_schedule_of_ne ?_ hok)
    obtain h | h := status_setStatus_self (s := s) (t := s.cur) (y := .ready) <;>
      exact fun hd => by cases h.symm.trans hd
  · next hi =>
    rw [if_neg hi]
    refine (Change.ready s s.cur hu (.inr rfl)).changes.trans (changes_schedule_of_ne ?_ hok)
    have h : (insertReady s s.cur).status (insertReady s s.cur).cur = some .ready := by
      rw [insertReady_status hc]
      exact Function.update_self ..
    exact fun hd => by cases h.symm.trans hd

theorem changes_threadExit (hk : k = .stmt .exit) (hu : Unlisted s s.cur) (hok : (threadExit s).panicked = false) :
    Changes k s (threadExit s) := by
  refine ((Change.exit s hk).changes.tail (.status _ .dying (by decide))).trans (changes_schedule ?_ hok)
  exact fun _ q hq => hu q (by cases q <;> exact hq)

/-! ### Semaphores -/

theorem changes_semaUp (h : Running s) (x : Sema) : Changes k s (semaUp s x) := by
  unfold semaUp
  split
  · exact (Change.value s x _).changes
  · next t l hl =>
    have hq : (s.setSema x { s.sema x with waiters := l }).queue =
        Function.update s.queue (.waiters x) l := queue_setSema
    have hst : s.status t = some .blocked := by
      refine h.core.status (.waiters x) t ?_
      show t ∈ (s.sema x).waiters
      rw [hl]
      exact List.mem_cons_self
    have hself : (s.setSema x { s.sema x with waiters := l }).status =
        Function.update s.status t (some .blocked) := by
      rw [← hst, Function.update_eq_self]
      rfl
    obtain ⟨-, hu⟩ := h.core.pop (q := .waiters x) (l := l) hl (by decide) hself hq rfl
    refine ((Change.dequeue s x t l hl).changes.trans ?_).tail (.value _ x _)
    exact changes_threadUnblock hst hu

theorem changes_semaDown {x : Sema} (hk : k = .stmt (.down x) ∨ k = .stmt (.downAgain x))
    (hu : Unlisted s s.cur) {rest : List Stmt} (hok : (semaDown s x rest).panicked = false) : Changes k s (semaDown s x rest) := by
  unfold semaDown at hok ⊢
  split
  · next hv =>
    rw [if_pos hv] at hok
    exact (changes_goOn (Change.enqueue s x hk hu hv).changes _).trans (changes_threadBlock hok)
  · exact changes_goOn (Change.value s x _).changes _

/-! ### The timer interrupt -/

theorem aux_checkPreemptIntr : Aux s (checkPreemptIntr s) := by
  unfold checkPreemptIntr
  split
  · exact { Aux.refl s with }
  · exact Aux.refl s

theorem changes_wakeUpLoop (l : List ℕ) : ∀ {s : St}, Running s → s.sleepList = l →
    Changes .tick s (wakeUpLoop l s) := by
  induction l with
  | nil => exact fun _ _ => .refl
  | cons t l ih =>
    intro s h hl
    rw [wakeUpLoop]
    split
    · exact .refl
    · next hw =>
      have hq : ({ s with sleepList := l } : St).queue = Function.update s.queue .sleep l := by
        funext q
        cases q <;> rfl
      have hst : s.status t = some .blocked := h.core.status .sleep t (by simp [St.queue, hl])
      have hself : ({ s with sleepList := l } : St).status =
          Function.update s.status t (some .blocked) := by
        rw [← hst, Function.update_eq_self]
        rfl
      obtain ⟨-, hu⟩ := h.core.pop (q := .sleep) (l := l) hl (by decide) hself hq rfl
      obtain ⟨hrun, -⟩ := h.popUnblock { s with sleepList := l } (q := .sleep) rfl hl rfl hq rfl rfl
        rfl rfl rfl rfl
      have hsleep : (threadUnblock { s with sleepList := l } t).sleepList = l := by
        unfold threadUnblock
        split <;> rfl
      exact ((Change.awake s rfl t l hl (by omega)).changes.trans (changes_threadUnblock hst hu)).trans
        (ih hrun hsleep)

theorem changes_threadWakeUp (h : Running s) : Changes .tick s (threadWakeUp s) :=
  (changes_wakeUpLoop _ h rfl).tail (.aux aux_checkPreemptIntr)

/-- A loop over threads, none of whose turns changes what the next one relies on. -/
theorem changes_foldl {g : St → ℕ → St} {P : St → Prop} {l : List ℕ}
    (hg : ∀ d, P d → ∀ t ∈ l, Change k d (g d t) ∧ P (g d t)) (h : P s) : Changes k s (l.foldl g s) := by
  induction l generalizing s with
  | nil => exact .refl
  | cons t l ih =>
    obtain ⟨hc, hP⟩ := hg s h t List.mem_cons_self
    exact .head hc (ih (fun d hd u hu => hg d hd u (List.mem_cons_of_mem t hu)) hP)

/-- What no turn of a loop changes. -/
theorem foldl_eq {α : Type} {g : St → ℕ → St} (p : St → α) (hg : ∀ d t, p (g d t) = p d) (l : List ℕ) :
    p (l.foldl g s) = p s := by
  induction l generalizing s with
  | nil => rfl
  | cons t l ih => rw [List.foldl_cons, ih, hg]

theorem same_ageThread : Same s (ageThread s t) := by
  unfold ageThread
  split
  · exact same_setPrio
  · exact Same.refl s

theorem ageThread_aging : (ageThread s t).aging = s.aging := by
  unfold ageThread
  split <;> rfl

theorem changes_threadAging (h : Running s) (ha : s.aging = true) : Changes .tick s (threadAging s) := by
  refine Relation.ReflTransGen.tail ?_ (.aux aux_checkPreemptIntr)
  refine changes_foldl (P := fun d => Same s d ∧ d.aging = true) ?_ ⟨Same.refl s, ha⟩
  rintro d ⟨hs, hd⟩ t ht
  have hr : d.readyList = s.readyList := congrFun hs.queue .ready
  refine ⟨.age d rfl t (hr ▸ ht) (fun q hq => ?_) hd, hs.trans same_ageThread, ageThread_aging.trans hd⟩
  rw [hs.queue] at hq
  exact h.core.unique q .ready t hq ht

theorem changes_mlfqsSecond (hm : s.mlfqs = true) : Changes .tick s (mlfqsSecond s) := by
  refine (Change.load s rfl hm).changes.trans ?_
  exact changes_foldl (P := fun d => d.mlfqs = true) (fun d hd t _ => ⟨.decay d rfl t hd, hd⟩) hm

theorem same_foreach_threadUpdatePriority : Same s (threadForeach threadUpdatePriority s) :=
  Same.foldl (fun _ _ => same_threadUpdatePriority) _

theorem changes_mlfqsSort (hm : s.mlfqs = true) : Changes .tick s (mlfqsSort s) := by
  have hcalc : Changes .tick s (threadForeach threadUpdatePriority s) := by
    refine changes_foldl (P := fun d => d.mlfqs = true) (fun d hd t _ => ⟨.calcAll d rfl t hd, ?_⟩) hm
    rw [same_threadUpdatePriority.mlfqs, hd]
  exact hcalc.tail (.sort _ rfl (same_foreach_threadUpdatePriority.mlfqs.trans hm))

theorem changes_threadMlfqsTick (hm : s.mlfqs = true) : Changes .tick s (threadMlfqsTick s) := by
  refine (threadMlfqsTick_rule (P := fun d => Changes .tick s d ∧ d.mlfqs = true) ⟨.refl, hm⟩
    ?_ ?_ ?_).1
  · rintro d ⟨hd, hm⟩
    exact ⟨hd.tail (.cpu d rfl hm), hm⟩
  · rintro d ⟨hd, hm⟩
    exact ⟨hd.trans (changes_mlfqsSecond hm), same_mlfqsSecond.mlfqs.trans hm⟩
  · rintro d ⟨hd, hm⟩
    have hsort : (mlfqsSort d).mlfqs = d.mlfqs := same_foreach_threadUpdatePriority.mlfqs
    refine ⟨(hd.trans (changes_mlfqsSort hm)).tail (.aux aux_checkPreemptIntr), ?_⟩
    rw [same_checkPreemptIntr.mlfqs, hsort, hm]

/-- **The timer interrupt.** -/
theorem changes_timerInterrupt (h : Running s) : Changes .tick s (timerInterrupt s) := by
  have hcount : Same s { s with ticks := s.ticks + 1, threadTicks := s.threadTicks + 1 } :=
    ⟨rfl, rfl, rfl, rfl, rfl, rfl, rfl, rfl⟩
  refine (timerInterrupt_rule (P := fun d => Running d ∧ Changes .tick s d)
    (Q := fun d => Running d ∧ Changes .tick s d) ⟨h.same hcount, ?_⟩ ?_ ?_ ?_ ?_).2
  · exact (Change.tick s rfl).changes.tail (.aux { Aux.refl { s with ticks := s.ticks + 1 } with })
  · rintro d ⟨hd, hc⟩
    have hs : Same d { d with yieldOnReturn := true } := ⟨rfl, rfl, rfl, rfl, rfl, rfl, rfl, rfl⟩
    exact ⟨hd.same hs, hc.tail (.aux { Aux.refl d with })⟩
  · rintro d ⟨hd, hc⟩
    exact ⟨hd.threadWakeUp.1, hc.trans (changes_threadWakeUp hd)⟩
  · rintro d ⟨hd, hc⟩ ha
    exact ⟨hd.same same_threadAging, hc.trans (changes_threadAging hd ha)⟩
  · rintro d ⟨hd, hc⟩ hm
    exact ⟨hd.threadMlfqsTick.1, hc.trans (changes_threadMlfqsTick hm)⟩

/-- **An interrupt handler**, and the `thread_yield` that may follow it. -/
theorem changes_intrHandler {g : St → St} (hg : ∀ d, Same s d → Running (g d) ∧ Changes k d (g d))
    (hok : (intrHandler g s).panicked = false) : Changes k s (intrHandler g s) := by
  have hs : Same s { s with yieldOnReturn := false } := ⟨rfl, rfl, rfl, rfl, rfl, rfl, rfl, rfl⟩
  obtain ⟨hrun, hc⟩ := hg _ hs
  have hy : Change k s { s with yieldOnReturn := false } := .aux { Aux.refl s with }
  have hc' : Changes k s (g { s with yieldOnReturn := false }) := hy.changes.trans hc
  unfold intrHandler at hok ⊢
  dsimp only at hok ⊢
  split at hok
  · next hy =>
    rw [if_pos hy]
    exact hc'.trans (changes_threadYield hrun.cur_unlisted hrun.cur hok)
  · next hy =>
    rw [if_neg hy]
    exact hc'

/-! ### One step -/

theorem aux_holder {f : ℕ → Option ℕ} : Aux s { s with holder := f } := { Aux.refl s with }

/-- **One statement of the thread on the CPU.** -/
theorem changes_exec (h : Inv s) {x : Stmt} {rest : List Stmt}
    (hl : s.conts s.cur = some (x :: rest)) : Changes (.stmt x) s (exec s rest x) := by
  have hok : (exec s rest x).panicked = false := (h.exec hl).running.ok
  have hu := h.running.cur_unlisted
  have hgo : ∀ l, Changes (.stmt x) s (s.goOn l) := changes_goOn .refl
  cases x with
  | kernelThread =>
    have hk : Aux s (s.upd s.cur fun r => { r with level := true }) := aux_upd fun _ => rfl
    exact changes_goOn (Change.aux hk).changes _
  | setIdle =>
    have hc : s.cur = idlePage := h.conts.okFor _ _ hl _ List.mem_cons_self
    refine changes_goOn (Change.setIdle s rfl ?_ hc).changes _
    have hm := h.idle.mem hl hc
    cases hi : s.idleThread with
    | none => rfl
    | some i => simp [hi, idleConts, idleCode] at hm
  | idleLoop | block => exact (hgo _).trans (changes_threadBlock hok)
  | allocTid child =>
    refine changes_goOn (d := { s with nextTid := s.nextTid + 1 }.upd child _) ?_ _
    have hn : Change (.stmt (.allocTid child)) s { s with nextTid := s.nextTid + 1 } := .aux { Aux.refl s with }
    exact hn.changes.tail (.aux (aux_upd fun _ => rfl))
  | inherit child =>
    have hun : Unlisted s child := by
      obtain ⟨k, rfl⟩ := List.head?_eq_some_iff.mp ((h.conts.guarded _ _ hl).1 _ rfl)
      exact (h.conts.newborn _ _ child hl List.mem_cons_self).unlisted
    obtain ⟨r, hr⟩ := h.record h.cur_alive
    simp only [exec, hr]
    have ha : s.cur ∈ s.allList := (h.running.core.all s.cur).2 ⟨.running, h.running.cur, by decide⟩
    have hi := (Change.inherit (k := .stmt (.inherit child)) s child r hr ha).changes
    refine changes_goOn ?_ _
    split
    · next hm => exact hi.tail (.calcOne _ _ (fun q hq => hun q (by simpa using hq)) hm)
    · exact hi
  | unblock t =>
    have hn := h.conts.newborn _ _ t hl (by simp [pending, Stmt.creates])
    exact (hgo rest).trans (changes_threadUnblock (by rw [status_goOn]; exact hn.blocked) hn.unlisted)
  | checkPreempt | sleepTest start n =>
    simp only [exec]
    exact hgo _
  | yield => exact (hgo rest).trans (changes_threadYield hu (h.running.goOn rest).cur hok)
  | unblocked => exact hgo rest
  | exit => exact (hgo rest).trans (changes_threadExit rfl hu hok)
  | readTicks n => exact hgo _
  | sleep w =>
    refine Relation.ReflTransGen.trans ?_ (changes_threadBlock hok)
    have hw := changes_goOn (Change.wakeup (k := .stmt (.sleep w)) s w rfl hu).changes rest
    exact hw.tail (.asleep _ w rfl fun q hq => hu q (by rwa [St.goOn, queue_upd, queue_upd] at hq))
  | down y => exact changes_semaDown (.inl rfl) hu hok
  | downAgain y => exact changes_semaDown (.inr rfl) hu hok
  | tryDown y => exact changes_goOn (Change.value s y _).changes _
  | up y => exact (hgo rest).trans (changes_semaUp (h.running.goOn rest) y)
  | setHolder k | clearHolder k => exact changes_goOn (Change.aux aux_holder).changes _
  | tryAcquire k =>
    simp only [exec]
    split
    · exact hgo rest
    · exact changes_goOn (Change.value s (.lock k) _).changes _
  | condPush c =>
    have hw : (s.sema (.waiter s.cur)).waiters = [] := by
      rw [List.eq_nil_iff_forall_not_mem]
      intro u hu'
      obtain rfl := h.conts.waiters _ u hu'
      exact hu (.waiters (.waiter s.cur)) hu'
    have hv := (Change.condPush (k := .stmt (.condPush c)) s c rfl).changes.tail (.value _ (.waiter s.cur) 0)
    refine changes_goOn (hv.trans ?_) rest
    rw [← hw]
  | condSignal c | condBroadcast c =>
    simp only [exec]
    split
    · exact hgo rest
    · next w l hw => exact changes_goOn (Change.condPop s c w l hw).changes _
  | setPriority p => exact changes_goOn (Change.setPrio s p rfl hu).changes _
  | setNice n =>
    simp only [exec]
    refine changes_goOn ?_ _
    split
    · next hm => exact (Change.nice s n rfl).changes.tail (.calcOne _ _ (fun q hq => hu q (by simpa using hq)) hm)
    · exact (Change.nice s n rfl).changes

/-- **A call.** -/
theorem changes_call (h : Inv s) {r : Thread} {c : Call} (hc : canCall s r c = true)
    (new : List Stmt) : Changes (.call c) s ((enter s c).goOn new) := by
  refine changes_goOn ?_ new
  cases c with
  | threadCreate child p =>
    simp only [canCall, Bool.and_eq_true, decide_eq_true_eq, Option.isNone_iff_eq_none] at hc
    refine (Change.birth s child p rfl hc.1.1 (fun q hq => ?_) ⟨hc.1.2, hc.2⟩).changes
    have hst := h.running.core.status q child hq
    simp [St.status, hc.1.1] at hst
  | threadUnblock u =>
    obtain ⟨hb, hu, -⟩ := h.parked hc
    exact changes_threadUnblock hb hu
  | intrDisable =>
    have hk : Aux s (s.upd s.cur fun r => { r with level := false }) := aux_upd fun _ => rfl
    exact (Change.aux hk).changes
  | intrEnable =>
    have hk : Aux s (s.upd s.cur fun r => { r with level := true }) := aux_upd fun _ => rfl
    exact (Change.aux hk).changes
  | _ => exact .refl

/-- What a step is: a call, a statement, or an interrupt. -/
theorem step_cases (h : Inv s) {a : Act} (hs : step s a = some s') :
    (∃ r c, a = .call c ∧ s.threads s.cur = some r ∧ r.cont = [] ∧ canCall s r c = true ∧
      s' = (enter s c).goOn (code s.mlfqs s.cur c)) ∨
    (∃ x rest, a = .run ∧ s.conts s.cur = some (x :: rest) ∧ s' = exec s rest x) ∨
    (a = .tick ∧ s' = intrHandler timerInterrupt s) ∨
    (∃ n, a = .intrSemaUp n ∧
      s' = intrHandler (fun s => checkPreemptIntr (semaUp s (.plain n))) s) ∨
    (∃ u, a = .intrUnblock u ∧ parked s u = true ∧ s' = intrHandler (fun s => threadUnblock s u) s) := by
  obtain ⟨r, hr⟩ := h.record h.cur_alive
  have hst : r.status = .running := by
    have hc := h.running.cur
    simpa [St.status, hr] using hc
  have hl : s.conts s.cur = some r.cont := by simp [St.conts, hr]
  simp only [step, h.running.ok, hr, hst, if_true, Bool.false_eq_true, if_false] at hs
  cases a with
  | call c =>
    simp only [stepAt] at hs
    split at hs
    · next hg =>
      cases hs
      exact .inl ⟨r, c, rfl, hr, hg.1, hg.2, rfl⟩
    · cases hs
  | run =>
    simp only [stepAt] at hs
    cases hcont : r.cont with
    | nil => simp [hcont] at hs
    | cons x rest =>
      simp only [hcont, Option.some.injEq] at hs
      exact .inr (.inl ⟨x, rest, rfl, hcont ▸ hl, hs.symm⟩)
  | tick =>
    simp only [stepAt] at hs
    split at hs
    · cases hs
      exact .inr (.inr (.inl ⟨rfl, rfl⟩))
    · cases hs
  | intrSemaUp n =>
    simp only [stepAt] at hs
    split at hs
    · cases hs
      exact .inr (.inr (.inr (.inl ⟨n, rfl, rfl⟩)))
    · cases hs
  | intrUnblock u =>
    simp only [stepAt] at hs
    split at hs
    · next hg =>
      cases hs
      exact .inr (.inr (.inr (.inr ⟨u, rfl, hg.2, rfl⟩)))
    · cases hs

theorem eq_tick_of_step (h : Inv s) (hs : step s .tick = some s') :
    s' = intrHandler timerInterrupt s := by
  obtain ⟨_, _, ha, _⟩ | ⟨_, _, ha, _⟩ | ⟨-, rfl⟩ | ⟨_, ha, _⟩ | ⟨_, ha, _⟩ := step_cases h hs
  · cases ha
  · cases ha
  · rfl
  · cases ha
  · cases ha

/-- An interrupt handler leaves alone what the threads still have to do. -/
theorem conts_intr (h : Inv s) {a : Act} (hs : step s a = some s') (hc : ∀ c, a ≠ .call c) (hr : a ≠ .run)
    {l : List Stmt} (hl : s'.conts t = some l) : s.conts t = some l := by
  obtain ⟨_, c, rfl, _⟩ | ⟨_, _, rfl, _⟩ | ⟨rfl, rfl⟩ | ⟨n, rfl, rfl⟩ | ⟨u, rfl, hp, rfl⟩ := step_cases h hs
  · exact absurd rfl (hc c)
  · exact absurd rfl hr
  · obtain ⟨-, hk⟩ := Running.intrHandler fun d hd => (h.running.same hd).timerInterrupt
    exact hk.conts t l hl
  · obtain ⟨-, hk⟩ := Running.intrHandler (s := s) (D := fun _ => False) fun d hd => by
      obtain ⟨hup, hk⟩ := (h.running.same hd).semaUp (.plain n)
      exact ⟨hup.same same_checkPreemptIntr, hk.trans same_checkPreemptIntr.keeps⟩
    exact hk.conts t l hl
  · obtain ⟨hb, hu, hne, -⟩ := h.parked hp
    obtain ⟨-, hk⟩ := Running.intrHandler (s := s) (D := (· = u)) fun d hd => by
      have hb' : d.status u = some .blocked := by rw [hd.status, hb]
      have hu' : Unlisted d u := fun q hq => hu q (by rwa [hd.queue] at hq)
      have hi' : d.idleThread ≠ some u := fun hi => hne (h.running.idle u (hd.idleThread ▸ hi)).1
      exact (h.running.same hd).threadUnblock hb' hu' hi'
    exact hk.conts t l hl

/-- A call leaves alone what the other threads still have to do, and a new thread starts in `kernel_thread`. -/
theorem conts_call (h : Inv s) {r : Thread} {c : Call} (hc : canCall s r c = true) {new l : List Stmt}
    (ht : t ≠ s.cur) (hl : ((enter s c).goOn new).conts t = some l) : s.conts t = some l ∨
      l = [.kernelThread] ∧ s.threads t = none ∧ ∃ p, c = .threadCreate t p := by
  have hgo : (enter s c).conts t = some l := by
    rw [St.goOn, enter_cur] at hl
    simpa [St.conts, St.upd, ht] using hl
  cases c with
  | threadCreate child p =>
    have hnone : s.threads child = none := by
      simp only [canCall, Bool.and_eq_true, Option.isNone_iff_eq_none] at hc
      exact hc.1.1
    by_cases htc : t = child
    · subst htc
      refine .inr ⟨?_, hnone, p, rfl⟩
      simpa [enter, initThread, St.conts, eq_comm] using hgo
    · exact .inl (by simpa [enter, initThread, St.conts, htc] using hgo)
  | threadUnblock u =>
    obtain ⟨hb, hu, hne, -⟩ := h.parked hc
    obtain ⟨-, hk⟩ := h.running.threadUnblock hb hu fun hi => hne (h.running.idle u hi).1
    exact .inl (hk.conts t l hgo)
  | intrDisable | intrEnable => exact .inl (by simpa [enter, St.conts, St.upd, ht] using hgo)
  | _ => exact .inl hgo

/-- **What a thread has to do after a step.** -/
theorem step_conts (h : Inv s) {a : Act} (hs : step s a = some s') {l : List Stmt}
    (hl : s'.conts t = some l) : s.conts t = some l ∨
      (l = [.kernelThread] ∧ s.threads t = none ∧ ∃ p, a = .call (.threadCreate t p)) ∨
      t = s.cur ∧ ((∃ c, a = .call c ∧ l = code s.mlfqs s.cur c) ∨
        ∃ x rest, a = .run ∧ s.conts s.cur = some (x :: rest) ∧ l = x.after s ++ rest) := by
  obtain ⟨r, c, rfl, hr, hnil, hc, rfl⟩ | ⟨x, rest, rfl, hx, rfl⟩ | ⟨rfl, -⟩ | ⟨n, rfl, -⟩ | ⟨u, rfl, -⟩ :=
    step_cases h hs
  · by_cases ht : t = s.cur
    · subst ht
      exact .inr (.inr ⟨rfl, .inl ⟨c, rfl, call_conts hl⟩⟩)
    · obtain hold | ⟨hnew, hnone, p, rfl⟩ := conts_call h hc ht hl
      · exact .inl hold
      · exact .inr (.inl ⟨hnew, hnone, p, rfl⟩)
  · by_cases ht : t = s.cur
    · subst ht
      exact .inr (.inr ⟨rfl, .inr ⟨x, rest, rfl, hx, exec_conts h hx hl⟩⟩)
    · obtain ⟨e, he⟩ := exec_effect h hx
      have hold := he.keeps.conts t l hl
      rw [he.conts, Function.update_of_ne ht] at hold
      exact .inl hold
  · exact .inl (conts_intr h hs nofun nofun hl)
  · exact .inl (conts_intr h hs nofun nofun hl)
  · exact .inl (conts_intr h hs nofun nofun hl)

theorem cause_eq_tick {a : Act} : s.cause a = .tick ↔ a = .tick := by
  cases a with
  | run =>
    simp only [St.cause, reduceCtorEq, iff_false]
    split <;> exact nofun
  | _ => simp [St.cause]

/-- **Every step is a sequence of elementary changes.** -/
theorem changes_step (h : Inv s) {a : Act} (hs : step s a = some s') :
    Changes (s.cause a) s s' := by
  have hok : s'.panicked = false := (h.step hs).running.ok
  obtain ⟨r, c, rfl, -, -, hc, rfl⟩ | ⟨x, rest, rfl, hl, rfl⟩ | ⟨rfl, rfl⟩ | ⟨n, rfl, rfl⟩ |
    ⟨u, rfl, hp, rfl⟩ := step_cases h hs
  · exact changes_call h hc _
  · have hk : s.cause .run = .stmt x := by simp [St.cause, hl]
    rw [hk]
    exact changes_exec h hl
  · exact changes_intrHandler
      (fun d hd => ⟨(h.running.same hd).timerInterrupt.1, changes_timerInterrupt (h.running.same hd)⟩) hok
  · refine changes_intrHandler (fun d hd => ?_) hok
    have hd' := h.running.same hd
    exact ⟨(hd'.semaUp _).1.same same_checkPreemptIntr,
      (changes_semaUp hd' _).tail (.aux aux_checkPreemptIntr)⟩
  · refine changes_intrHandler (fun d hd => ?_) hok
    obtain ⟨hb, hu, hne, -⟩ := h.parked hp
    have hb' : d.status u = some .blocked := by rw [hd.status, hb]
    have hu' : Unlisted d u := fun q hq => hu q (by rwa [hd.queue] at hq)
    have hi' : d.idleThread ≠ some u := fun hi => hne (h.running.idle u (hd.idleThread ▸ hi)).1
    exact ⟨((h.running.same hd).threadUnblock hb' hu' hi').1, changes_threadUnblock hb' hu'⟩

/-- **Invariant rule for one step**: what every elementary change keeps is kept by a step. -/
theorem step_of_change {P : St → Prop} (h : Inv s) {a : Act} (hs : step s a = some s') (h0 : P s)
    (hc : ∀ x y, P x → Change (s.cause a) x y → P y) : P s' := by
  have hchanges := changes_step h hs
  clear hs
  induction hchanges with
  | refl => exact h0
  | tail _ hxy ih => exact hc _ _ ih hxy

end Changes

end Threads
end Pintos

import Pintos.Threads.Agreement

/-!
# What a step leaves alone

A component that is built on threads and locks and keeps a state of its own for each thread needs to
know what the steps of the other threads leave alone. `Frame L` is what the functions of the
scheduler and the interrupt handlers leave alone in any case: the interrupt level of each thread, the
set of threads, and the locks in `L`. `Moves` is what one step leaves alone of the threads that are
not on the CPU: what they still have to do, their level, that they are alive and that they stay
blocked.

* `exec_frame`, `exec_moves` — for a statement of the thread on the CPU (`exec_effect` says what a
  statement does);
* `frame_intrHandler`, `Keeps.moves` — for an interrupt;
* `exec_spares` — a thread that does not name a lock will not come to name it.
-/

namespace Pintos
namespace Threads

/-- A relation between the states before and after whatever the scheduler does by itself: it writes the status and
the priority of threads and its own variables, and it frees records. -/
structure Neutral (R : St → St → Prop) : Prop where
  refl : ∀ s, R s s
  trans : ∀ {s s' s''}, R s s' → R s' s'' → R s s''
  record : ∀ s t (f : Thread → Thread),
    (∀ r, ∃ x p m k, f r = { r with status := x, priority := p, stamp := m, moved := k }) → R s (s.upd t f)
  vars : ∀ (s : St) ready sleep cur slice yield panicked clock dispatches, R s { s with
    readyList := ready, sleepList := sleep, cur := cur, threadTicks := slice, yieldOnReturn := yield
    panicked := panicked, clock := clock, dispatches := dispatches }
  free : ∀ s t, R s (s.free t)

namespace Neutral

variable {R : St → St → Prop} (h : Neutral R) {s : St} {t : ℕ}
include h

theorem setStatus {y : Status} : R s (s.setStatus t y) := h.record s t _ fun _ => ⟨_, _, _, _, rfl⟩

theorem setPrio {p : ℤ} : R s (s.setPrio t p) := h.record s t _ fun _ => ⟨_, _, _, _, rfl⟩

theorem insertReady : R s (insertReady s t) :=
  h.trans (h.vars s _ _ _ _ _ _ _ _) (h.record _ t _ fun _ => ⟨_, _, _, _, rfl⟩)

theorem threadUnblock : R s (threadUnblock s t) := by
  unfold Threads.threadUnblock
  split
  · exact h.insertReady
  · exact h.vars s _ _ _ _ _ _ _ _

theorem dispatch {n : ℕ} {q : List ℕ} : R s (dispatch s n q) := h.trans (h.vars s _ _ _ _ _ _ _ _) h.setStatus

theorem schedule : R s (schedule s) := by
  unfold Threads.schedule
  split
  · split
    · exact h.vars s _ _ _ _ _ _ _ _
    · dsimp only
      split
      · exact h.trans h.dispatch (h.free _ _)
      · exact h.dispatch
  · exact h.vars s _ _ _ _ _ _ _ _

theorem threadBlock : R s (threadBlock s) := h.trans h.setStatus h.schedule

theorem threadYield : R s (threadYield s) := by
  unfold Threads.threadYield
  refine h.trans ?_ h.schedule
  split
  · exact h.setStatus
  · exact h.insertReady

theorem foldl {g : St → ℕ → St} (hg : ∀ s t, R s (g s t)) (q : List ℕ) : R s (q.foldl g s) := by
  induction q generalizing s with
  | nil => exact h.refl s
  | cons t q ih => exact h.trans (hg s t) ih

theorem checkPreemptIntr : R s (checkPreemptIntr s) := by
  unfold Threads.checkPreemptIntr
  split
  · exact h.vars s _ _ _ _ _ _ _ _
  · exact h.refl s

theorem threadCalcPriority : R s (threadCalcPriority s t) := by
  unfold Threads.threadCalcPriority
  split
  · exact h.setPrio
  · exact h.refl s

theorem threadUpdatePriority : R s (threadUpdatePriority s t) := by
  unfold Threads.threadUpdatePriority
  split
  · exact h.refl s
  · exact h.threadCalcPriority

theorem threadWakeUp : R s (threadWakeUp s) := by
  have hloop : ∀ q {d : St}, R d (wakeUpLoop q d) := by
    intro q
    induction q with
    | nil => exact h.refl _
    | cons t q ih =>
      intro d
      rw [wakeUpLoop]
      split
      · exact h.refl d
      · exact h.trans (h.trans (h.vars d _ _ _ _ _ _ _ _) h.threadUnblock) ih
  exact h.trans (hloop _) h.checkPreemptIntr

theorem threadAging : R s (threadAging s) := by
  refine h.trans (h.foldl (fun s t => ?_) _) h.checkPreemptIntr
  unfold ageThread
  split
  · exact h.setPrio
  · exact h.refl s

theorem mlfqsSort : R s (Threads.checkPreemptIntr (mlfqsSort s)) :=
  h.trans (h.trans (h.foldl (fun _ _ => h.threadUpdatePriority) _) (h.vars _ _ _ _ _ _ _ _ _)) h.checkPreemptIntr

/-- The timer interrupt also counts, and computes the numbers of the BSD scheduler. -/
theorem timerInterrupt (hticks : ∀ (s : St) n, R s { s with ticks := n })
    (hload : ∀ (s : St) x, R s { s with loadAvg := x })
    (hcpu : ∀ s t (f : Thread → Thread), (∀ r, ∃ x, f r = { r with recentCpu := x }) → R s (s.upd t f)) :
    R s (timerInterrupt s) :=
  timerInterrupt_rule (P := R s) (Q := R s)
    (h.trans (hticks s (s.ticks + 1)) (h.vars _ _ _ _ _ _ _ _ _)) (fun _ hd => h.trans hd (h.vars _ _ _ _ _ _ _ _ _))
    (fun _ hd => h.trans hd h.threadWakeUp) (fun _ hd _ => h.trans hd h.threadAging) fun _ hd _ =>
      h.trans hd (threadMlfqsTick_rule (h.refl _) (fun d hd => h.trans hd (hcpu d _ _ fun _ => ⟨_, rfl⟩))
        (fun d hd => h.trans hd (h.trans (hload d _) (h.foldl (fun d t => hcpu d t _ fun _ => ⟨_, rfl⟩) _)))
        fun _ hd => h.trans hd h.mlfqsSort)

theorem intrHandler {g : St → St} (hg : ∀ d, R d (g d)) : R s (intrHandler g s) := by
  have hs := h.trans (h.vars s s.readyList s.sleepList s.cur s.threadTicks false s.panicked s.clock s.dispatches) (hg _)
  unfold Threads.intrHandler
  dsimp only
  split
  · exact h.trans hs h.threadYield
  · exact hs

end Neutral

/-- The scheduler leaves the semaphores alone. -/
theorem neutral_sema : Neutral fun s d => d.sema = s.sema where
  refl _ := rfl
  trans h h' := h'.trans h
  record _ _ _ _ := rfl
  vars _ _ _ _ _ _ _ _ _ := rfl
  free _ _ := rfl

/-- Whether the code of the thread in page `t` runs with interrupts on. -/
def St.level (s : St) (t : ℕ) : Option Bool := (s.threads t).map Thread.level

structure Frame (L : ℕ → Prop) (s s' : St) : Prop where
  level : ∀ t b, s'.level t = some b → s.level t = some b
  allList : s'.allList = s.allList
  value : ∀ l, L l → (s'.sema (.lock l)).value = (s.sema (.lock l)).value
  holder : ∀ l, L l → s'.holder l = s.holder l

/-- What a step does to the threads that it is not about. It is about those in `X`, and it makes
those in `D` ready. -/
structure Moves (X D : ℕ → Prop) (s s' : St) : Prop where
  alive : ∀ t, ¬ X t → t ∈ s.allList → t ∈ s'.allList
  conts : ∀ t, ¬ X t → t ∈ s.allList → s'.conts t = s.conts t
  level : ∀ t, ¬ X t → t ∈ s.allList → s'.level t = s.level t
  -- only a new thread has something to do that no thread had to do before
  born : ∀ t l, ¬ X t → s'.conts t = some l → s.conts t = some l ∨ l = [.kernelThread]
  spared : ∀ t, ¬ D t → s.idleThread ≠ some t → s.status t = some .blocked → Unlisted s t →
    s'.status t = some .blocked

section Frame

variable {s s' s'' d : St} {t : ℕ} {L : ℕ → Prop} {f : Thread → Thread}

theorem Frame.refl (s : St) : Frame L s s := ⟨fun _ _ h => h, rfl, fun _ _ => rfl, fun _ _ => rfl⟩

theorem Frame.trans (h : Frame L s s') (h' : Frame L s' s'') : Frame L s s'' :=
  ⟨fun t b hb => h.level t b (h'.level t b hb), h'.allList.trans h.allList,
    fun l hl => (h'.value l hl).trans (h.value l hl),
    fun l hl => (h'.holder l hl).trans (h.holder l hl)⟩

/-- A change of a record that leaves its level alone. -/
theorem frame_update (ht : s'.threads = Function.update s.threads t ((s.threads t).map f))
    (ha : s'.allList = s.allList) (hs : s'.sema = s.sema) (hh : s'.holder = s.holder)
    (hf : ∀ r, (f r).level = r.level) : Frame L s s' := by
  refine ⟨fun u b hb => ?_, ha, fun l _ => by rw [hs], fun l _ => by rw [hh]⟩
  unfold St.level at hb ⊢
  rw [ht] at hb
  by_cases hu : u = t
  · subst hu
    cases hr : s.threads u with
    | none => simp [hr] at hb
    | some r => simpa [hr, hf] using hb
  · rwa [Function.update_of_ne hu] at hb

theorem frame_upd (hf : ∀ r, (f r).level = r.level) : Frame L s (s.upd t f) :=
  frame_update rfl rfl rfl rfl hf

theorem frame_goOn {k : List Stmt} : Frame L s (s.goOn k) := frame_upd fun _ => rfl

theorem Frame.goOn (h : Frame L s d) {k : List Stmt} : Frame L s (d.goOn k) := h.trans frame_goOn

/-- A change outside of the records and of the locks. -/
theorem frame_of_threads (ht : s'.threads = s.threads) (ha : s'.allList = s.allList)
    (hs : s'.sema = s.sema) (hh : s'.holder = s.holder) : Frame L s s' :=
  ⟨fun t b hb => by simpa [St.level, ht] using hb, ha, fun l _ => by rw [hs], fun l _ => by rw [hh]⟩

theorem frame_free : Frame L s (s.free t) := by
  refine ⟨fun u b hb => ?_, rfl, fun _ _ => rfl, fun _ _ => rfl⟩
  by_cases hu : u = t
  · simp [St.level, St.free, hu] at hb
  · simpa [St.level, St.free, Function.update_of_ne hu] using hb

theorem neutral_frame : Neutral (Frame L) where
  refl := Frame.refl
  trans := Frame.trans
  record s t f hf := frame_upd fun r => by obtain ⟨_, _, _, _, he⟩ := hf r; rw [he]
  vars _ _ _ _ _ _ _ _ _ := frame_of_threads rfl rfl rfl rfl
  free _ _ := frame_free

/-! ### Semaphores -/

theorem frame_setSema {y : Sema} {v : Semaphore} (hy : ∀ l, L l → y ≠ .lock l) :
    Frame L s (s.setSema y v) := by
  refine ⟨fun _ _ hb => hb, rfl, fun l hl => ?_, fun _ _ => rfl⟩
  change (Function.update s.sema y v (.lock l)).value = _
  rw [Function.update_of_ne (Ne.symm (hy l hl))]

/-- A change of the waiters of a semaphore. -/
theorem frame_setWaiters {y : Sema} {q : List ℕ} :
    Frame L s (s.setSema y { s.sema y with waiters := q }) := by
  refine ⟨fun _ _ hb => hb, rfl, fun l _ => ?_, fun _ _ => rfl⟩
  change (Function.update s.sema y _ (.lock l)).value = _
  by_cases hl : (.lock l : Sema) = y
  · subst hl
    rw [Function.update_self]
  · rw [Function.update_of_ne hl]

theorem frame_semaUp {y : Sema} (hy : ∀ l, L l → y ≠ .lock l) : Frame L s (semaUp s y) := by
  unfold semaUp
  cases (s.sema y).waiters with
  | nil => exact frame_setSema hy
  | cons t q => exact frame_setWaiters.trans (neutral_frame.threadUnblock.trans (frame_setSema hy))

theorem frame_setHolder {m : ℕ} {a : Option ℕ} (hm : ∀ l, L l → m ≠ l) :
    Frame L s { s with holder := Function.update s.holder m a } := by
  refine ⟨fun _ _ hb => hb, rfl, fun _ _ => rfl, fun l hl => ?_⟩
  exact Function.update_of_ne (Ne.symm (hm l hl)) _ _

theorem frame_timerInterrupt : Frame L s (timerInterrupt s) :=
  neutral_frame.timerInterrupt (fun _ _ => frame_of_threads rfl rfl rfl rfl)
    (fun _ _ => frame_of_threads rfl rfl rfl rfl) fun s t f hf => frame_upd fun r => by
      obtain ⟨_, he⟩ := hf r
      rw [he]

end Frame

/-! ### One statement -/

/-- The statement does not name the lock `l`. -/
def Stmt.spares (l : ℕ) : Stmt → Bool
  | .down y | .downAgain y | .tryDown y | .up y => y ≠ .lock l
  | .setHolder m | .clearHolder m | .tryAcquire m => m ≠ l
  | _ => true

/-- A statement is a change of the caller and of its `cont`, to the state `e`, and then an operation
that spares everybody else. `new` is what the caller has to do in front of the rest. -/
structure Effect (x : Stmt) (rest : List Stmt) (s e s' : St) (new : List Stmt) : Prop where
  conts : e.conts = Function.update s.conts s.cur (some (new ++ rest))
  status : ∀ t, t ≠ s.cur → e.status t = s.status t
  unlisted : ∀ t, t ≠ s.cur → Unlisted s t → Unlisted e t
  idle : ∀ t, t ≠ s.cur → s.idleThread ≠ some t → e.idleThread ≠ some t
  spares : ∀ l, x.spares l = true → ∀ y ∈ new, y.spares l = true
  keeps : Keeps (fun c => x = .unblock c) e s'

section Exec

variable {s s' d : St} {t l : ℕ} {x : Stmt} {rest new : List Stmt} {L : ℕ → Prop}

theorem Keeps.of_false {D : ℕ → Prop} (h : Keeps (fun _ => False) s s') (hD : ∀ c, ¬ D c) :
    Keeps D s s' :=
  ⟨h.conts, h.idleThread, h.waiters, fun c _ => h.spared c id, fun c hc => ⟨(h.blocked c hc).1, hD c⟩,
    h.mlfqs⟩

/-- A statement that ends in an operation `s'` after the caller has gone on. -/
theorem Effect.op (new : List Stmt) (hl : s.conts s.cur = some (x :: rest)) (hs : Same s d)
    (hk : Keeps (fun _ => False) (d.goOn (new ++ rest)) s') (hx : ∀ c, x ≠ .unblock c)
    (hnew : ∀ l, x.spares l = true → ∀ y ∈ new, y.spares l = true) :
    Effect x rest s (d.goOn (new ++ rest)) s' new := by
  have hld : d.conts d.cur = some (x :: rest) := by rw [hs.conts, hs.cur]; exact hl
  refine ⟨?_, fun t _ => ?_, fun t _ hu q hq => hu q ?_, fun t _ hi => ?_, hnew, hk.of_false hx⟩
  · rw [goOn_conts hld, hs.conts, hs.cur]
  · rw [status_goOn, hs.status]
  · rwa [← hs.queue]
  · change d.idleThread ≠ some t
    rwa [hs.idleThread]

/-- A statement that only goes on. -/
theorem Effect.goOn (new : List Stmt) (hl : s.conts s.cur = some (x :: rest)) (hs : Same s d)
    (hx : ∀ c, x ≠ .unblock c)
    (hnew : ∀ l, x.spares l = true → ∀ y ∈ new, y.spares l = true) :
    Effect x rest s (d.goOn (new ++ rest)) (d.goOn (new ++ rest)) new :=
  Effect.op new hl hs (Same.refl _).keeps hx hnew

/-- A statement that ends in `thread_block`, with the caller in a queue or not. -/
theorem Effect.block (new : List Stmt) (hl : s.conts s.cur = some (x :: rest))
    (hd : d.conts = (s.goOn (new ++ rest)).conts) (hst : d.status = s.status) (hcur : d.cur = s.cur)
    (hidle : d.idleThread = s.idleThread) (hq : ∀ q u, u ∈ d.queue q → u ∈ s.queue q ∨ u = s.cur)
    (hok : (threadBlock d).panicked = false) (hx : ∀ c, x ≠ .unblock c)
    (hnew : ∀ l, x.spares l = true → ∀ y ∈ new, y.spares l = true) :
    Effect x rest s (d.setStatus d.cur .blocked) (threadBlock d) new := by
  refine ⟨?_, fun t ht => ?_, fun t ht hu q hm => ?_, fun t _ hi => ?_, hnew,
    (keeps_schedule hok).of_false hx⟩
  · have hc : (d.setStatus d.cur .blocked).conts = d.conts := conts_upd fun _ => rfl
    rw [hc, hd, goOn_conts hl]
  · rw [← hst]
    exact status_upd_of_ne (hcur ▸ ht)
  · rcases hq q t hm with hm | he
    · exact hu q hm
    · exact ht he
  · change d.idleThread ≠ some t
    rwa [hidle]

theorem Effect.semaDown {y : Sema} (hl : s.conts s.cur = some (x :: rest))
    (hok : (semaDown s y rest).panicked = false) (hx : ∀ c, x ≠ .unblock c)
    (hy : ∀ l, x.spares l = true → y ≠ .lock l) :
    ∃ e, Effect x rest s e (semaDown s y rest) (Stmt.after s (.down y)) := by
  unfold Threads.semaDown at hok ⊢
  by_cases hv : (s.sema y).value = 0
  · rw [if_pos hv] at hok ⊢
    rw [show Stmt.after s (.down y) = [.downAgain y] from if_pos hv]
    refine ⟨_, Effect.block [.downAgain y] hl rfl status_goOn rfl rfl ?_ hok hx ?_⟩
    · intro q u hu
      change u ∈ (s.setSema y _).queue q at hu
      rw [queue_setSema] at hu
      by_cases hq : q = .waiters y
      · subst hq
        rw [Function.update_self, mem_listInsertOrdered] at hu
        exact hu.symm
      · rw [Function.update_of_ne hq] at hu
        exact .inl hu
    · intro l hsp z hz
      obtain rfl := List.mem_singleton.mp hz
      simpa [Stmt.spares] using hy l hsp
  · rw [if_neg hv, show Stmt.after s (.down y) = [] from if_neg hv]
    exact ⟨_, Effect.goOn [] hl (same_setSema rfl) hx (by simp)⟩

theorem after_spares (hx : x.spares l = true) : ∀ y ∈ x.after s, y.spares l = true := by
  cases x with
  | checkPreempt | sleepTest start n | down y | downAgain y | tryAcquire k | condSignal c | condBroadcast c =>
    simp only [Stmt.after]
    split <;> simp_all [Stmt.spares]
  | _ => simp [Stmt.after, Stmt.spares]

/-- **What a statement does**, in the state it starts from and in the order of its parts. -/
theorem exec_effect (h : Inv s) (hl : s.conts s.cur = some (x :: rest)) :
    ∃ e, Effect x rest s e (exec s rest x) (x.after s) := by
  have hok := (h.exec hl).running.ok
  have hrun := h.running.goOn rest
  by_cases hplain : x.plain = true
  · rw [exec_plain hplain]
    exact ⟨_, Effect.goOn _ hl (h.same_act x) (by rintro c rfl; cases hplain) fun _ => after_spares⟩
  cases x with
  | setIdle =>
    refine ⟨{ s with idleThread := some s.cur }.goOn rest, ?_, fun t _ => ?_, fun _ _ hu => hu,
      fun t ht _ => ?_, by simp [Stmt.after], (Same.refl _).keeps.of_false (by simp)⟩
    · exact goOn_conts (s := { s with idleThread := some s.cur }) hl rest
    · exact congrFun (status_goOn (s := { s with idleThread := some s.cur }) (l := rest)) t
    · exact fun he => ht (Option.some.inj he).symm
  | idleLoop | block =>
    exact ⟨_, Effect.block _ hl rfl status_goOn rfl rfl (fun _ _ hu => .inl hu) hok (by simp)
      fun _ => after_spares⟩
  | unblock t =>
    have hn := h.conts.newborn _ _ t hl List.mem_cons_self
    have hti : (s.goOn rest).idleThread ≠ some t := fun hi =>
      hn.ne_idle h.idle (h.running.idle t hi).1
    obtain ⟨-, hk⟩ := hrun.threadUnblock (status_goOn (s := s) ▸ hn.blocked) hn.unlisted hti
    refine ⟨_, goOn_conts hl rest, fun u _ => ?_, fun _ _ hu => hu, fun _ _ hi => hi,
      by simp [Stmt.after], ?_⟩
    · rw [status_goOn]
    · exact ⟨hk.conts, hk.idleThread, hk.waiters, fun c hc => hk.spared c fun he => hc (by rw [he]),
        fun c hc => ⟨(hk.blocked c hc).1, fun he => (hk.blocked c hc).2 (Stmt.unblock.inj he).symm⟩,
        hk.mlfqs⟩
  | yield => exact ⟨_, Effect.op [] hl (Same.refl s) hrun.threadYield.2 (by simp) (by simp)⟩
  | exit =>
    exact ⟨_, Effect.op [] hl (Same.refl s) (hrun.threadExit (h.idle.ne hl rfl)).2 (by simp)
      (by simp)⟩
  | sleep n =>
    have hs : Same s (s.upd s.cur fun t => { t with wakeupTick := n }) :=
      Same.upd (fun _ => rfl) fun _ => rfl
    refine ⟨_, Effect.block [] hl ?_ ?_ rfl rfl ?_ hok (by simp) (by simp)⟩
    · change ((s.upd s.cur fun t => { t with wakeupTick := n }).goOn rest).conts = _
      rw [goOn_conts (s := s.upd s.cur fun t => { t with wakeupTick := n }) (hs.conts ▸ hl),
        goOn_conts hl, hs.conts]
      rfl
    · exact (status_goOn (s := s.upd s.cur fun t => { t with wakeupTick := n })).trans hs.status
    · intro q u hu
      cases q with
      | sleep => exact (mem_listInsertOrdered.mp hu).symm
      | _ => exact .inl hu
  | down y | downAgain y => exact Effect.semaDown hl hok (by simp) (by simp [Stmt.spares])
  | up y => exact ⟨_, Effect.op [] hl (Same.refl s) (hrun.semaUp y).2 (by simp) (by simp)⟩
  | _ => exact absurd rfl hplain

/-- **What a statement leaves alone**: the levels, the threads and the locks it does not name.
`kernel_thread` turns interrupts on, and `thread_exit` ends a thread. -/
theorem exec_frame (hk : x ≠ .kernelThread) (he : x ≠ .exit) (hx : ∀ l, L l → x.spares l = true) :
    Frame L s (exec s rest x) := by
  have hdown : ∀ y : Sema, (∀ l, L l → y ≠ .lock l) → Frame L s (semaDown s y rest) := by
    intro y hy
    unfold semaDown
    split
    · exact frame_setWaiters.trans (frame_goOn.trans neutral_frame.threadBlock)
    · exact (frame_setSema hy).trans frame_goOn
  cases x with
  | kernelThread => exact absurd rfl hk
  | exit => exact absurd rfl he
  | setIdle =>
    refine Frame.goOn ?_
    exact frame_of_threads rfl rfl rfl rfl
  | idleLoop | block => exact frame_goOn.trans neutral_frame.threadBlock
  | allocTid child =>
    have hs : Frame L s { s with nextTid := s.nextTid + 1 } := frame_of_threads rfl rfl rfl rfl
    have hu : Frame L s ({ s with nextTid := s.nextTid + 1 }.upd child fun t =>
        { t with tid := s.nextTid }) := hs.trans (frame_upd fun _ => rfl)
    exact hu.goOn
  | inherit child =>
    refine Frame.goOn ?_
    cases s.threads s.cur with
    | none =>
      split
      · exact neutral_frame.threadCalcPriority
      · exact Frame.refl s
    | some t =>
      have hs : Frame L s (s.upd child fun c => { c with nice := t.nice, recentCpu := t.recentCpu }) :=
        frame_upd fun _ => rfl
      split
      · exact hs.trans neutral_frame.threadCalcPriority
      · exact hs
  | unblock t => exact frame_goOn.trans neutral_frame.threadUnblock
  | yield => exact frame_goOn.trans neutral_frame.threadYield
  | checkPreempt | unblocked | readTicks n | sleepTest start n => exact frame_goOn
  | sleep n =>
    have hs : Frame L s (s.upd s.cur fun t => { t with wakeupTick := n }) := frame_upd fun _ => rfl
    simp only [Threads.exec]
    refine Frame.trans ?_ neutral_frame.threadBlock
    exact (hs.goOn (k := rest)).trans (frame_of_threads rfl rfl rfl rfl)
  | down y | downAgain y => exact hdown y fun l hl => by simpa [Stmt.spares] using hx l hl
  | tryDown y =>
    exact (frame_setSema fun l hl => by simpa [Stmt.spares] using hx l hl).goOn
  | up y =>
    exact frame_goOn.trans (frame_semaUp fun l hl => by simpa [Stmt.spares] using hx l hl)
  | setHolder m | clearHolder m =>
    exact (frame_setHolder fun l hl => by simpa [Stmt.spares] using hx l hl).goOn
  | tryAcquire m =>
    have hm : ∀ l, L l → m ≠ l := fun l hl => by simpa [Stmt.spares] using hx l hl
    simp only [Threads.exec]
    split
    · exact frame_goOn
    · exact (frame_setSema fun l hl => by simpa using hm l hl).goOn
  | condPush c =>
    have hs : Frame L s { s with
        condWaiters := Function.update s.condWaiters c (s.condWaiters c ++ [s.cur]) } :=
      frame_of_threads rfl rfl rfl rfl
    exact (hs.trans (frame_setSema (by simp))).goOn
  | condSignal c | condBroadcast c =>
    simp only [Threads.exec]
    split
    · exact frame_goOn
    · refine Frame.goOn ?_
      exact frame_of_threads rfl rfl rfl rfl
  | setPriority p => exact neutral_frame.setPrio.goOn
  | setNice n =>
    have hs : Frame L s (s.upd s.cur fun t => { t with nice := n }) := frame_upd fun _ => rfl
    refine Frame.goOn ?_
    split
    · exact hs.trans neutral_frame.threadCalcPriority
    · exact hs

/-- `thread_exit` takes the caller off `all_list`, and leaves the rest of a frame alone. -/
theorem frame_threadExit : Frame L { s with allList := s.allList.erase s.cur } (threadExit s) :=
  neutral_frame.setStatus.trans neutral_frame.schedule

/-- `kernel_thread` changes the level of the caller only. -/
theorem frame_kernelThread (s : St) (rest : List Stmt) :
    (exec s rest .kernelThread).allList = s.allList ∧
      (exec s rest .kernelThread).sema = s.sema ∧ (exec s rest .kernelThread).holder = s.holder ∧
      ∀ t, t ≠ s.cur → (exec s rest .kernelThread).level t = s.level t := by
  refine ⟨rfl, rfl, rfl, fun t ht => ?_⟩
  simp [exec, St.goOn, St.level, St.upd, Function.update_of_ne ht]

/-- No statement changes a lock that it does not name. -/
theorem exec_lock (hx : x.spares l = true) :
    ((exec s rest x).sema (.lock l)).value = (s.sema (.lock l)).value ∧
      (exec s rest x).holder l = s.holder l := by
  by_cases hk : x = .kernelThread
  · subst hk
    obtain ⟨-, hs, hh, -⟩ := frame_kernelThread s rest
    rw [hs, hh]
    exact ⟨rfl, rfl⟩
  · by_cases he : x = .exit
    · subst he
      have hf := frame_threadExit (s := s.goOn rest) (L := (· = l))
      exact ⟨hf.value l rfl, hf.holder l rfl⟩
    · have hf : Frame (· = l) s (exec s rest x) := exec_frame hk he fun m hm => hm ▸ hx
      exact ⟨hf.value l rfl, hf.holder l rfl⟩

/-- A lock's semaphore has one unit less after `sema_down`, unless the caller sleeps. -/
theorem semaDown_lock (rest : List Stmt) : ((semaDown s (.lock l) rest).sema (.lock l)).value =
    (s.sema (.lock l)).value - 1 ∧ (semaDown s (.lock l) rest).holder = s.holder := by
  unfold semaDown
  split
  · rename_i hv
    have hf : Frame (fun _ => True) s (threadBlock ((s.setSema (.lock l) { s.sema (.lock l) with
        waiters := listInsertOrdered (priorityGreater s) s.cur (s.sema (.lock l)).waiters }).goOn
          (.downAgain (.lock l) :: rest))) :=
      frame_setWaiters.trans (frame_goOn.trans neutral_frame.threadBlock)
    refine ⟨?_, funext fun m => hf.holder m trivial⟩
    rw [hf.value l trivial, hv]
  · refine ⟨?_, rfl⟩
    change (Function.update s.sema (.lock l) _ (.lock l)).value = _
    rw [Function.update_self]

theorem semaUp_lock : ((semaUp s (.lock l)).sema (.lock l)).value = (s.sema (.lock l)).value + 1 ∧
    (semaUp s (.lock l)).holder = s.holder := by
  -- waking a waiter changes neither
  have hw : ∀ d : St, Frame (fun _ => True) s d →
      ((d.setSema (.lock l) { d.sema (.lock l) with value := (d.sema (.lock l)).value + 1 }).sema
        (.lock l)).value = (s.sema (.lock l)).value + 1 ∧ d.holder = s.holder := by
    intro d hd
    refine ⟨?_, funext fun m => hd.holder m trivial⟩
    change (Function.update d.sema (.lock l) _ (.lock l)).value = _
    rw [Function.update_self, ← hd.value l trivial]
  unfold semaUp
  cases (s.sema (.lock l)).waiters with
  | nil => exact hw s (Frame.refl s)
  | cons t q => exact hw _ (frame_setWaiters.trans neutral_frame.threadUnblock)

/-! ### What a step is about -/

theorem mem_allList (h : Inv s) : t ∈ s.allList ↔ ∃ x, s.status t = some x ∧ x ≠ .dying :=
  h.running.core.all t

theorem Inv.cur_alive (h : Inv s) : s.cur ∈ s.allList :=
  (mem_allList h).mpr ⟨.running, h.running.cur, by simp⟩

/-- A living thread has a record. -/
theorem Inv.record (h : Inv s) (ht : t ∈ s.allList) : ∃ r, s.threads t = some r := by
  obtain ⟨x, hx, -⟩ := (mem_allList h).mp ht
  cases hr : s.threads t with
  | none => simp [St.status, hr] at hx
  | some r => exact ⟨r, rfl⟩

/-- It is enough to know what the records are after the step. -/
theorem Moves.of_inv {X D : ℕ → Prop} (h' : Inv s')
    (halive : ∀ t, ¬ X t → t ∈ s.allList → t ∈ s'.allList)
    (hconts : ∀ t k, ¬ X t → s'.conts t = some k → s.conts t = some k)
    (hlevel : ∀ t b, ¬ X t → s'.level t = some b → s.level t = some b)
    (hspared : ∀ t, ¬ D t → s.idleThread ≠ some t → s.status t = some .blocked → Unlisted s t →
      s'.status t = some .blocked) : Moves X D s s' := by
  refine ⟨halive, fun t hX ht => ?_, fun t hX ht => ?_, fun t k hX hk => .inl (hconts t k hX hk),
    hspared⟩
  · obtain ⟨r, hr⟩ := h'.record (halive t hX ht)
    have hk : s'.conts t = some r.cont := by simp [St.conts, hr]
    rw [hk, hconts t _ hX hk]
  · obtain ⟨r, hr⟩ := h'.record (halive t hX ht)
    have hb : s'.level t = some r.level := by simp [St.level, hr]
    rw [hb, hlevel t _ hX hb]

theorem Moves.mono {X Y D : ℕ → Prop} (h : Moves X D s s') (hXY : ∀ t, X t → Y t) :
    Moves Y D s s' :=
  ⟨fun t ht => h.alive t fun hx => ht (hXY t hx), fun t ht => h.conts t fun hx => ht (hXY t hx),
    fun t ht => h.level t fun hx => ht (hXY t hx), fun t l ht => h.born t l fun hx => ht (hXY t hx),
    h.spared⟩

/-- An operation that is about nobody. -/
theorem Keeps.moves {D : ℕ → Prop} (hk : Keeps D s s') (hf : Frame L s s') (h' : Inv s') :
    Moves (fun _ => False) D s s' :=
  Moves.of_inv h' (fun t _ ht => by rwa [hf.allList]) (fun t k _ => hk.conts t k)
    (fun t b _ => hf.level t b) fun t hD hi hb hu => (hk.spared t hD hi hb hu).1

/-- The thread on the CPU goes on. -/
theorem goOn_moves {D : ℕ → Prop} (h' : Inv (s.goOn new)) : Moves (· = s.cur) D s (s.goOn new) := by
  refine Moves.of_inv h' (fun t _ ht => ht) (fun t k ht hk => ?_)
    (fun t b _ hb => (frame_goOn (L := fun _ => False)).level t b hb) fun t _ _ hb _ => ?_
  · simpa [St.goOn, St.conts, St.upd, Function.update_of_ne ht] using hk
  · rw [status_goOn]
    exact hb

theorem Moves.refl {X D : ℕ → Prop} (s : St) : Moves X D s s :=
  ⟨fun _ _ h => h, fun _ _ _ => rfl, fun _ _ _ => rfl, fun _ _ _ h => .inl h, fun _ _ _ h _ => h⟩

/-- It makes no difference what the thread on the CPU is said to go on with. -/
theorem Moves.of_goOn {D : ℕ → Prop} (h : Moves (· = s.cur) D (s.goOn new) s') :
    Moves (· = s.cur) D s s' := by
  have hother : ∀ {t}, t ≠ s.cur → (s.goOn new).threads t = s.threads t := fun ht =>
    Function.update_of_ne ht _ _
  refine ⟨h.alive, fun t ht hm => ?_, fun t ht hm => ?_, fun t l ht hl => ?_, fun t hD hi hb hu => ?_⟩
  · rw [h.conts t ht hm, St.conts, hother ht, St.conts]
  · rw [h.level t ht hm, St.level, hother ht, St.level]
  · refine (h.born t l ht hl).imp_left fun hc => ?_
    rwa [St.conts, hother ht] at hc
  · exact h.spared t hD hi (by rw [status_goOn]; exact hb) hu

/-- **A statement is about the thread on the CPU.** -/
theorem exec_moves (h : Inv s) (hl : s.conts s.cur = some (x :: rest)) :
    Moves (· = s.cur) (fun c => x = .unblock c) s (exec s rest x) := by
  obtain ⟨e, he⟩ := exec_effect h hl
  have hlevel : (∀ t b, t ≠ s.cur → (Threads.exec s rest x).level t = some b → s.level t = some b) ∧
      ∀ t, t ≠ s.cur → t ∈ s.allList → t ∈ (Threads.exec s rest x).allList := by
    by_cases hk : x = .kernelThread
    · subst hk
      obtain ⟨ha, -, -, hlev⟩ := frame_kernelThread s rest
      refine ⟨fun t b ht hb => ?_, fun t _ hm => ?_⟩
      · rwa [hlev t ht] at hb
      · rwa [ha]
    · by_cases hex : x = .exit
      · subst hex
        have hf := frame_threadExit (s := s.goOn rest) (L := fun _ => False)
        refine ⟨fun t b _ hb => ?_, fun t ht hm => ?_⟩
        · exact (frame_goOn (L := fun _ => False)).level t b (hf.level t b hb)
        · change t ∈ (threadExit (s.goOn rest)).allList
          rw [hf.allList]
          exact (List.mem_erase_of_ne ht).mpr hm
      · have hf : Frame (fun _ => False) s (exec s rest x) := exec_frame hk hex (by simp)
        refine ⟨fun t b _ => hf.level t b, fun t _ hm => ?_⟩
        rwa [hf.allList]
  refine Moves.of_inv (h.exec hl) hlevel.2 (fun t k ht hk => ?_) hlevel.1 fun t hD hi hb hu => ?_
  · have hk' := he.keeps.conts t k hk
    rwa [he.conts, Function.update_of_ne ht] at hk'
  · have ht : t ≠ s.cur := by
      rintro rfl
      rw [h.running.cur] at hb
      cases hb
    exact (he.keeps.spared t hD (he.idle t ht hi) ((he.status t ht).trans hb)
      (he.unlisted t ht hu)).1

/-- What the caller has to do after a statement, as long as it lives. -/
theorem exec_conts (h : Inv s) (hl : s.conts s.cur = some (x :: rest)) {k : List Stmt}
    (hk : (exec s rest x).conts s.cur = some k) : k = x.after s ++ rest := by
  obtain ⟨e, he⟩ := exec_effect h hl
  have hk' := he.keeps.conts _ k hk
  rw [he.conts, Function.update_self] at hk'
  exact (Option.some.inj hk').symm

/-- What a thread will have to do names no lock that it did not name before. -/
theorem exec_spares (h : Inv s) (hl : s.conts s.cur = some (x :: rest))
    (hx : ∀ y ∈ x :: rest, y.spares l = true) {k : List Stmt}
    (hk : (exec s rest x).conts s.cur = some k) : ∀ y ∈ k, y.spares l = true := by
  obtain ⟨e, he⟩ := exec_effect h hl
  obtain rfl := exec_conts h hl hk
  intro y hy
  rcases List.mem_append.mp hy with hy | hy
  · exact he.spares l (hx x List.mem_cons_self) y hy
  · exact hx y (List.mem_cons_of_mem x hy)

/-- The caller of `thread_block` is blocked, if it is not the idle thread. -/
theorem exec_block_status (h : Inv s) (hl : s.conts s.cur = some (.block :: rest)) :
    (exec s rest .block).status s.cur = some .blocked := by
  have hok := (h.exec hl).running.ok
  have hidle : s.idleThread ≠ some s.cur := fun hi => h.idle.ne hl rfl (h.running.idle _ hi).1
  refine ((keeps_schedule hok).spared s.cur id hidle ?_ ?_).1
  · have hs : (s.goOn (.unblocked :: rest)).status s.cur = some .running := by
      rw [status_goOn]
      exact h.running.cur
    have hb := status_set (f := fun r => { r with status := .blocked }) hs fun _ => rfl
    have he := congrFun hb s.cur
    rwa [Function.update_self] at he
  · exact h.running.cur_unlisted

/-! ### Calls -/

theorem enter_cur {c : Call} : (enter s c).cur = s.cur := by
  cases c with
  | threadUnblock u =>
    simp only [enter, threadUnblock]
    split <;> rfl
  | _ => rfl

/-- The caller goes on with the code of the operation. -/
theorem call_conts {c : Call} {k : List Stmt}
    (hk : ((enter s c).goOn new).conts s.cur = some k) : k = new := by
  rw [St.goOn, enter_cur] at hk
  cases hr : (enter s c).threads s.cur with
  | none => simp [St.conts, St.upd, hr] at hk
  | some r =>
    simp only [St.conts, St.upd, Function.update_self, hr, Option.map_some, Option.some.injEq] at hk
    exact hk.symm

/-- A call by itself changes no lock. -/
theorem call_lock {c : Call} : (((enter s c).goOn new).sema (.lock l)).value =
    (s.sema (.lock l)).value ∧ ((enter s c).goOn new).holder l = s.holder l := by
  cases c with
  | threadUnblock u =>
    have hf : Frame (fun _ => True) s ((threadUnblock s u).goOn new) := neutral_frame.threadUnblock.goOn
    exact ⟨hf.value l trivial, hf.holder l trivial⟩
  | _ => exact ⟨rfl, rfl⟩

/-- The new thread is the only one that `init_thread` is about. -/
theorem initThread_moves {child : ℕ} {p : ℤ} (hnone : s.threads child = none)
    (h : Inv s) {D : ℕ → Prop} : Moves (· = s.cur) D s ((initThread s child p).goOn new) := by
  have hne : ∀ {t}, t ∈ s.allList → t ≠ child := by
    rintro t ht rfl
    obtain ⟨r, hr⟩ := h.record ht
    rw [hnone] at hr
    cases hr
  have hother : ∀ {t}, t ≠ s.cur → t ≠ child →
      ((initThread s child p).goOn new).threads t = s.threads t := by
    intro t htc ht
    change Function.update (Function.update s.threads child _) s.cur _ t = _
    rw [Function.update_of_ne htc, Function.update_of_ne ht]
  refine ⟨fun t _ ht => List.mem_append_left _ ht, fun t htc ht => ?_, fun t htc ht => ?_,
    fun t k htc hk => ?_, fun t _ _ hb _ => ?_⟩
  · rw [St.conts, hother htc (hne ht), St.conts]
  · rw [St.level, hother htc (hne ht), St.level]
  · by_cases ht : t = child
    · subst ht
      have hr : ((initThread s t p).goOn new).threads t = (initThread s t p).threads t :=
        Function.update_of_ne htc _ _
      rw [St.conts, hr] at hk
      simp only [initThread, Function.update_self, Option.map_some, Option.some.injEq] at hk
      exact .inr hk.symm
    · rw [St.conts, hother htc ht] at hk
      exact .inl hk
  · have ht : t ≠ child := by
      rintro rfl
      simp [St.status, hnone] at hb
    have hs : (initThread s child p).status t = s.status t := by
      simp [St.status, initThread, Function.update_of_ne ht]
    rw [status_goOn, hs]
    exact hb

/-- **A call is about the caller.** -/
theorem call_moves (h : Inv s) (hl : s.conts s.cur = some []) {r : Thread} {c : Call}
    (hc : canCall s r c = true) :
    Moves (· = s.cur) (fun u => c = .threadUnblock u) s ((enter s c).goOn (code s.mlfqs s.cur c)) := by
  have h' := h.call hl hc
  cases c with
  | threadCreate child p =>
    have hnone : s.threads child = none := by
      simp only [canCall, Bool.and_eq_true, Option.isNone_iff_eq_none] at hc
      exact hc.1.1
    exact initThread_moves hnone h
  | threadUnblock u =>
    obtain ⟨hb, hu, hne, -⟩ := h.parked hc
    obtain ⟨-, hk⟩ := h.running.threadUnblock hb hu fun hi => hne (h.running.idle u hi).1
    have hf : Frame (fun _ => False) s ((threadUnblock s u).goOn []) := neutral_frame.threadUnblock.goOn
    have hcur : (threadUnblock s u).cur = s.cur := enter_cur (c := .threadUnblock u)
    refine Moves.of_inv h' (fun t _ ht => ?_) (fun t k ht hct => ?_) (fun t b _ => hf.level t b)
      fun t hD hi hbt hut => ?_
    · exact hf.allList ▸ ht
    · refine hk.conts t k ?_
      change ((threadUnblock s u).goOn []).conts t = some k at hct
      simpa [St.goOn, hcur, St.conts, St.upd, Function.update_of_ne ht] using hct
    · have hs := hk.spared t (fun he => hD (by rw [he])) hi hbt hut
      change ((threadUnblock s u).goOn []).status t = _
      rw [status_goOn]
      exact hs.1
  | intrDisable | intrEnable =>
    have hother : ∀ {g : Thread → Thread} {t}, t ≠ s.cur →
        ((s.upd s.cur g).goOn []).threads t = s.threads t := by
      intro g t ht
      simp [St.goOn, St.upd, Function.update_of_ne ht]
    refine Moves.of_inv h' (fun _ _ ht => ht) (fun t k ht hk => ?_) (fun t b ht hb => ?_)
      fun t _ _ hb _ => ?_
    · rwa [St.conts, enter, code, hother ht] at hk
    · rwa [St.level, enter, code, hother ht] at hb
    · have ht : t ≠ s.cur := by
        rintro rfl
        rw [h.running.cur] at hb
        cases hb
      rw [St.status, enter, code, hother ht]
      exact hb
  | _ => exact goOn_moves h'

end Exec

end Threads
end Pintos

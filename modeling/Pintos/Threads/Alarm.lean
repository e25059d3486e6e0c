import Pintos.Systems.Simulation
import Pintos.Threads.Tick

/-!
# The alarm clock

`timer_sleep` reads the tick, tests with interrupts on whether time is left, and then calls
`thread_sleep`, which puts the caller into `Sleep_list` by its `wakeup_tick`; ticks may come in between, so
that the time is over before the caller sleeps. The timer interrupt takes sleepers off the front as long as
their time has come.

`Alarm` is what an observer sees of this, and `Clock.read` tells from what was seen so far who sleeps until
when. `alarm_clock` says that in every run the list agrees with it and that the next event is the right one
(`Clock.Right`): who falls asleep was awake and has asked for it, and a tick wakes exactly those whose time
has come.
-/

namespace Pintos
namespace Threads

/-- What an observer sees of a step. -/
inductive Alarm
  -- `timer_sleep (n)` is called and reads the tick `start`.
  | asked (t : ℕ) (start n : ℤ)
  -- `thread_sleep (w)`.
  | slept (t : ℕ) (w : ℤ)
  -- The timer interrupt of the tick `now`, and who has left `Sleep_list` after it.
  | ticked (now : ℤ) (woken : List ℕ)
  deriving DecidableEq

def alarm (s : St) (a : Act) (s' : St) : Option Alarm :=
  match a with
  | .run =>
    match s.conts s.cur with
    | some (.readTicks n :: _) => some (.asked s.cur s.ticks n)
    | some (.sleep w :: _) => some (.slept s.cur w)
    | _ => none
  | .tick => some (.ticked s'.ticks (s.sleepList.filter fun t => t ∉ s'.sleepList))
  | _ => none

/-- An alarm clock. -/
structure Clock where
  now : ℤ
  -- The last request of each thread, with the tick it was made at.
  asked : ℕ → Option (ℤ × ℤ)
  -- Who sleeps, and until when.
  asleep : ℕ → Option ℤ
  -- The order in which the threads fell asleep.
  since : ℕ → ℕ
  count : ℕ

def Clock.next (c : Clock) : Option Alarm → Clock
  | some (.asked t start n) => { c with asked := Function.update c.asked t (some (start, n)) }
  | some (.slept t w) => { c with
      asleep := Function.update c.asleep t (some w)
      since := Function.update c.since t c.count
      count := c.count + 1 }
  | some (.ticked _ woken) => { c with
      now := c.now + 1
      asleep := fun t => if t ∈ woken then none else c.asleep t }
  | none => c

def Clock.start : Clock := ⟨0, fun _ => none, fun _ => none, fun _ => 0, 0⟩

/-- The clock after the events `es`. -/
def Clock.read (es : List (Option Alarm)) : Clock := es.foldl Clock.next Clock.start

/-- The events that may come next. -/
def Clock.Right (c : Clock) : Alarm → Prop
  | .asked _ start _ => start = c.now
  | .slept t w => c.asleep t = none ∧ ∃ start n, c.asked t = some (start, n) ∧ 0 < n ∧ w = start + n
  | .ticked now woken => now = c.now + 1 ∧ woken.Nodup ∧
      ∀ t, t ∈ woken ↔ ∃ w, c.asleep t = some w ∧ w ≤ now

theorem Clock.read_append (es : List (Option Alarm)) (e : Option Alarm) :
    Clock.read (es ++ [e]) = (Clock.read es).next e := by simp [Clock.read]

section Sleep

variable {k : Cause} {s s' d : St} {t u : ℕ} {f : Thread → Thread} {w : ℤ} {rest : List Stmt}

/-! ### What leaves the sleepers alone -/

theorem wakeup_upd_of_ne (h : u ≠ t) : (s.upd t f).wakeup u = s.wakeup u := by
  simp [St.wakeup, St.upd, h]

theorem wakeup_upd (hf : ∀ r, (f r).wakeupTick = r.wakeupTick) : (s.upd t f).wakeup u = s.wakeup u := by
  by_cases hu : u = t
  · subst hu
    cases hr : s.threads u <;> simp [St.wakeup, St.upd, hr, hf]
  · exact wakeup_upd_of_ne hu

theorem inert_wakeupTick : Inert Thread.wakeupTick := fun _ _ _ _ _ => rfl

theorem wakeup_of_record {x : Status} (hst : s'.status t = some x)
    (h : ∀ r', s'.threads t = some r' → ∃ r, s.threads t = some r ∧ r'.wakeupTick = r.wakeupTick) :
    s'.wakeup t = s.wakeup t := by
  cases hr' : s'.threads t with
  | none => simp [St.status, hr'] at hst
  | some r' =>
    obtain ⟨r, hr, he⟩ := h r' hr'
    simp [St.wakeup, hr, hr', he]

/-- **Nobody but `thread_sleep` and `thread_wake_up` touches the sleepers.** -/
theorem Change.sleepers (h : Change k s s') (hk : k ≠ .tick) (hw : ∀ w, k ≠ .stmt (.sleep w)) :
    s'.ticks = s.ticks ∧ s'.sleepList = s.sleepList ∧ ∀ t ∈ s.sleepList, s'.wakeup t = s.wakeup t := by
  have hne : ∀ {t u}, Unlisted s u → t ∈ s.sleepList → t ≠ u := fun hu ht he => hu .sleep (he ▸ ht)
  cases h with
  | aux h =>
    refine ⟨h.ticks, h.sleepList, fun t _ => ?_⟩
    have hf := congrFun h.face t
    unfold St.face at hf
    unfold St.wakeup
    cases hs : s.threads t <;> cases hs' : s'.threads t <;> simp_all [Thread.face]
  | ready v hu hs | dispatch n hn | status y hy | setPrio p hp hu | nice n hn | inherit c r hr ha =>
    exact ⟨rfl, rfl, fun t _ => wakeup_upd fun _ => rfl⟩
  | free v hd hu =>
    refine ⟨rfl, rfl, fun t ht => ?_⟩
    simp [St.wakeup, St.free, Function.update_of_ne (hne hu ht)]
  | wakeup w hk' hu | asleep w hk' hu => exact absurd hk' (hw w)
  | awake hk' | tick hk' | age hk' | calcAll hk' | cpu hk' | decay hk' => exact absurd hk' hk
  | calcOne v hu hm =>
    unfold threadCalcPriority
    split
    · exact ⟨rfl, rfl, fun t _ => wakeup_upd fun _ => rfl⟩
    · exact ⟨rfl, rfl, fun _ _ => rfl⟩
  | birth c p hc hn hu hp =>
    refine ⟨rfl, rfl, fun t ht => ?_⟩
    simp [St.wakeup, initThread, Function.update_of_ne (hne hu ht)]
  | _ => exact ⟨rfl, rfl, fun _ _ => rfl⟩

theorem sleepers_step (h : Inv s) {a : Act} (hs : step s a = some s') (ha : a ≠ .tick)
    (hw : ∀ w, s.cause a ≠ .stmt (.sleep w)) :
    s'.ticks = s.ticks ∧ s'.sleepList = s.sleepList ∧ ∀ t ∈ s.sleepList, s'.wakeup t = s.wakeup t := by
  refine step_of_change (P := fun d => d.ticks = s.ticks ∧ d.sleepList = s.sleepList ∧
    ∀ t ∈ s.sleepList, d.wakeup t = s.wakeup t) h hs ⟨rfl, rfl, fun _ _ => rfl⟩ ?_
  rintro d d' ⟨ht, hl, hd⟩ hc
  obtain ⟨ht', hl', hd'⟩ := hc.sleepers (fun hk => ha (cause_eq_tick.1 hk)) hw
  exact ⟨ht'.trans ht, hl'.trans hl, fun t hm => (hd' t (hl ▸ hm)).trans (hd t hm)⟩

/-! ### `thread_sleep` -/

theorem sleepList_schedule : (schedule s).sleepList = s.sleepList := by
  unfold schedule
  split
  · split
    · rfl
    · dsimp only
      split <;> rfl
  · rfl

/-- The state in which `thread_sleep` inserts the caller. -/
def beforeSleep (s : St) (w : ℤ) (rest : List Stmt) : St :=
  (s.upd s.cur fun t => { t with wakeupTick := w }).goOn rest

theorem beforeSleep_wakeup (h : Inv s) (w : ℤ) (rest : List Stmt) :
    (beforeSleep s w rest).wakeup s.cur = w ∧ ∀ t, t ≠ s.cur → (beforeSleep s w rest).wakeup t = s.wakeup t := by
  obtain ⟨r, hr⟩ := h.record h.cur_alive
  refine ⟨by simp [St.wakeup, beforeSleep, St.goOn, St.upd, hr], fun t ht => ?_⟩
  simp [St.wakeup, beforeSleep, St.goOn, St.upd, ht]

/-- **`thread_sleep`.** -/
theorem sleepers_sleep (h : Inv s) (hl : s.conts s.cur = some (.sleep w :: rest)) (d : St)
    (hd : d = exec s rest (.sleep w)) : d.ticks = s.ticks ∧
    d.sleepList = listInsertOrdered (wakeupTickLess (beforeSleep s w rest)) s.cur s.sleepList ∧
      d.wakeup s.cur = w ∧ ∀ t ∈ s.sleepList, d.wakeup t = s.wakeup t := by
  have hcore := (h.exec hl).running.core
  have hlist : d.sleepList = listInsertOrdered (wakeupTickLess (beforeSleep s w rest)) s.cur s.sleepList := by
    rw [hd]
    exact sleepList_schedule
  let e : St := { beforeSleep s w rest with
    sleepList := listInsertOrdered (wakeupTickLess (beforeSleep s w rest)) s.cur s.sleepList }
  have hspares : Spares Thread.wakeupTick e d := by
    have hblock : Spares Thread.wakeupTick e (e.setStatus e.cur .blocked) := spares_upd fun _ => rfl
    have hd' : d = schedule (e.setStatus e.cur .blocked) := hd
    rw [hd']
    exact hblock.trans (neutral_spares inert_wakeupTick |>.schedule)
  have hkeep : ∀ t ∈ d.sleepList, d.wakeup t = (beforeSleep s w rest).wakeup t := by
    intro t ht
    subst hd
    exact wakeup_of_record (s := e) (hcore.status .sleep t ht) (hspares.threads t)
  obtain ⟨hcur, hother⟩ := beforeSleep_wakeup h w rest
  refine ⟨hspares.ticks, hlist, ?_, fun t ht => ?_⟩
  · rw [hkeep _ (hlist ▸ mem_listInsertOrdered.2 (.inl rfl)), hcur]
  · have hne : t ≠ s.cur := by
      rintro rfl
      exact h.running.cur_unlisted .sleep ht
    rw [hkeep _ (hlist ▸ mem_listInsertOrdered.2 (.inr ht)), hother t hne]

/-! ### `thread_wake_up` -/

/-- The loop of `thread_wake_up` takes off those at the front whose time has come. -/
theorem sleepList_wakeUpLoop (l : List ℕ) : ∀ {s : St}, s.sleepList = l →
    (wakeUpLoop l s).sleepList = l.dropWhile fun t => decide (s.wakeup t ≤ s.ticks) := by
  induction l with
  | nil => exact fun hl => hl
  | cons t l ih =>
    intro s hl
    rw [wakeUpLoop]
    split
    · next hw => rw [hl, List.dropWhile_cons_of_neg (by simpa using hw)]
    · next hw =>
      have hub : ∀ d : St, (threadUnblock d t).sleepList = d.sleepList ∧
          (threadUnblock d t).ticks = d.ticks ∧ (threadUnblock d t).wakeup = d.wakeup := by
        intro d
        unfold threadUnblock
        split
        · exact ⟨rfl, rfl, funext fun u => wakeup_upd fun _ => rfl⟩
        · exact ⟨rfl, rfl, rfl⟩
      obtain ⟨h₁, h₂, h₃⟩ := hub { s with sleepList := l }
      rw [ih h₁, h₂, h₃, List.dropWhile_cons_of_pos (by simpa using hw)]
      rfl

theorem sleepList_beforeMlfqsTick : (beforeMlfqsTick s).sleepList =
    s.sleepList.dropWhile fun t => decide (s.wakeup t ≤ s.ticks + 1) := by
  have hage : ∀ d : St, (if d.aging then threadAging d else d).sleepList = d.sleepList := by
    intro d
    split
    · exact congrFun same_threadAging.queue .sleep
    · rfl
  have hcount : ∀ d : St, (if timeSlice ≤ d.threadTicks then { d with yieldOnReturn := true } else d).sleepList =
      d.sleepList ∧
      (if timeSlice ≤ d.threadTicks then { d with yieldOnReturn := true } else d).ticks = d.ticks ∧
      (if timeSlice ≤ d.threadTicks then { d with yieldOnReturn := true } else d).wakeup = d.wakeup := by
    intro d
    split <;> exact ⟨rfl, rfl, rfl⟩
  obtain ⟨h₁, h₂, h₃⟩ := hcount { s with
    yieldOnReturn := false, ticks := s.ticks + 1, threadTicks := s.threadTicks + 1 }
  have hwake : ∀ d : St, (threadWakeUp d).sleepList =
      d.sleepList.dropWhile fun t => decide (d.wakeup t ≤ d.ticks) :=
    fun d => (congrFun same_checkPreemptIntr.queue .sleep).trans (sleepList_wakeUpLoop _ rfl)
  refine (hage _).trans ((hwake _).trans ?_)
  rw [h₁, h₂, h₃]
  rfl

/-- Who is taken off is unblocked. -/
theorem status_wakeUpLoop (l : List ℕ) : ∀ {s : St}, Running s → s.sleepList = l → ∀ t ∈ l,
    t ∈ (wakeUpLoop l s).sleepList ∨ (wakeUpLoop l s).status t ≠ some .blocked := by
  induction l with
  | nil => exact fun _ _ => nofun
  | cons u l ih =>
    intro s h hl t ht
    rw [wakeUpLoop]
    split
    · exact .inl (hl ▸ ht)
    · have hq : ({ s with sleepList := l } : St).queue = Function.update s.queue .sleep l := by
        funext q
        cases q <;> rfl
      obtain ⟨hrun, -⟩ := h.popUnblock { s with sleepList := l } (q := .sleep) rfl hl rfl hq rfl rfl rfl
        rfl rfl rfl
      have hsleep : (threadUnblock { s with sleepList := l } u).sleepList = l := by
        unfold threadUnblock
        split <;> rfl
      obtain rfl | ht := List.mem_cons.1 ht
      · have hst : s.status t = some .blocked := h.core.status .sleep t (by simp [St.queue, hl])
        have hready : (threadUnblock { s with sleepList := l } t).status t = some .ready := by
          have hst' : ({ s with sleepList := l } : St).status t = some .blocked := hst
          rw [threadUnblock, if_pos hst', insertReady_status hst', Function.update_self]
        right
        intro hb
        obtain ⟨hb', -⟩ := (hrun.wakeUpLoop l hsleep).2.blocked t hb
        cases hready.symm.trans hb'
      · exact ih hrun hsleep t ht

theorem sleepList_threadMlfqsTick : (threadMlfqsTick s).sleepList = s.sleepList := by
  have hsort : (mlfqsSort (mlfqsNumbers s)).sleepList = s.sleepList :=
    (congrFun same_foreach_threadUpdatePriority.queue .sleep).trans
      (congrFun same_mlfqsNumbers.queue .sleep)
  rw [threadMlfqsTick_eq]
  split
  · exact (congrFun same_checkPreemptIntr.queue .sleep).trans hsort
  · exact congrFun same_mlfqsNumbers.queue .sleep

theorem sleepList_yieldOnReturn : (if s.yieldOnReturn then threadYield s else s).sleepList = s.sleepList := by
  split
  · unfold threadYield
    rw [sleepList_schedule]
    split <;> rfl
  · rfl

theorem status_beforeMlfqsTick (h : Running s) (ht : t ∈ s.sleepList) :
    t ∈ (beforeMlfqsTick s).sleepList ∨ (beforeMlfqsTick s).status t ≠ some .blocked := by
  obtain ⟨d, hd, hlast⟩ := same_beforeMlfqsTick s
  have hsleep : d.sleepList = s.sleepList := congrFun hd.queue .sleep
  have hlist : (beforeMlfqsTick s).sleepList = (wakeUpLoop d.sleepList d).sleepList :=
    congrFun hlast.queue .sleep
  rw [hlist, hlast.status]
  exact status_wakeUpLoop _ (h.same hd) rfl t (hsleep ▸ ht)

/-- **The timer interrupt** takes off those at the front whose time has come. -/
theorem sleepers_tick (h : Inv s) (hs : step s .tick = some s') :
    s'.ticks = s.ticks + 1 ∧ (∀ t ∈ s'.sleepList, s'.wakeup t = s.wakeup t) ∧
      s'.sleepList = s.sleepList.dropWhile fun t => decide (s.wakeup t ≤ s.ticks + 1) := by
  have hcore := (h.step hs).running.core
  obtain rfl := eq_tick_of_step h hs
  refine ⟨?_, fun t ht => ?_, ?_⟩
  · rw [(spares_timerInterrupt inert_wakeupTick).ticks]
    split
    · rw [(spares_threadMlfqsTick inert_wakeupTick).ticks, ticks_mlfqsNumbers,
        (spares_beforeMlfqsTick inert_wakeupTick).ticks]
    · rw [(spares_beforeMlfqsTick inert_wakeupTick).ticks]
  · exact wakeup_of_record (hcore.status .sleep t ht)
      fun r' hr' => threads_tick inert_wakeupTick (fun _ _ => rfl) hr'
  · rw [tick_eq]
    dsimp only
    rw [sleepList_yieldOnReturn, ← sleepList_beforeMlfqsTick]
    split
    · exact sleepList_threadMlfqsTick
    · rfl

/-- **Who is taken off** is ready or running when the interrupt returns. -/
theorem status_tick (h : Inv s) (hs : step s .tick = some s') (ht : t ∈ s.sleepList)
    (ht' : t ∉ s'.sleepList) : s'.status t = some .ready ∨ s'.status t = some .running := by
  have hcore := (h.step hs).running.core
  have hblocked : s.status t = some .blocked := h.running.core.status .sleep t ht
  have halive : t ∈ s'.allList := by
    rw [allList_tick h hs]
    exact (h.running.core.all t).2 ⟨_, hblocked, by decide⟩
  have hnot : s'.status t ≠ some .blocked := by
    intro hb
    obtain rfl := eq_tick_of_step h hs
    obtain ⟨hrun, -⟩ := running_beforeMlfqsTick h.running
    rw [tick_eq] at hb ht'
    dsimp only at hb ht'
    have hmid : Running (if s.mlfqs then threadMlfqsTick (beforeMlfqsTick s) else beforeMlfqsTick s) ∧
        Keeps (fun _ => False) (beforeMlfqsTick s)
          (if s.mlfqs then threadMlfqsTick (beforeMlfqsTick s) else beforeMlfqsTick s) ∧
        (if s.mlfqs then threadMlfqsTick (beforeMlfqsTick s) else beforeMlfqsTick s).sleepList =
          (beforeMlfqsTick s).sleepList := by
      split
      · exact ⟨hrun.threadMlfqsTick.1, hrun.threadMlfqsTick.2, sleepList_threadMlfqsTick⟩
      · exact ⟨hrun, (Same.refl _).keeps, rfl⟩
    obtain ⟨hrun', hkeep, hlist⟩ := hmid
    generalize (if s.mlfqs then threadMlfqsTick (beforeMlfqsTick s) else beforeMlfqsTick s) = d at *
    rw [sleepList_yieldOnReturn, hlist] at ht'
    have hd : d.status t = some .blocked := by
      split at hb
      · exact (hrun'.threadYield.2.blocked t hb).1
      · exact hb
    obtain hm | hn := status_beforeMlfqsTick h.running ht
    · exact ht' hm
    · exact hn (hkeep.blocked t hd).1
  obtain ⟨x, hx, hdying⟩ := (hcore.all t).1 halive
  cases x with
  | ready => exact .inl hx
  | running => exact .inr hx
  | blocked => exact absurd hx hnot
  | dying => exact absurd rfl hdying

end Sleep

/-! ### What the callers of `timer_sleep` still have to do -/

/-- The statements of `timer_sleep`. -/
def Stmt.timed : Stmt → Bool
  | .readTicks _ | .sleepTest _ _ | .sleep _ => true
  | _ => false

/-- What the threads in `timer_sleep` have asked for. -/
structure Asking (c : Clock) (s : St) : Prop where
  alone : ∀ t l x, s.conts t = some l → x ∈ l → x.timed = true → l = [x]
  test : ∀ t start n, s.conts t = some [.sleepTest start n] → c.asked t = some (start, n) ∧ start ≤ s.ticks
  sleep : ∀ t w, s.conts t = some [.sleep w] → ∃ start n, c.asked t = some (start, n) ∧ 0 < n ∧ w = start + n

section Asking

variable {c : Clock} {s s' : St} {t : ℕ} {a : Act} {x y : Stmt} {rest l : List Stmt}

theorem code_timed {m : Bool} {q : Call} (hy : y ∈ code m t q) (ht : y.timed = true) :
    ∃ n, code m t q = [.readTicks n] := by
  have hno : (∀ z ∈ code m t q, z.timed = false) → ∃ n, code m t q = [.readTicks n] := fun h => by
    rw [h y hy] at ht
    cases ht
  cases q with
  | timerSleep n => exact ⟨n, rfl⟩
  | setNice n => exact hno (by cases m <;> simp [code, Stmt.timed])
  | _ => exact hno (by simp [code, lockAcquire, lockRelease, Stmt.timed])

theorem after_timed (hy : y ∈ x.after s) (ht : y.timed = true) :
    (∃ n, x = .readTicks n ∧ x.after s = [.sleepTest s.ticks n]) ∨
    ∃ start n, x = .sleepTest start n ∧ s.ticks - start < n ∧ x.after s = [.sleep (start + n)] := by
  have hno : ∀ {P : Prop}, (∀ z ∈ x.after s, z.timed = false) → P := fun h => by
    rw [h y hy] at ht
    cases ht
  cases x with
  | readTicks n => exact .inl ⟨n, rfl, rfl⟩
  | sleepTest start n =>
    by_cases hlt : s.ticks - start < n
    · exact .inr ⟨start, n, rfl, hlt, by simp [Stmt.after, hlt]⟩
    · exact hno (by simp [Stmt.after, hlt])
  | checkPreempt | down z | downAgain z | tryAcquire z | condSignal z | condBroadcast z =>
    exact hno (by simp only [Stmt.after]; split <;> simp [Stmt.timed])
  | _ => exact hno (by simp [Stmt.after, Stmt.timed])

/-- A statement of `timer_sleep` after a step: an old one, the call, or the next one of the caller. -/
theorem Asking.next (h : Asking c s) (hi : Inv s) (hs : step s a = some s') (hl : s'.conts t = some l)
    (hy : y ∈ l) (ht : y.timed = true) : s.conts t = some l ∨ (∃ n, l = [.readTicks n]) ∨
      t = s.cur ∧ a = .run ∧ ((∃ n, s.conts t = some [.readTicks n] ∧ l = [.sleepTest s.ticks n]) ∨
        ∃ start n, s.conts t = some [.sleepTest start n] ∧ s.ticks - start < n ∧ l = [.sleep (start + n)]) := by
  obtain hold | ⟨rfl, -⟩ | ⟨rfl, ⟨q, rfl, rfl⟩ | ⟨x, rest, rfl, hx, rfl⟩⟩ := step_conts hi hs hl
  · exact .inl hold
  · simp_all [Stmt.timed]
  · exact .inr (.inl (code_timed hy ht))
  · have hrest : y ∉ rest := by
      intro hm
      obtain ⟨-, hnil⟩ := List.cons.inj (h.alone _ _ y hx (List.mem_cons_of_mem x hm) ht)
      rw [hnil] at hm
      cases hm
    have hafter := (List.mem_append.1 hy).resolve_right hrest
    have hend : x.timed = true → rest = [] := fun hxt => by
      obtain ⟨-, hnil⟩ := List.cons.inj (h.alone _ _ x hx List.mem_cons_self hxt)
      exact hnil
    obtain ⟨n, rfl, he⟩ | ⟨start, n, rfl, hlt, he⟩ := after_timed hafter ht
    · rw [hend rfl] at hx ⊢
      exact .inr (.inr ⟨rfl, rfl, .inl ⟨n, hx, by rw [he]; rfl⟩⟩)
    · rw [hend rfl] at hx ⊢
      exact .inr (.inr ⟨rfl, rfl, .inr ⟨start, n, hx, hlt, by rw [he]; rfl⟩⟩)

/-- The events. -/
theorem alarm_cases (s : St) (a : Act) (s' : St) :
    (∃ n rest, a = .run ∧ s.conts s.cur = some (.readTicks n :: rest) ∧
      alarm s a s' = some (.asked s.cur s.ticks n)) ∨
    (∃ w rest, a = .run ∧ s.conts s.cur = some (.sleep w :: rest) ∧ alarm s a s' = some (.slept s.cur w)) ∨
    (a = .tick ∧ alarm s a s' = some (.ticked s'.ticks (s.sleepList.filter fun t => t ∉ s'.sleepList))) ∨
    (a ≠ .tick ∧ (∀ n, s.cause a ≠ .stmt (.readTicks n)) ∧ (∀ w, s.cause a ≠ .stmt (.sleep w)) ∧
      alarm s a s' = none) := by
  cases a with
  | run =>
    unfold alarm St.cause
    cases hl : s.conts s.cur with
    | none => simp
    | some l =>
      cases l with
      | nil => simp
      | cons x rest => cases x <;> simp
  | tick => exact .inr (.inr (.inl ⟨rfl, rfl⟩))
  | _ => exact .inr (.inr (.inr ⟨nofun, nofun, nofun, rfl⟩))

theorem ticks_step (hi : Inv s) (hs : step s a = some s') :
    s'.ticks = if a = .tick then s.ticks + 1 else s.ticks := by
  obtain ⟨n, rest, rfl, hl, -⟩ | ⟨w, rest, rfl, hl, -⟩ | ⟨rfl, -⟩ | ⟨ha, -, hw, -⟩ := alarm_cases s a s'
  · have hc : s.cause .run = .stmt (.readTicks n) := by simp [St.cause, hl]
    exact (sleepers_step hi hs (by simp) (by rw [hc]; simp)).1
  · obtain ⟨_, _, ha, _⟩ | ⟨x, k, -, hx, rfl⟩ | ⟨ha, _⟩ | ⟨_, ha, _⟩ | ⟨_, ha, _⟩ := step_cases hi hs
    · cases ha
    · obtain ⟨rfl, rfl⟩ := List.cons.inj (Option.some.inj (hl.symm.trans hx))
      exact (sleepers_sleep hi hl _ rfl).1
    · cases ha
    · cases ha
    · cases ha
  · exact (sleepers_tick hi hs).1
  · rw [if_neg ha]
    exact (sleepers_step hi hs ha hw).1

/-- The last request of a thread changes only when it makes one. -/
theorem asked_next (ht : ∀ n rest, a = .run → t = s.cur → s.conts s.cur ≠ some (.readTicks n :: rest)) :
    (c.next (alarm s a s')).asked t = c.asked t := by
  obtain ⟨n, rest, rfl, hl, he⟩ | ⟨w, rest, rfl, hl, he⟩ | ⟨rfl, he⟩ | ⟨-, -, -, he⟩ := alarm_cases s a s'
  · have hne : t ≠ s.cur := fun htc => ht n rest rfl htc hl
    rw [he]
    exact Function.update_of_ne hne ..
  · rw [he]
    rfl
  · rw [he]
    rfl
  · rw [he]
    rfl

theorem Asking.step (h : Asking c s) (hi : Inv s) (hs : step s a = some s') :
    Asking (c.next (alarm s a s')) s' := by
  have hticks := ticks_step hi hs
  -- a thread that is in `timer_sleep` already makes no request
  have hkept : ∀ {t l}, s.conts t = some l → (∀ n, l ≠ [.readTicks n]) →
      (c.next (alarm s a s')).asked t = c.asked t := by
    intro t l hl hno
    refine asked_next fun n rest _ htc hr => ?_
    subst htc
    obtain rfl := Option.some.inj (hl.symm.trans hr)
    exact hno n (h.alone _ _ _ hr List.mem_cons_self rfl)
  refine ⟨fun t l x hl hx hxt => ?_, fun t start n hl => ?_, fun t w hl => ?_⟩
  · obtain hold | ⟨n, rfl⟩ | ⟨-, -, ⟨n, -, rfl⟩ | ⟨start, n, -, -, rfl⟩⟩ := h.next hi hs hl hx hxt
    · exact h.alone t l x hold hx hxt
    · rw [List.mem_singleton.1 hx]
    · rw [List.mem_singleton.1 hx]
    · rw [List.mem_singleton.1 hx]
  · obtain hold | ⟨m, he⟩ | ⟨rfl, rfl, ⟨m, hr, he⟩ | ⟨_, _, -, -, he⟩⟩ :=
      h.next hi hs hl (y := .sleepTest start n) List.mem_cons_self rfl
    · obtain ⟨hasked, hle⟩ := h.test t start n hold
      rw [hkept hold nofun]
      refine ⟨hasked, hle.trans ?_⟩
      rw [hticks]
      split <;> omega
    · cases he
    · obtain ⟨rfl, rfl⟩ : start = s.ticks ∧ n = m := by simpa using he
      have hev : alarm s .run s' = some (.asked s.cur s.ticks n) := by simp [alarm, hr]
      rw [hev]
      exact ⟨Function.update_self .., hticks.ge⟩
    · cases he
  · obtain hold | ⟨m, he⟩ | ⟨rfl, rfl, ⟨_, -, he⟩ | ⟨start, n, hr, hlt, he⟩⟩ :=
      h.next hi hs hl (y := .sleep w) List.mem_cons_self rfl
    · obtain ⟨start, n, hasked, hn⟩ := h.sleep t w hold
      exact ⟨start, n, (hkept hold nofun).trans hasked, hn⟩
    · cases he
    · cases he
    · obtain rfl : w = start + n := by simpa using he
      obtain ⟨hasked, hle⟩ := h.test _ start n hr
      exact ⟨start, n, (hkept hr nofun).trans hasked, by omega, rfl⟩

end Asking

/-! ### Who sleeps -/

/-- `Sleep_list` is what the clock says. -/
structure Listed (c : Clock) (s : St) : Prop where
  now : s.ticks = c.now
  asleep : ∀ t w, c.asleep t = some w ↔ t ∈ s.sleepList ∧ s.wakeup t = w
  order : s.sleepList.Pairwise fun a b => s.wakeup a < s.wakeup b ∨
    s.wakeup a = s.wakeup b ∧ c.since a < c.since b
  recent : ∀ t ∈ s.sleepList, c.since t < c.count

section Listed

variable {c : Clock} {s s' : St} {t : ℕ} {a : Act} {w : ℤ} {rest : List Stmt}

theorem Listed.congr (h : Listed c s) {c' : Clock} (hnow : c'.now = c.now) (hasleep : c'.asleep = c.asleep)
    (hsince : c'.since = c.since) (hcount : c'.count = c.count) (hticks : s'.ticks = s.ticks)
    (hlist : s'.sleepList = s.sleepList) (hw : ∀ t ∈ s.sleepList, s'.wakeup t = s.wakeup t) :
    Listed c' s' := by
  refine ⟨by rw [hticks, hnow, h.now], fun t w => ?_, ?_, ?_⟩
  · rw [hasleep, hlist, h.asleep t w]
    exact and_congr_right fun ht => by rw [hw t ht]
  · rw [hlist, hsince]
    exact h.order.imp_of_mem fun ha hb hab => by rwa [hw _ ha, hw _ hb]
  · rw [hlist, hsince, hcount]
    exact h.recent

theorem strictWeak_wakeupTickLess : StrictWeak (wakeupTickLess s) where
  asymm := by
    intro a b h
    simp only [wakeupTickLess, decide_eq_true_eq, decide_eq_false_iff_not] at h ⊢
    omega
  trans := by
    intro a b c h₁ h₂
    simp only [wakeupTickLess, decide_eq_false_iff_not] at h₁ h₂ ⊢
    omega

theorem Listed.ascending (h : Listed c s) : s.sleepList.Pairwise fun a b => s.wakeup a ≤ s.wakeup b :=
  h.order.imp fun hab => by omega

/-- **`thread_sleep`** puts the caller behind those who sleep as long or less. -/
theorem Listed.sleep (h : Listed c s) (hi : Inv s) (hl : s.conts s.cur = some (.sleep w :: rest)) :
    Listed (c.next (some (.slept s.cur w))) (exec s rest (.sleep w)) := by
  obtain ⟨hticks, hlist, hcur, hother⟩ := sleepers_sleep hi hl _ rfl
  obtain ⟨hbcur, hbother⟩ := beforeSleep_wakeup hi w rest
  generalize exec s rest (.sleep w) = d at *
  have hnot : s.cur ∉ s.sleepList := hi.running.cur_unlisted .sleep
  have hne : ∀ t ∈ s.sleepList, t ≠ s.cur := fun t ht he => hnot (he ▸ ht)
  have hsince : ∀ t ∈ s.sleepList, Function.update c.since s.cur c.count t = c.since t :=
    fun t ht => Function.update_of_ne (hne t ht) ..
  have hself : Function.update c.since s.cur c.count s.cur = c.count := Function.update_self ..
  refine ⟨hticks.trans h.now, fun t w' => ?_, ?_, fun t ht => ?_⟩
  · show Function.update c.asleep s.cur (some w) t = some w' ↔ _
    rw [hlist, mem_listInsertOrdered]
    by_cases ht : t = s.cur
    · subst ht
      rw [Function.update_self, hcur]
      simp
    · rw [Function.update_of_ne ht, h.asleep t w']
      simp only [ht, false_or]
      exact and_congr_right fun hm => by rw [hother t hm]
  · show d.sleepList.Pairwise fun a b => d.wakeup a < d.wakeup b ∨
      d.wakeup a = d.wakeup b ∧ Function.update c.since s.cur c.count a <
        Function.update c.since s.cur c.count b
    rw [hlist]
    refine pairwise_listInsertOrdered strictWeak_wakeupTickLess ?_ ?_ ?_ ?_
    · refine h.ascending.imp_of_mem fun ha hb hab => ?_
      rw [wakeupTickLess, hbother _ (hne _ ha), hbother _ (hne _ hb)]
      simpa using hab
    · refine h.order.imp_of_mem fun ha hb hab => ?_
      rwa [hother _ ha, hother _ hb, hsince _ ha, hsince _ hb]
    · intro e he hless
      rw [wakeupTickLess, hbcur, hbother e (hne e he), decide_eq_true_eq] at hless
      rw [hcur, hother e he]
      exact .inl hless
    · intro e he hless
      rw [wakeupTickLess, hbcur, hbother e (hne e he), decide_eq_false_iff_not] at hless
      have hrecent := h.recent e he
      rw [hcur, hother e he, hsince e he, hself]
      omega
  · show Function.update c.since s.cur c.count t < c.count + 1
    rw [hlist, mem_listInsertOrdered] at ht
    obtain rfl | ht := ht
    · rw [hself]
      omega
    · have hrecent := h.recent t ht
      rw [hsince t ht]
      omega

/-- **A tick** leaves those whose time has not come. -/
theorem Listed.mem_tick (h : Listed c s) (hi : Inv s) (hs : step s .tick = some s') :
    t ∈ s'.sleepList ↔ t ∈ s.sleepList ∧ s'.ticks < s.wakeup t := by
  obtain ⟨hticks, -, hlist⟩ := sleepers_tick hi hs
  rw [hlist, mem_dropWhile_iff h.ascending, hticks]

theorem Listed.tick (h : Listed c s) (hi : Inv s) (hs : step s .tick = some s') :
    Listed (c.next (alarm s .tick s')) s' ∧ ∀ e ∈ alarm s .tick s', c.Right e := by
  obtain ⟨hticks, hwake, hlist⟩ := sleepers_tick hi hs
  have hsub : s'.sleepList.Sublist s.sleepList := hlist ▸ List.dropWhile_sublist _
  have hwoken : ∀ t, t ∈ s.sleepList.filter (fun t => t ∉ s'.sleepList) ↔
      t ∈ s.sleepList ∧ s.wakeup t ≤ s'.ticks := by
    intro t
    simp only [List.mem_filter, decide_eq_true_eq, h.mem_tick hi hs, not_and, not_lt]
    exact ⟨fun ht => ⟨ht.1, ht.2 ht.1⟩, fun ht => ⟨ht.1, fun _ => ht.2⟩⟩
  refine ⟨⟨?_, fun t w => ?_, ?_, fun t ht => h.recent t (hsub.subset ht)⟩, ?_⟩
  · rw [hticks, h.now]
    rfl
  · show (if t ∈ s.sleepList.filter (fun t => t ∉ s'.sleepList) then none else c.asleep t) = some w ↔ _
    rw [h.mem_tick hi hs]
    split
    · next ht =>
      have hle := ((hwoken t).1 ht).2
      exact ⟨nofun, fun hw => by omega⟩
    · next ht =>
      rw [h.asleep t w]
      constructor
      · rintro ⟨hm, hw⟩
        have hlt : s'.ticks < s.wakeup t := not_le.1 fun hle => ht ((hwoken t).2 ⟨hm, hle⟩)
        exact ⟨⟨hm, hlt⟩, (hwake t ((h.mem_tick hi hs).2 ⟨hm, hlt⟩)).trans hw⟩
      · rintro ⟨hm, hw⟩
        exact ⟨hm.1, (hwake t ((h.mem_tick hi hs).2 hm)).symm.trans hw⟩
  · exact (h.order.sublist hsub).imp_of_mem fun ha hb hab => by rwa [hwake _ ha, hwake _ hb]
  · intro e he
    obtain rfl := Option.some.inj he
    refine ⟨by rw [hticks, h.now], (hi.running.core.nodup .sleep).filter _, fun t => ?_⟩
    rw [hwoken t]
    constructor
    · exact fun ht => ⟨_, (h.asleep t _).2 ⟨ht.1, rfl⟩, ht.2⟩
    · rintro ⟨w, hw, hle⟩
      obtain ⟨hm, rfl⟩ := (h.asleep t w).1 hw
      exact ⟨hm, hle⟩

/-- **One step**, and what is seen of it. -/
theorem Listed.step (h : Listed c s) (hq : Asking c s) (hi : Inv s) (hs : step s a = some s') :
    Listed (c.next (alarm s a s')) s' ∧ ∀ e ∈ alarm s a s', c.Right e := by
  obtain ⟨n, rest, rfl, hl, he⟩ | ⟨w, rest, rfl, hl, he⟩ | ⟨rfl, he⟩ | ⟨ha, -, hw, he⟩ := alarm_cases s a s'
  · have hc : s.cause .run = .stmt (.readTicks n) := by simp [St.cause, hl]
    obtain ⟨hticks, hlist, hwake⟩ := sleepers_step hi hs (by simp) (by rw [hc]; simp)
    rw [he]
    refine ⟨h.congr rfl rfl rfl rfl hticks hlist hwake, fun e hm => ?_⟩
    obtain rfl := Option.some.inj hm
    exact h.now
  · obtain ⟨_, _, ha, _⟩ | ⟨x, k, -, hx, rfl⟩ | ⟨ha, _⟩ | ⟨_, ha, _⟩ | ⟨_, ha, _⟩ := step_cases hi hs
    · cases ha
    · obtain ⟨rfl, rfl⟩ := List.cons.inj (Option.some.inj (hl.symm.trans hx))
      rw [he]
      refine ⟨h.sleep hi hl, fun e hm => ?_⟩
      obtain rfl := Option.some.inj hm
      refine ⟨?_, ?_⟩
      · cases hasleep : c.asleep s.cur with
        | none => rfl
        | some v => exact absurd ((h.asleep _ v).1 hasleep).1 (hi.running.cur_unlisted .sleep)
      · have hone := hq.alone _ _ _ hl List.mem_cons_self rfl
        exact hq.sleep _ w (hone ▸ hl)
    · cases ha
    · cases ha
    · cases ha
  · exact h.tick hi hs
  · obtain ⟨hticks, hlist, hwake⟩ := sleepers_step hi hs ha hw
    rw [he]
    exact ⟨h.congr rfl rfl rfl rfl hticks hlist hwake, by simp⟩

/-! ### Runs -/

theorem Asking.start {aging mlfqs : Bool} {value : ℕ → ℕ} : Asking Clock.start (initial aging mlfqs value) := by
  have hno : ∀ t l x, (initial aging mlfqs value).conts t = some l → x ∈ l → x.timed = false := by
    intro t l x hl hx
    obtain ⟨-, rfl⟩ | ⟨-, rfl⟩ := initial_conts.1 hl
    · obtain rfl := List.mem_singleton.1 hx
      rfl
    · simp only [idleCode, List.mem_cons, List.not_mem_nil, or_false] at hx
      obtain rfl | rfl | rfl | rfl | rfl := hx <;> rfl
  refine ⟨fun t l x hl hx ht => ?_, fun t start n hl => ?_, fun t w hl => ?_⟩
  · cases (hno t l x hl hx).symm.trans ht
  · cases hno t _ _ hl List.mem_cons_self
  · cases hno t _ _ hl List.mem_cons_self

theorem Listed.start {aging mlfqs : Bool} {value : ℕ → ℕ} : Listed Clock.start (initial aging mlfqs value) :=
  ⟨rfl, fun _ _ => ⟨nofun, fun h => by cases h.1⟩, .nil, nofun⟩

theorem listed_of_traces {es : List (Option Alarm)} (h : sys.Traces (fun _ _ => True) alarm es s) :
    Inv s ∧ Asking (Clock.read es) s ∧ Listed (Clock.read es) s := by
  induction h with
  | init hs =>
    obtain ⟨aging, mlfqs, value, rfl⟩ := hs
    exact ⟨Inv.initial, Asking.start, Listed.start⟩
  | step _ _ hs ih =>
    obtain ⟨hi, hq, hl⟩ := ih
    rw [Clock.read_append]
    exact ⟨hi.step hs, hq.step hi hs, (hl.step hq hi hs).1⟩

/-- The test of `timer_sleep`. -/
theorem Asking.decides (hq : Asking c s) (hi : Inv s) {start n : ℤ}
    (hl : s.conts s.cur = some (.sleepTest start n :: rest)) (hs : Threads.step s .run = some s') :
    s'.cur = s.cur ∧ s'.sleepList = s.sleepList ∧
      (if start + n ≤ s.ticks then s'.conts s.cur = some rest
        else 0 < n ∧ s'.conts s.cur = some (.sleep (start + n) :: rest)) := by
  have hone := hq.alone _ _ _ hl List.mem_cons_self rfl
  obtain ⟨-, hle⟩ := hq.test _ start n (hone ▸ hl)
  obtain ⟨r, hr⟩ := hi.record hi.cur_alive
  have hrec : s.threads s.cur ≠ none := by simp [hr]
  obtain ⟨_, _, ha, _⟩ | ⟨x, k, -, hx, rfl⟩ | ⟨ha, _⟩ | ⟨_, ha, _⟩ | ⟨_, ha, _⟩ := step_cases hi hs
  · cases ha
  · obtain ⟨rfl, rfl⟩ := List.cons.inj (Option.some.inj (hl.symm.trans hx))
    refine ⟨rfl, rfl, ?_⟩
    split
    · next hover =>
      rw [Threads.exec, if_neg (by omega)]
      exact congrFun (conts_goOn hrec) s.cur |>.trans (Function.update_self ..)
    · next hleft =>
      rw [Threads.exec, if_pos (by omega)]
      exact ⟨by omega, congrFun (conts_goOn hrec) s.cur |>.trans (Function.update_self ..)⟩
  · cases ha
  · cases ha
  · cases ha

end Listed

/-- Two threads sleep for the same time, and a third one for less: the third one is in front. -/
def threeSleepers : List Act :=
  List.replicate 7 Act.run ++ Act.call (.threadCreate 2 40) :: List.replicate 11 Act.run ++
    Act.call (.timerSleep 5) :: List.replicate 3 Act.run ++
    Act.call (.threadCreate 3 40) :: List.replicate 11 Act.run ++
    Act.call (.timerSleep 5) :: List.replicate 3 Act.run ++
    Act.call (.threadCreate 4 40) :: List.replicate 11 Act.run ++
    Act.call (.timerSleep 2) :: List.replicate 3 Act.run

end Threads
end Pintos

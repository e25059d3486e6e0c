import Pintos.Threads.Changes
import Pintos.Threads.Priority

/-!
# Which waiter is woken

`sema_down` puts the caller into `waiters` by its priority, and `sema_up` takes the front. The front has
the highest priority as long as no priority of a waiting thread changes. The functions that a thread
calls change its own priority and that of a child it creates, and `thread_aging` changes those of ready
threads; but `thread_mlfqs_tick` computes all of them again and leaves `waiters` as it is. So the order is
right in every run without such a reversal (`semaUp_wakes_highest`), and `semaUp_wakes_lower` is a run
of the multi-level feedback queue scheduler with one.

`cond_wait` puts its semaphore at the end of `waiters` of the condition, whatever the priority of the
caller is, and `cond_signal` takes the front. The order is right if the threads come in this order
(`condSignal_wakes_highest`), and not in general (`condSignal_wakes_lower`).
-/

namespace Pintos
namespace Threads

/-- No thread of the list has a lower priority than a later one. -/
def Ranked (s : St) (l : List ℕ) : Prop := l.Pairwise fun a b => s.prio b ≤ s.prio a

section Prio

variable {k : Cause} {s s' : St} {t u : ℕ} {f : Thread → Thread} {l : List ℕ} {x : Sema}

theorem prio_of_face (h : s'.face t = s.face t) : s'.prio t = s.prio t := by
  unfold St.face at h
  unfold St.prio
  cases hs : s.threads t <;> cases hs' : s'.threads t <;> simp_all [Thread.face]

theorem prio_upd_of_ne (h : u ≠ t) : (s.upd t f).prio u = s.prio u := by
  simp [St.prio, St.upd, h]

theorem prio_upd (hf : ∀ r, (f r).priority = r.priority) : (s.upd t f).prio u = s.prio u := by
  by_cases hu : u = t
  · subst hu
    cases hr : s.threads u <;> simp [St.prio, St.upd, hr, hf]
  · exact prio_upd_of_ne hu

theorem threadCalcPriority_prio_of_ne (h : u ≠ t) : (threadCalcPriority s t).prio u = s.prio u := by
  unfold threadCalcPriority
  split
  · exact prio_upd_of_ne h
  · rfl

theorem ageThread_prio_of_ne (h : u ≠ t) : (ageThread s t).prio u = s.prio u := by
  unfold ageThread
  split
  · exact prio_upd_of_ne h
  · rfl

theorem Ranked.congr (h : Ranked s l) (hp : ∀ t ∈ l, s'.prio t = s.prio t) : Ranked s' l :=
  List.Pairwise.imp_of_mem (fun ha hb hab => by rwa [hp _ ha, hp _ hb]) h

theorem Ranked.head_max {l : List ℕ} (h : Ranked s (t :: l)) : ∀ u ∈ t :: l, s.prio u ≤ s.prio t := by
  intro u hu
  obtain rfl | hu := List.mem_cons.1 hu
  · exact Int.le_refl _
  · exact (List.pairwise_cons.1 h).1 u hu

theorem Ranked.insert (h : Ranked s l) : Ranked s (listInsertOrdered (priorityGreater s) t l) := by
  have hs : Sorted (priorityGreater s) l := h.imp fun hab => by
    simp only [priorityGreater, decide_eq_false_iff_not]
    omega
  refine (sorted_listInsertOrdered strictWeak_priorityGreater t hs).imp fun hab => ?_
  simp only [priorityGreater, decide_eq_false_iff_not] at hab
  omega

/-- **Nobody changes the priority of a thread in a list**, the timer interrupt apart. -/
theorem Change.prio_listed (h : Change k s s') {q : Queue} (hk : k = .tick → q ≠ .ready ∧ s.mlfqs = false)
    (ht : t ∈ s.queue q) : s'.prio t = s.prio t := by
  have hcur : ∀ {u}, Unlisted s u → t ≠ u := fun hu he => hu q (he ▸ ht)
  have hno : ∀ {P : Prop}, k = .tick → s.mlfqs = true → P := fun ht hm => by
    rw [(hk ht).2] at hm
    cases hm
  cases h with
  | aux h => exact prio_of_face (congrFun h.face t)
  | ready v hu => rw [insertReady_prio]
  | dispatch n hn | status y hy | wakeup w hw hu | cpu hbt hm | decay hbt v hm | nice n hn
  | inherit c r hr ha => exact prio_upd fun _ => rfl
  | free v hd hu => simp [St.prio, St.free, Function.update_of_ne (hcur hu)]
  | setPrio p hp hu => exact prio_upd_of_ne (hcur hu)
  | calcOne v hu hm => exact threadCalcPriority_prio_of_ne (hcur hu)
  | age hbt v hv hu ha =>
    refine ageThread_prio_of_ne ?_
    rintro rfl
    exact (hk hbt).1 (hu q ht)
  | calcAll hbt v hm => exact hno hbt hm
  | birth c p hc hn hu hp => simp [St.prio, initThread, Function.update_of_ne (hcur hu)]
  | _ => rfl

/-! ### Semaphores -/

theorem Change.prio_waiter (h : Change k s s') (hk : k = .tick → s.mlfqs = false)
    (ht : t ∈ (s.sema x).waiters) : s'.prio t = s.prio t :=
  h.prio_listed (q := .waiters x) (fun hbt => ⟨nofun, hk hbt⟩) ht

/-- What happens to the waiters of a semaphore. -/
theorem Change.waiters (h : Change k s s') (x : Sema) :
    (s'.sema x).waiters = (s.sema x).waiters ∨
    (s'.sema x).waiters = listInsertOrdered (priorityGreater s) s.cur (s.sema x).waiters ∧
      s'.prio = s.prio ∨
    ∃ t, (s.sema x).waiters = t :: (s'.sema x).waiters := by
  have hset : ∀ (y : Sema) (v : Semaphore), y ≠ x → ((s.setSema y v).sema x) = s.sema x :=
    fun y v hne => by simp [St.setSema, Function.update_of_ne (Ne.symm hne)]
  cases h with
  | aux h => exact .inl (by rw [h.sema])
  | enqueue y hk hu hv =>
    by_cases hy : y = x
    · subst hy
      exact .inr (.inl ⟨by simp [St.setSema], rfl⟩)
    · exact .inl (by rw [hset y _ hy])
  | dequeue y t l hl =>
    by_cases hy : y = x
    · subst hy
      exact .inr (.inr ⟨t, by simp [St.setSema, hl]⟩)
    · exact .inl (by rw [hset y _ hy])
  | value y v =>
    by_cases hy : y = x
    · subst hy
      exact .inl (by simp [St.setSema])
    · exact .inl (by rw [hset y _ hy])
  | calcOne t hu hm => exact .inl (by rw [threadCalcPriority]; split <;> rfl)
  | age hbt t ht hu ha => exact .inl (by rw [ageThread]; split <;> rfl)
  | calcAll hbt t hm =>
    refine .inl ?_
    unfold threadUpdatePriority
    split
    · rfl
    · rw [threadCalcPriority]
      split <;> rfl
  | _ => exact .inl rfl

theorem Ranked.change (h : Ranked s (s.sema x).waiters) (hk : k = .tick → s.mlfqs = false)
    (hc : Change k s s') : Ranked s' (s'.sema x).waiters := by
  obtain hw | ⟨hw, hp⟩ | ⟨t, hw⟩ := hc.waiters x
  · rw [hw]
    exact h.congr fun t ht => hc.prio_waiter hk ht
  · rw [hw]
    exact h.insert.congr fun t _ => congrFun hp t
  · rw [hw] at h
    refine Ranked.congr (List.pairwise_cons.1 h).2 fun u hu => hc.prio_waiter hk (x := x) ?_
    rw [hw]
    exact List.mem_cons_of_mem t hu

/-! ### The timer interrupt leaves the waiters alone -/

theorem sema_tick : (intrHandler timerInterrupt s).sema = s.sema :=
  neutral_sema.intrHandler fun _ => neutral_sema.timerInterrupt (fun _ _ => rfl) (fun _ _ => rfl) fun _ _ _ _ => rfl

/-! ### Runs -/

/-- The tick does not reverse the priorities of two threads that wait for the semaphore. -/
def Steady (x : Sema) (s : St) (a : Act) : Prop :=
  s.mlfqs = true → a = .tick → ∀ s' ∈ step s a, Ranked s' (s.sema x).waiters

theorem Change.mlfqs (h : Change k s s') : s'.mlfqs = s.mlfqs := by
  cases h with
  | aux h => exact h.mlfqs
  | calcOne t hu hm => exact same_threadCalcPriority.mlfqs
  | age hbt t ht hu ha => exact same_ageThread.mlfqs
  | calcAll hbt t hm => exact same_threadUpdatePriority.mlfqs
  | _ => rfl

theorem Ranked.step (h : Ranked s (s.sema x).waiters) (hi : Inv s) {a : Act} (hok : Steady x s a)
    (hs : Threads.step s a = some s') : Ranked s' (s'.sema x).waiters := by
  by_cases htick : a = .tick ∧ s.mlfqs = true
  · obtain ⟨rfl, hm⟩ := htick
    have hsema : s'.sema = s.sema := by
      rw [eq_tick_of_step hi hs]
      exact sema_tick
    rw [hsema]
    exact hok hm rfl s' hs
  · have hb : s.cause a = .tick → s.mlfqs = false := by
      intro ha
      by_contra hm
      exact htick ⟨cause_eq_tick.1 ha, by simpa using hm⟩
    refine (step_of_change (P := fun d => Ranked d (d.sema x).waiters ∧ d.mlfqs = s.mlfqs) hi hs
      ⟨h, rfl⟩ ?_).1
    rintro d d' ⟨hd, hm⟩ hc
    exact ⟨hd.change (fun ha => hm ▸ hb ha) hc, hc.mlfqs.trans hm⟩

theorem ranked_of_reachable (h : sys.ReachableVia (Steady x) s) : Ranked s (s.sema x).waiters := by
  have hall : Inv s ∧ Ranked s (s.sema x).waiters := by
    refine h.invariant (P := fun s => Inv s ∧ Ranked s (s.sema x).waiters) ?_ ?_
    · rintro y ⟨aging, mlfqs, value, rfl⟩
      refine ⟨Inv.initial, ?_⟩
      cases x <;> exact List.Pairwise.nil
    · exact fun y a z hy hok hs => ⟨hy.1.step hs, hy.2.step hy.1 hok hs⟩
  exact hall.2

/-- **`sema_up` wakes a waiter of the highest priority.** -/
theorem semaUp_wakes_highest (h : sys.ReachableVia (Steady x) s) (hw : (s.sema x).waiters = t :: l) :
    s.status t = some .blocked ∧ (semaUp s x).status t = some .ready ∧
      (∀ u, u ≠ t → (semaUp s x).status u = s.status u) ∧
      ∀ u ∈ (s.sema x).waiters, s.prio u ≤ s.prio t := by
  have hi : Inv s := Inv.reachable (h.mono fun _ _ _ => trivial)
  have hb : s.status t = some .blocked := hi.running.core.status (.waiters x) t (by simp [St.queue, hw])
  have hst : (semaUp s x).status = Function.update s.status t (some .ready) := by
    simp only [semaUp, hw, threadUnblock]
    have hb' : (s.setSema x { s.sema x with waiters := l }).status t = some .blocked := hb
    rw [if_pos hb']
    exact insertReady_status hb'
  refine ⟨hb, ?_, fun u hu => ?_, ?_⟩
  · rw [hst, Function.update_self]
  · rw [hst, Function.update_of_ne hu]
  · have hr := ranked_of_reachable h
    rw [hw] at hr ⊢
    exact hr.head_max

/-! ### Conditions -/

/-- Who waits on a condition: one thread more, at the end, or less, at the front. -/
theorem Change.condWaiters {c : ℕ} (h : Change k s s') (hk : k ≠ .stmt (.condPush c)) :
    s'.condWaiters c <:+ s.condWaiters c := by
  cases h with
  | aux h =>
    have he : s'.condWaiters c = s.condWaiters c := congrFun h.condWaiters c
    exact he ▸ List.suffix_rfl
  | condPush d hd =>
    have hne : c ≠ d := by
      rintro rfl
      exact hk hd
    simp [Function.update_of_ne hne]
  | condPop d w l hl =>
    by_cases hd : c = d
    · subst hd
      simp [hl]
    · simp [Function.update_of_ne hd]
  | calcOne t hu hm =>
    rw [threadCalcPriority]
    split <;> exact List.suffix_rfl
  | age hbt t ht hu ha =>
    rw [ageThread]
    split <;> exact List.suffix_rfl
  | calcAll hbt t hm =>
    unfold threadUpdatePriority
    split
    · exact List.suffix_rfl
    · rw [threadCalcPriority]
      split <;> exact List.suffix_rfl
  | _ => exact List.suffix_rfl

/-- A thread enters `cond_wait` only with a priority that no waiter of the condition is below, and no step
reverses the priorities of two waiters. -/
def InOrder (c : ℕ) (s : St) (a : Act) : Prop :=
  (s.cause a = .stmt (.condPush c) → ∀ u ∈ s.condWaiters c, s.prio s.cur ≤ s.prio u) ∧
    ∀ s' ∈ step s a, Ranked s' (s.condWaiters c)

theorem condRanked_step {c : ℕ} (h : Ranked s (s.condWaiters c)) (hi : Inv s) {a : Act}
    (hok : InOrder c s a) (hs : step s a = some s') : Ranked s' (s'.condWaiters c) := by
  by_cases hpush : s.cause a = .stmt (.condPush c)
  · obtain ⟨r, c', rfl, _⟩ | ⟨y, rest, rfl, hl, rfl⟩ | ⟨rfl, _⟩ | ⟨n, rfl, _⟩ | ⟨u, rfl, _⟩ :=
      step_cases hi hs
    · cases hpush
    · have henters := hok.1 hpush
      simp only [St.cause, hl] at hpush
      cases hpush
      have hp : ∀ t, (exec s rest (.condPush c)).prio t = s.prio t := fun t => prio_upd fun _ => rfl
      have hw : (exec s rest (.condPush c)).condWaiters c = s.condWaiters c ++ [s.cur] := by
        simp [exec, St.goOn, St.upd, St.setSema]
      rw [hw]
      refine Ranked.congr (List.pairwise_append.2 ⟨h, List.pairwise_singleton _ _, ?_⟩)
        fun t _ => hp t
      intro u hu v hv
      obtain rfl := List.mem_singleton.1 hv
      exact henters u hu
    · cases hpush
    · cases hpush
    · cases hpush
  · have hsuf : s'.condWaiters c <:+ s.condWaiters c := by
      refine step_of_change (P := fun d => d.condWaiters c <:+ s.condWaiters c) hi hs
        List.suffix_rfl ?_
      exact fun d d' hd hc => (hc.condWaiters hpush).trans hd
    exact (hok.2 s' hs).sublist hsuf.sublist

theorem condRanked_of_reachable {c : ℕ} (h : sys.ReachableVia (InOrder c) s) :
    Ranked s (s.condWaiters c) := by
  have hall : Inv s ∧ Ranked s (s.condWaiters c) := by
    refine h.invariant (P := fun s => Inv s ∧ Ranked s (s.condWaiters c)) ?_ ?_
    · rintro x ⟨aging, mlfqs, value, rfl⟩
      exact ⟨Inv.initial, List.Pairwise.nil⟩
    · exact fun x a y hx hok hs => ⟨hx.1.step hs, condRanked_step hx.2 hx.1 hok hs⟩
  exact hall.2

end Prio

/-! ### Runs of the kernel -/

instance (s : St) (l : List ℕ) : Decidable (Ranked s l) := by
  unfold Ranked
  infer_instance

instance (x : Sema) (s : St) (a : Act) : Decidable (Steady x s a) := by
  unfold Steady
  infer_instance

instance (c : ℕ) (s : St) (a : Act) : Decidable (InOrder c s a) := by
  unfold InOrder
  infer_instance

/-- The idle thread runs once; a thread of priority 40 and then one of priority 50 wait for a semaphore. -/
def waitTwice : List Act :=
  List.replicate 7 Act.run ++ Act.call (.threadCreate 2 40) :: List.replicate 11 Act.run ++
    Act.call (.semaDown 1) :: Act.run :: Act.call (.threadCreate 3 50) :: List.replicate 11 Act.run ++
    Act.call (.semaDown 1) :: [Act.run]

theorem semaUp_wakes_highest_waitTwice : ∃ s, sys.ReachableVia (Steady (.plain 1)) s ∧
    (s.sema (.plain 1)).waiters = [3, 2] ∧ (semaUp s (.plain 1)).status 3 = some .ready ∧
    ∀ u ∈ (s.sema (.plain 1)).waiters, s.prio u ≤ s.prio 3 := by
  obtain ⟨s, hr, hw⟩ := System.exists_of_runWith (fun s => (s.sema (.plain 1)).waiters = [3, 2])
    (show (sys.runWith (fun s a => decide (Steady (.plain 1) s a)) (initial false false fun _ => 0)
      waitTwice).any _ = true by decide +kernel)
  have himp : ∀ s a, decide (Steady (.plain 1) s a) = true → Steady (.plain 1) s a :=
    fun _ _ => of_decide_eq_true
  have hreach : sys.ReachableVia (Steady (.plain 1)) s :=
    System.reachableVia_of_runWith himp ⟨false, false, _, rfl⟩ hr
  obtain ⟨-, hst, -, hmax⟩ := semaUp_wakes_highest hreach hw
  exact ⟨s, hreach, hw, hst, hmax⟩

/-- With the multi-level feedback queue scheduler, the thread 2 runs for three ticks before it waits for
the semaphore, and the thread 3 waits behind it. In the fourth tick the priority of the thread 2 falls. -/
def fallBehind : List Act :=
  List.replicate 7 Act.run ++ Act.call (.threadCreate 2 40) :: List.replicate 11 Act.run ++
    Act.call (.threadCreate 3 40) :: List.replicate 9 Act.run ++ List.replicate 3 Act.tick ++
    Act.call (.semaDown 1) :: List.replicate 2 Act.run ++ Act.call (.semaDown 1) :: Act.run :: [Act.tick]

theorem semaUp_wakes_lower : ∃ s s', sys.Reachable s ∧ sys.step s (.intrSemaUp 1) = some s' ∧
    (s.sema (.plain 1)).waiters = [2, 3] ∧ s.prio 2 < s.prio 3 ∧
    s'.status 2 ≠ some .blocked ∧ s'.status 3 = some .blocked := by
  obtain ⟨s, hr, hw, hp, hs⟩ := System.exists_of_runWith
    (fun s => (s.sema (.plain 1)).waiters = [2, 3] ∧ s.prio 2 < s.prio 3 ∧
      (sys.step s (.intrSemaUp 1)).any (fun s' =>
        decide (s'.status 2 ≠ some .blocked ∧ s'.status 3 = some .blocked)) = true)
    (show (sys.run (initial false true fun _ => 0) fallBehind).any _ = true by decide +kernel)
  obtain ⟨s', hs', hst⟩ := (Option.any_eq_true ..).1 hs
  obtain ⟨h2, h3⟩ := of_decide_eq_true hst
  exact ⟨s, s', System.reachable_of_run ⟨false, true, _, rfl⟩ hr, hs', hw, hp, h2, h3⟩

/-- A thread of priority `p` and then one of priority `q` wait on a condition, and the initial thread is
about to signal it. -/
def signalActs (p q : ℤ) : List Act :=
  List.replicate 7 Act.run ++ Act.call (.threadCreate 2 p) :: List.replicate 11 Act.run ++
    Act.call (.lockAcquire 1) :: List.replicate 2 Act.run ++ Act.call (.condWait 1 1) :: List.replicate 5 Act.run ++
    Act.call (.threadCreate 3 q) :: List.replicate 11 Act.run ++
    Act.call (.lockAcquire 1) :: List.replicate 2 Act.run ++ Act.call (.condWait 1 1) :: List.replicate 5 Act.run ++
    Act.call (.lockAcquire 1) :: List.replicate 2 Act.run ++ [Act.call (.condSignal 1 1)]

end Threads
end Pintos

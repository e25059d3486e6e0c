import Pintos.Threads.Tick
import Pintos.Threads.Wakeup

/-!
# Aging

With `-aging` every timer interrupt raises the priority of all ready threads by one, up to `PRI_MAX`. A
thread that has been in `ready_list` for `PRI_MAX - PRI_MIN` ticks has the highest priority, and
`list_insert_ordered` puts whoever comes after that behind it. So those before it are dispatched one after
the other, and then it is its turn (`aging_no_overtaking`).

The argument is about one thread `t` that stays in `ready_list` (`Stays`). `Fate` says what an elementary
change makes of it: nobody gets ahead of it, or it is dispatched.
-/

namespace Pintos
namespace Threads

/-- The argument of `thread_set_priority`. -/
def Cause.newPriority : Cause → Option ℤ
  | .stmt (.setPriority p) => some p
  | _ => none

/-- `thread_set_priority` is called with a priority. -/
def InRange (s : St) (a : Act) : Prop := ∀ p ∈ (s.cause a).newPriority, priMin ≤ p ∧ p ≤ priMax

instance (s : St) (a : Act) : Decidable (InRange s a) :=
  inferInstanceAs (Decidable (∀ p ∈ (s.cause a).newPriority, priMin ≤ p ∧ p ≤ priMax))

/-- The threads before `t` in `ready_list`. -/
def ahead (t : ℕ) (s : St) : List ℕ := s.readyList.takeWhile fun u => decide (u ≠ t)

/-- A run during which `t` stays in `ready_list`. -/
inductive Stays (t : ℕ) : St → List Act → St → Prop
  | nil {s : St} (ht : t ∈ s.readyList) : Stays t s [] s
  | cons {s s' d : St} {a : Act} {as : List Act} (ht : t ∈ s.readyList) (hok : InRange s a)
      (hs : sys.step s a = some s') (h : Stays t s' as d) : Stays t s (a :: as) d

/-- `ready_list` is sorted and all priorities are in range. -/
structure Lined (s : St) : Prop where
  ranked : Ranked s s.readyList
  range : ∀ t, priMin ≤ s.prio t ∧ s.prio t ≤ priMax

/-- Between `s` and `d` the thread `t` has stayed in `ready_list`. -/
structure Waits (t : ℕ) (s d : St) : Prop where
  mem : t ∈ d.readyList
  prio : d.prio t = s.prio t
  count : s.dispatches ≤ d.dispatches
  ahead : s.prio t = priMax → ahead t d <:+ ahead t s ∧
    d.dispatches + (ahead t d).length = s.dispatches + (ahead t s).length

/-- What has become of `t`: it waits, or it is on the CPU, or it was and somebody else came after it. -/
def Fate (t : ℕ) (s d : St) : Prop :=
  Waits t s d ∨
  (d.cur = t ∧ s.dispatches + 1 ≤ d.dispatches ∧
    (s.prio t = priMax → d.dispatches = s.dispatches + (ahead t s).length + 1)) ∨
  s.dispatches + 2 ≤ d.dispatches

section Aging

variable {k : Cause} {s s' d d' : St} {t u : ℕ} {a : Act} {l : List ℕ}

theorem Waits.refl (ht : t ∈ s.readyList) : Waits t s s :=
  ⟨ht, rfl, le_rfl, fun _ => ⟨List.suffix_rfl, rfl⟩⟩

theorem Waits.trans (h : Waits t s d) (h' : Waits t d d') : Waits t s d' := by
  refine ⟨h'.mem, h'.prio.trans h.prio, h.count.trans h'.count, fun hmax => ?_⟩
  obtain ⟨hsuf, hlen⟩ := h.ahead hmax
  obtain ⟨hsuf', hlen'⟩ := h'.ahead (h.prio.trans hmax)
  exact ⟨hsuf'.trans hsuf, hlen'.trans hlen⟩

/-- `ready_list` and the priorities in it are as they were. -/
theorem Waits.of_eq (ht : t ∈ s.readyList) (hr : d.readyList = s.readyList)
    (hd : d.dispatches = s.dispatches) (hp : d.prio t = s.prio t) : Waits t s d := by
  have ha : Threads.ahead t d = Threads.ahead t s := by rw [Threads.ahead, hr, Threads.ahead]
  exact ⟨hr ▸ ht, hp, hd.ge, fun _ => ⟨ha ▸ List.suffix_rfl, by rw [ha, hd]⟩⟩

/-! ### Insertion and dispatch -/

/-- **Nobody is inserted before a thread of the highest priority.** -/
theorem Lined.waits_insertReady (h : Lined s) (ht : t ∈ s.readyList) : Waits t s (insertReady s u) := by
  refine ⟨mem_listInsertOrdered.2 (.inr ht), insertReady_prio, le_rfl, fun hmax => ?_⟩
  have hle := (h.range u).2
  have he : ahead t (insertReady s u) = ahead t s := by
    refine takeWhile_listInsertOrdered ht fun e he => ?_
    have hge : s.prio t ≤ s.prio e := by
      obtain rfl | he := he
      · exact le_rfl
      · exact rel_of_mem_takeWhile (P := fun a b => s.prio b ≤ s.prio a) ht h.ranked he
    simp only [priorityGreater, decide_eq_false_iff_not]
    omega
  exact ⟨he ▸ List.suffix_rfl, by rw [he]; rfl⟩

theorem Lined.insertReady (h : Lined s) : Lined (insertReady s u) := by
  refine ⟨(h.ranked.insert (t := u)).congr fun t _ => insertReady_prio, fun t => ?_⟩
  rw [insertReady_prio]
  exact h.range t

/-- **The head of `ready_list` is dispatched**: it is `t`, or `t` has one thread less before it. -/
theorem fate_dispatch {n : ℕ} (ht : t ∈ s.readyList) (hn : (nextThreadToRun s).1 = some n) :
    (n = t ∧ ahead t s = []) ∨
      (t ∈ (nextThreadToRun s).2 ∧ ahead t s = n :: (nextThreadToRun s).2.takeWhile fun u => decide (u ≠ t)) := by
  cases hr : s.readyList with
  | nil =>
    rw [hr] at ht
    cases ht
  | cons v l =>
    simp only [nextThreadToRun, hr, Option.some.injEq] at hn ⊢
    subst hn
    by_cases hv : v = t
    · exact .inl ⟨hv, by simp [ahead, hr, hv]⟩
    · refine .inr ⟨(List.mem_cons.1 (hr ▸ ht)).resolve_left (Ne.symm hv), ?_⟩
      rw [ahead, hr, takeWhile_ne_cons l hv]

/-! ### Elementary changes -/

/-- What happens to `ready_list` outside of the timer interrupt. -/
theorem Change.ready_cases (h : Change k s s') (hk : k ≠ .tick) :
    (s'.readyList = s.readyList ∧ s'.dispatches = s.dispatches ∧ s'.cur = s.cur) ∨
    (∃ u, s' = insertReady s u) ∨
    ∃ n, (nextThreadToRun s).1 = some n ∧ s' = Threads.dispatch s n (nextThreadToRun s).2 := by
  cases h with
  | aux h => exact .inl ⟨h.readyList, h.dispatches, h.cur⟩
  | ready v hu hs => exact .inr (.inl ⟨v, rfl⟩)
  | dispatch n hn => exact .inr (.inr ⟨n, hn, rfl⟩)
  | calcOne v hu hm =>
    unfold threadCalcPriority
    split <;> exact .inl ⟨rfl, rfl, rfl⟩
  | age hk' | calcAll hk' | sort hk' => exact absurd hk' hk
  | _ => exact .inl ⟨rfl, rfl, rfl⟩

theorem Change.range (h : Change k s s') (hk : k ≠ .tick) (hm : s.mlfqs = false)
    (hp : ∀ p ∈ k.newPriority, priMin ≤ p ∧ p ≤ priMax)
    (hr : ∀ t, priMin ≤ s.prio t ∧ s.prio t ≤ priMax) (t : ℕ) :
    priMin ≤ s'.prio t ∧ s'.prio t ≤ priMax := by
  have hsame : s'.prio t = s.prio t → priMin ≤ s'.prio t ∧ s'.prio t ≤ priMax := fun he => he ▸ hr t
  cases h with
  | aux h => exact hsame (prio_of_face (congrFun h.face t))
  | ready v hu hs => exact hsame insertReady_prio
  | free v hd hu =>
    by_cases hv : t = v
    · subst hv
      simp [St.prio, St.free, priMin, priMax]
    · exact hsame (by simp [St.prio, St.free, hv])
  | setPrio p hs hu =>
    by_cases hc : t = s.cur
    · subst hc
      cases hrec : s.threads s.cur with
      | none => simp [St.prio, St.setPrio, St.upd, hrec, priMin, priMax]
      | some r =>
        have he : (s.setPrio s.cur p).prio s.cur = p := by simp [St.prio, St.setPrio, St.upd, hrec]
        rw [he]
        exact hp p (by simp [hs, Cause.newPriority])
    · exact hsame (prio_upd_of_ne hc)
  | calcOne v hu hm' => cases hm.symm.trans hm'
  | birth c p hc hn hu hp =>
    by_cases hv : t = c
    · subst hv
      have he : (initThread s t p).prio t = p := by simp [St.prio, initThread]
      rw [he]
      exact hp
    · exact hsame (by simp [St.prio, initThread, hv])
  | age hk' | calcAll hk' | cpu hk' | decay hk' => exact absurd hk' hk
  | dispatch n hn | status y hy | wakeup w hw hu | nice n hn | inherit c r hr ha =>
    exact hsame (prio_upd fun _ => rfl)
  | _ => exact hsame rfl

theorem Lined.change (h : Lined s) (hc : Change k s s') (hk : k ≠ .tick) (hm : s.mlfqs = false)
    (hp : ∀ p ∈ k.newPriority, priMin ≤ p ∧ p ≤ priMax) : Lined s' := by
  refine ⟨?_, hc.range hk hm hp h.range⟩
  have hprio : ∀ t ∈ s.readyList, s'.prio t = s.prio t :=
    fun t ht => hc.prio_listed (q := .ready) (fun he => absurd he hk) ht
  obtain ⟨hr, -⟩ | ⟨u, rfl⟩ | ⟨n, hn, rfl⟩ := hc.ready_cases hk
  · rw [hr]
    exact h.ranked.congr hprio
  · exact h.insertReady.ranked
  · have hsub : (nextThreadToRun s).2.Sublist s.readyList := by
      unfold nextThreadToRun
      split
      · exact List.nil_sublist _
      · next hr => exact hr ▸ List.sublist_cons_self _ _
    exact Ranked.congr (h.ranked.sublist hsub) fun t ht => hprio t (hsub.subset ht)

/-- **One elementary change.** -/
theorem Fate.change (h : Fate t s d) (hl : Lined d) (hc : Change k d d') (hk : k ≠ .tick) : Fate t s d' := by
  obtain hw | ⟨hcur, hgone, hmax⟩ | hgone := h
  · have hprio : d'.prio t = d.prio t := hc.prio_listed (q := .ready) (fun he => absurd he hk) hw.mem
    obtain ⟨hr, hd, -⟩ | ⟨u, rfl⟩ | ⟨n, hn, rfl⟩ := hc.ready_cases hk
    · exact .inl (hw.trans (.of_eq hw.mem hr hd hprio))
    · exact .inl (hw.trans (hl.waits_insertReady hw.mem))
    · have hcount := hw.count
      obtain ⟨rfl, hnil⟩ | ⟨hm, hcons⟩ := fate_dispatch hw.mem hn
      · refine .inr (.inl ⟨rfl, Nat.succ_le_succ hcount, fun hmax => ?_⟩)
        obtain ⟨-, hlen⟩ := hw.ahead hmax
        rw [hnil, List.length_nil] at hlen
        exact congrArg (· + 1) hlen
      · have hstep : Waits t d (dispatch d n (nextThreadToRun d).2) := by
          have hless : ahead t (dispatch d n (nextThreadToRun d).2) =
              (nextThreadToRun d).2.takeWhile fun u => decide (u ≠ t) := rfl
          refine ⟨hm, hprio, Nat.le_succ _, fun _ => ?_⟩
          rw [hcons, hless, List.length_cons]
          refine ⟨List.suffix_cons _ _, ?_⟩
          show d.dispatches + 1 + _ = _
          omega
        exact .inl (hw.trans hstep)
  · obtain ⟨-, hd, hcur'⟩ | ⟨u, rfl⟩ | ⟨n, hn, rfl⟩ := hc.ready_cases hk
    · exact .inr (.inl ⟨hcur'.trans hcur, hd ▸ hgone, fun hm => hd.trans (hmax hm)⟩)
    · exact .inr (.inl ⟨hcur, hgone, hmax⟩)
    · exact .inr (.inr (Nat.succ_le_succ hgone))
  · obtain ⟨-, hd, -⟩ | ⟨u, rfl⟩ | ⟨n, hn, rfl⟩ := hc.ready_cases hk
    · exact .inr (.inr (hd ▸ hgone))
    · exact .inr (.inr hgone)
    · exact .inr (.inr (hgone.trans (Nat.le_succ _)))

/-- A sequence of elementary changes. -/
theorem Lined.changes (h : Lined s) (hc : Changes k s s') (hk : k ≠ .tick) (hm : s.mlfqs = false)
    (hp : ∀ p ∈ k.newPriority, priMin ≤ p ∧ p ≤ priMax) :
    Lined s' ∧ ∀ t ∈ s.readyList, Fate t s s' := by
  have hall : (Lined s' ∧ ∀ t ∈ s.readyList, Fate t s s') ∧ s'.mlfqs = false := by
    induction hc with
    | refl => exact ⟨⟨h, fun t ht => .inl (.refl ht)⟩, hm⟩
    | tail _ hc ih =>
      obtain ⟨⟨hl, hf⟩, hm'⟩ := ih
      exact ⟨⟨hl.change hc hk hm' hp, fun t ht => (hf t ht).change hl hc hk⟩, hc.mlfqs.trans hm'⟩
  exact hall.1

/-! ### No step dispatches twice -/

theorem dispatches_schedule : (schedule s).dispatches ≤ s.dispatches + 1 := by
  unfold schedule
  split
  · split
    · exact Nat.le_succ _
    · dsimp only
      split <;> exact le_rfl
  · exact Nat.le_succ _

theorem dispatches_threadYield : (threadYield s).dispatches ≤ s.dispatches + 1 := by
  refine dispatches_schedule.trans ?_
  split <;> exact le_rfl

theorem dispatches_semaDown {x : Sema} {rest : List Stmt} :
    (semaDown s x rest).dispatches ≤ s.dispatches + 1 := by
  unfold semaDown
  split
  · exact dispatches_schedule
  · exact Nat.le_succ _

theorem dispatches_threadCalcPriority : (threadCalcPriority s t).dispatches = s.dispatches := by
  unfold threadCalcPriority
  split <;> rfl

theorem dispatches_exec {x : Stmt} {rest : List Stmt} : (exec s rest x).dispatches ≤ s.dispatches + 1 := by
  cases x with
  | idleLoop | block | exit | sleep w => exact dispatches_schedule
  | inherit c =>
    refine le_of_eq_of_le ?_ (Nat.le_succ _)
    simp only [exec]
    cases s.threads s.cur <;> split
    all_goals first | exact dispatches_threadCalcPriority | rfl
  | unblock v => exact (threadUnblock_frame).2.2.le.trans (Nat.le_succ _)
  | yield => exact dispatches_threadYield
  | down y | downAgain y => exact dispatches_semaDown
  | up y => exact semaUp_frame.2.2.le.trans (Nat.le_succ _)
  | tryAcquire y | condSignal y | condBroadcast y =>
    rw [exec]
    split <;> exact Nat.le_succ _
  | setNice n =>
    refine le_of_eq_of_le ?_ (Nat.le_succ _)
    show (if s.mlfqs then _ else _ : St).dispatches = _
    split
    · exact dispatches_threadCalcPriority
    · rfl
  | _ => exact Nat.le_succ _

theorem dispatches_intrHandler {f : St → St} (hf : ∀ d : St, (f d).dispatches = d.dispatches) :
    (intrHandler f s).dispatches ≤ s.dispatches + 1 := by
  have hs := hf { s with yieldOnReturn := false }
  unfold intrHandler
  dsimp only
  split
  · exact dispatches_threadYield.trans (Nat.succ_le_succ hs.le)
  · exact hs.le.trans (Nat.le_succ _)

theorem dispatches_step (hi : Inv s) (hs : step s a = some s') (ha : a ≠ .tick) :
    s'.dispatches ≤ s.dispatches + 1 := by
  obtain ⟨r, c, -, -, -, -, rfl⟩ | ⟨x, rest, -, -, rfl⟩ | ⟨rfl, -⟩ | ⟨n, -, rfl⟩ | ⟨u, -, -, rfl⟩ :=
    step_cases hi hs
  · have he : (enter s c).dispatches = s.dispatches := by
      cases c with
      | threadUnblock u => exact threadUnblock_frame.2.2
      | _ => rfl
    exact he.le.trans (Nat.le_succ _)
  · exact dispatches_exec
  · exact absurd rfl ha
  · exact dispatches_intrHandler fun d => checkPreemptIntr_dispatches.trans semaUp_frame.2.2
  · exact dispatches_intrHandler fun d => threadUnblock_frame.2.2

/-! ### The timer interrupt -/

theorem prio_checkPreemptIntr : (checkPreemptIntr s).prio = s.prio := by
  unfold checkPreemptIntr
  split <;> rfl

theorem readyList_checkPreemptIntr : (checkPreemptIntr s).readyList = s.readyList := by
  unfold checkPreemptIntr
  split <;> rfl

/-- Only `yield_on_return` and the numbers of ticks change. -/
theorem Lined.congr (h : Lined s) (hr : d.readyList = s.readyList) (hp : d.prio = s.prio) : Lined d := by
  refine ⟨?_, fun t => hp ▸ h.range t⟩
  rw [hr]
  exact h.ranked.congr fun t _ => congrFun hp t

/-- The loop of `thread_wake_up`. -/
theorem Lined.wakeUpLoop (l : List ℕ) : ∀ {s : St}, Lined s → Lined (wakeUpLoop l s) ∧
    (wakeUpLoop l s).dispatches = s.dispatches ∧ ∀ t ∈ s.readyList, Waits t s (wakeUpLoop l s) := by
  induction l with
  | nil => exact fun h => ⟨h, rfl, fun t ht => .refl ht⟩
  | cons u l ih =>
    intro s h
    rw [Threads.wakeUpLoop]
    split
    · exact ⟨h, rfl, fun t ht => .refl ht⟩
    · have hd : Lined { s with sleepList := l } := h.congr rfl rfl
      have hone : Lined (threadUnblock { s with sleepList := l } u) ∧
          ∀ t ∈ s.readyList, Waits t s (threadUnblock { s with sleepList := l } u) := by
        unfold threadUnblock
        split
        · refine ⟨hd.insertReady, fun t ht => ?_⟩
          have hsame : Waits t s { s with sleepList := l } := .of_eq ht rfl rfl rfl
          exact hsame.trans (hd.waits_insertReady ht)
        · exact ⟨hd.congr rfl rfl, fun t ht => .of_eq ht rfl rfl rfl⟩
      obtain ⟨hl, hcount, hw⟩ := ih hone.1
      exact ⟨hl, hcount.trans threadUnblock_frame.2.2,
        fun t ht => (hone.2 t ht).trans (hw t (hone.2 t ht).mem)⟩

/-- **`thread_aging`** keeps `ready_list` sorted. -/
theorem Lined.threadAging (h : Lined s) (hn : s.readyList.Nodup) (hrec : ∀ t ∈ s.readyList, s.threads t ≠ none) :
    Lined (threadAging s) ∧ (threadAging s).readyList = s.readyList ∧
      (threadAging s).dispatches = s.dispatches ∧
      ∀ t ∈ s.readyList, (threadAging s).prio t = age (s.prio t) := by
  have he : Evolves s (s.readyList.foldl ageThread s) := Evolves.foldl (fun _ _ => evolves_ageThread) _
  obtain ⟨haged, hother⟩ := foldl_ageThread s.readyList hn hrec
  have hlist : (Threads.threadAging s).readyList = s.readyList := readyList_checkPreemptIntr.trans he.readyList
  have hprio : ∀ t ∈ s.readyList, (Threads.threadAging s).prio t = age (s.prio t) := fun t ht => by
    rw [Threads.threadAging, prio_checkPreemptIntr, haged t ht]
  refine ⟨⟨?_, fun t => ?_⟩, hlist, checkPreemptIntr_dispatches.trans he.dispatches, hprio⟩
  · rw [hlist]
    refine h.ranked.imp_of_mem fun ha hb hab => ?_
    rw [hprio _ ha, hprio _ hb]
    exact age_mono hab
  · have hrange := h.range t
    by_cases ht : t ∈ s.readyList
    · rw [hprio t ht]
      unfold age
      split <;> omega
    · have hsame : (Threads.threadAging s).prio t = s.prio t := by
        rw [Threads.threadAging, prio_checkPreemptIntr]
        simp only [St.prio, hother t ht]
      rwa [hsame]

theorem age_priMax : age priMax = priMax := by decide

theorem Change.aging (h : Change k s s') : s'.aging = s.aging := by
  cases h with
  | aux h => exact h.aging
  | calcOne t hu hm =>
    unfold threadCalcPriority
    split <;> rfl
  | age hk t ht hu ha =>
    unfold ageThread
    split <;> rfl
  | calcAll hk t hm =>
    unfold threadUpdatePriority threadCalcPriority
    split
    · rfl
    · split <;> rfl
  | _ => rfl

theorem Changes.aging (h : Changes k s s') : s'.aging = s.aging := by
  induction h with
  | refl => rfl
  | tail _ hc ih => exact hc.aging.trans ih

/-- `thread_wake_up` and `thread_aging`. -/
theorem Lined.wakeAge (h : Lined s) (hrun : Running s) (he : d =
      if (threadWakeUp s).aging then Threads.threadAging (threadWakeUp s) else threadWakeUp s) :
    Lined d ∧ d.dispatches = s.dispatches ∧ ∀ t ∈ s.readyList, t ∈ d.readyList ∧
      d.prio t = (if s.aging then age (s.prio t) else s.prio t) ∧
      (s.prio t = priMax → ahead t d = ahead t s) := by
  obtain ⟨hloop, hcount, hw⟩ := h.wakeUpLoop s.sleepList
  have hlist : (threadWakeUp s).readyList = (Threads.wakeUpLoop s.sleepList s).readyList :=
    readyList_checkPreemptIntr
  have hprio : (threadWakeUp s).prio = (Threads.wakeUpLoop s.sleepList s).prio := prio_checkPreemptIntr
  have hcount' : (threadWakeUp s).dispatches = s.dispatches := checkPreemptIntr_dispatches.trans hcount
  have haging : (threadWakeUp s).aging = s.aging := (changes_threadWakeUp hrun).aging
  have hcore := hrun.threadWakeUp.1.core
  have hahead : ∀ t ∈ s.readyList, s.prio t = priMax → ahead t (threadWakeUp s) = ahead t s := by
    intro t ht hmax
    obtain ⟨hsuf, hlen⟩ := (hw t ht).ahead hmax
    rw [hcount] at hlen
    rw [ahead, hlist]
    exact hsuf.eq_of_length (Nat.add_left_cancel hlen)
  rw [haging] at he
  subst he
  split
  · obtain ⟨hl, hlist', hcount'', hprio'⟩ := (hloop.congr hlist hprio).threadAging (hcore.nodup .ready)
      fun t ht hn => by
        have hst := hcore.status .ready t ht
        simp [St.status, hn] at hst
    refine ⟨hl, hcount''.trans hcount', fun t ht => ?_⟩
    have hm : t ∈ (threadWakeUp s).readyList := hlist ▸ (hw t ht).mem
    refine ⟨hlist' ▸ hm, ?_, fun hmax => ?_⟩
    · rw [hprio' t hm, hprio, (hw t ht).prio]
    · rw [ahead, hlist']
      exact hahead t ht hmax
  · refine ⟨hloop.congr hlist hprio, hcount', fun t ht => ⟨hlist ▸ (hw t ht).mem, ?_, hahead t ht⟩⟩
    rw [hprio, (hw t ht).prio]

/-- The timer interrupt, up to where it may yield. -/
theorem Lined.beforeMlfqsTick (h : Lined s) (hrun : Running s) : Lined (beforeMlfqsTick s) ∧
    (beforeMlfqsTick s).dispatches = s.dispatches ∧
    ∀ t ∈ s.readyList, t ∈ (beforeMlfqsTick s).readyList ∧
      (beforeMlfqsTick s).prio t = (if s.aging then age (s.prio t) else s.prio t) ∧
      (s.prio t = priMax → ahead t (beforeMlfqsTick s) = ahead t s) := by
  have hcounted : ∀ d e : St,
      (d = if (threadWakeUp e).aging then Threads.threadAging (threadWakeUp e) else threadWakeUp e) →
      e.readyList = s.readyList → e.prio = s.prio → e.dispatches = s.dispatches → e.aging = s.aging →
      Same s e → Lined d ∧ d.dispatches = s.dispatches ∧ ∀ t ∈ s.readyList, t ∈ d.readyList ∧
        d.prio t = (if s.aging then age (s.prio t) else s.prio t) ∧
        (s.prio t = priMax → ahead t d = ahead t s) := by
    intro d e he hr hp hd ha hsame
    obtain ⟨hl, hcount, hw⟩ := Lined.wakeAge (h.congr hr hp) (hrun.same hsame) he
    have hahead : ∀ t, ahead t e = ahead t s := fun t => by rw [ahead, hr, ahead]
    rw [hr, hp, ha] at hw
    exact ⟨hl, hcount.trans hd, fun t ht => (hw t ht).imp_right (And.imp_right fun hf hmax =>
      (hf hmax).trans (hahead t))⟩
  unfold Threads.beforeMlfqsTick
  dsimp only
  split
  · exact hcounted _ _ rfl rfl rfl rfl rfl ⟨rfl, rfl, rfl, rfl, rfl, rfl, rfl, rfl⟩
  · exact hcounted _ _ rfl rfl rfl rfl rfl ⟨rfl, rfl, rfl, rfl, rfl, rfl, rfl, rfl⟩

/-- What a step makes of a thread `t` in `ready_list`: it stays there, or it is dispatched. -/
theorem Lined.step (h : Lined s) (hi : Inv s) (hm : s.mlfqs = false) (hok : InRange s a)
    (hs : step s a = some s') : Lined s' ∧ ∀ t ∈ s.readyList,
      (t ∈ s'.readyList ∧ s'.prio t = (if a = .tick ∧ s.aging = true then age (s.prio t) else s.prio t) ∧
        (s.prio t = priMax → ahead t s' <:+ ahead t s ∧
          s'.dispatches + (ahead t s').length = s.dispatches + (ahead t s).length)) ∨
      (s'.cur = t ∧ (s.prio t = priMax → s'.dispatches = s.dispatches + (ahead t s).length + 1)) := by
  by_cases ha : a = .tick
  · subst ha
    obtain rfl := eq_tick_of_step hi hs
    obtain ⟨hl, hcount, hw⟩ := h.beforeMlfqsTick hi.running
    obtain ⟨hrun, hkeep⟩ := running_beforeMlfqsTick hi.running
    have hm' := hkeep.mlfqs.trans hm
    rw [tick_eq, hm]
    simp only [Bool.false_eq_true, if_false, true_and]
    generalize Threads.beforeMlfqsTick s = d at *
    have hyield : Changes .intr d (if d.yieldOnReturn then threadYield d else d) ∧
        (if d.yieldOnReturn then threadYield d else d).dispatches ≤ d.dispatches + 1 := by
      split
      · exact ⟨changes_threadYield hrun.cur_unlisted hrun.cur hrun.threadYield.1.ok, dispatches_threadYield⟩
      · exact ⟨.refl, Nat.le_succ _⟩
    generalize (if d.yieldOnReturn then threadYield d else d) = e at *
    obtain ⟨hchanges, hone⟩ := hyield
    obtain ⟨hl', hf⟩ := hl.changes hchanges nofun hm' nofun
    refine ⟨hl', fun t ht => ?_⟩
    obtain ⟨hmem, hprio, hahead⟩ := hw t ht
    have hdmax : s.prio t = priMax → d.prio t = priMax := fun hmax => by
      rw [hprio, hmax, age_priMax, ite_self]
    obtain hw | ⟨hcur, -, hgone⟩ | htwo := hf t hmem
    · refine .inl ⟨hw.mem, hw.prio.trans hprio, fun hmax => ?_⟩
      rw [← hahead hmax, ← hcount]
      exact hw.ahead (hdmax hmax)
    · refine .inr ⟨hcur, fun hmax => ?_⟩
      rw [← hahead hmax, ← hcount]
      exact hgone (hdmax hmax)
    · omega
  · obtain ⟨hl, hf⟩ := h.changes (changes_step hi hs) (fun he => ha (cause_eq_tick.1 he)) hm hok
    have hone := dispatches_step hi hs ha
    refine ⟨hl, fun t ht => ?_⟩
    obtain hw | ⟨hcur, -, hmax⟩ | htwo := hf t ht
    · left
      rw [if_neg fun hc => ha hc.1]
      exact ⟨hw.mem, hw.prio, hw.ahead⟩
    · exact .inr ⟨hcur, hmax⟩
    · omega

/-! ### Runs -/

theorem Lined.initial {aging mlfqs : Bool} {value : ℕ → ℕ} : Lined (initial aging mlfqs value) := by
  refine ⟨List.pairwise_singleton .., fun t => ?_⟩
  unfold St.prio Threads.initial
  dsimp only
  split
  · next hr =>
    split at hr
    · cases hr
      decide
    · split at hr
      · cases hr
        decide
      · cases hr
  · decide

theorem mlfqs_step (hi : Inv s) (hs : step s a = some s') : s'.mlfqs = s.mlfqs :=
  step_of_change (P := fun d => d.mlfqs = s.mlfqs) hi hs rfl fun _ _ h hc => hc.mlfqs.trans h

/-- Without `-mlfqs`, `ready_list` is sorted in every run. -/
theorem lined_of_reachable (h : sys.ReachableVia InRange s) : Inv s ∧ (s.mlfqs = false → Lined s) := by
  induction h with
  | init hs =>
    obtain ⟨aging, mlfqs, value, rfl⟩ := hs
    exact ⟨Inv.initial, fun _ => Lined.initial⟩
  | step _ hok hs ih =>
    obtain ⟨hi, hl⟩ := ih
    refine ⟨hi.step hs, fun hm => ?_⟩
    have hm' := (mlfqs_step hi hs).symm.trans hm
    exact ((hl hm').step hi hm' hok hs).1

/-- Aging without `-mlfqs`, in a state that a run has reached. -/
structure Aging (s : St) : Prop where
  inv : Inv s
  lined : Lined s
  mlfqs : s.mlfqs = false
  aging : s.aging = true

theorem Aging.step (h : Aging s) (hok : InRange s a) (hs : Threads.step s a = some s') : Aging s' where
  inv := h.inv.step hs
  lined := (h.lined.step h.inv h.mlfqs hok hs).1
  mlfqs := (mlfqs_step h.inv hs).trans h.mlfqs
  aging := (changes_step h.inv hs).aging.trans h.aging

/-- One more step of a thread that stays. -/
theorem Aging.stays (h : Aging s) (hok : InRange s a) (hs : Threads.step s a = some s') (ht : t ∈ s.readyList)
    (ht' : t ∈ s'.readyList) : s'.prio t = (if a = .tick then age (s.prio t) else s.prio t) ∧
      (s.prio t = priMax → ahead t s' <:+ ahead t s ∧
        s'.dispatches + (ahead t s').length = s.dispatches + (ahead t s).length) := by
  obtain ⟨-, hp, hahead⟩ | ⟨hcur, -⟩ := (h.lined.step h.inv h.mlfqs hok hs).2 t ht
  · simp only [h.aging, and_true] at hp
    exact ⟨hp, hahead⟩
  · exact absurd (hcur ▸ ht') ((h.inv.step hs).running.cur_unlisted .ready)

theorem Stays.mem {as : List Act} (h : Stays t s as d) : t ∈ s.readyList := by
  cases h with
  | nil ht | cons ht => exact ht

/-- The priority rises by one with each tick. -/
theorem Stays.prio {as : List Act} (hst : Stays t s as d) (h : Aging s) :
    Aging d ∧ t ∈ d.readyList ∧ (d.prio t = priMax ∨ s.prio t + as.count .tick ≤ d.prio t) := by
  induction hst with
  | nil ht => exact ⟨h, ht, .inr (by simp)⟩
  | @cons s s' d a as ht hok hs hst ih =>
    obtain ⟨hd, htd, hp⟩ := ih (h.step hok hs)
    refine ⟨hd, htd, ?_⟩
    obtain ⟨hp', -⟩ := h.stays hok hs ht hst.mem
    have htop := (hd.lined.range t).2
    by_cases ha : a = .tick
    · subst ha
      rw [if_pos rfl, age] at hp'
      rw [List.count_cons_self]
      split at hp' <;> omega
    · rw [if_neg ha] at hp'
      rwa [List.count_cons_of_ne ha, ← hp']

/-- From then on, nobody gets ahead of it. -/
theorem Stays.ahead {as : List Act} (hst : Stays t s as d) (h : Aging s) (hmax : s.prio t = priMax) :
    Aging d ∧ t ∈ d.readyList ∧ d.prio t = priMax ∧ Threads.ahead t d <:+ Threads.ahead t s ∧
      d.dispatches + (Threads.ahead t d).length = s.dispatches + (Threads.ahead t s).length := by
  induction hst with
  | nil ht => exact ⟨h, ht, hmax, List.suffix_rfl, rfl⟩
  | @cons s s' d a as ht hok hs hst ih =>
    obtain ⟨hp', hahead⟩ := h.stays hok hs ht hst.mem
    obtain ⟨hsuf', hlen'⟩ := hahead hmax
    have hmax' : s'.prio t = priMax := by rw [hp', hmax, age_priMax, ite_self]
    obtain ⟨hd, htd, hp, hsuf, hlen⟩ := ih (h.step hok hs) hmax'
    exact ⟨hd, htd, hp, hsuf.trans hsuf', hlen.trans hlen'⟩

/-- **Aging prevents overtaking.** Let `t` be in `ready_list` over `PRI_MAX - PRI_MIN` ticks, up to `s`, and go on
to be there up to `s'`. Then those before `t` in `s'` are the last ones of those before it in `s`, all the others
having been dispatched; and when `t` leaves `ready_list` it is dispatched, after all of them. In every run
`ready_list` is sorted, and no priority is above `PRI_MAX`. -/
theorem aging_no_overtaking {s₀ : St} {as bs : List Act} (hr : sys.ReachableVia InRange s₀)
    (ha : s₀.aging = true) (hm : s₀.mlfqs = false) (hwait : Stays t s₀ as s)
    (hlong : priMax - priMin ≤ as.count .tick) (hmore : Stays t s bs s') :
    ahead t s' <:+ ahead t s ∧
    s'.dispatches + (ahead t s').length = s.dispatches + (ahead t s).length ∧
    (∀ a s'', InRange s' a → sys.step s' a = some s'' → t ∉ s''.readyList →
      s''.cur = t ∧ s''.dispatches = s.dispatches + (ahead t s).length + 1) ∧
    ∀ d, sys.ReachableVia InRange d → d.mlfqs = false →
      Ranked d d.readyList ∧ ∀ u, d.prio u ≤ priMax := by
  obtain ⟨hi, hl⟩ := lined_of_reachable hr
  obtain ⟨hs, ht, hp⟩ := hwait.prio ⟨hi, hl hm, hm, ha⟩
  have hmax : s.prio t = priMax := by
    have hlow := ((hl hm).range t).1
    have hhigh := (hs.lined.range t).2
    omega
  obtain ⟨hs', ht', hmax', hsuf, hlen⟩ := hmore.ahead hs hmax
  refine ⟨hsuf, hlen, fun a s'' hok hstep hgone => ?_, fun d hd hmd => ?_⟩
  · obtain ⟨hmem, -⟩ | ⟨hcur, hcount⟩ := (hs'.lined.step hs'.inv hs'.mlfqs hok hstep).2 t ht'
    · exact absurd hmem hgone
    · exact ⟨hcur, by rw [hcount hmax', hlen]⟩
  · have hlined := (lined_of_reachable hd).2 hmd
    exact ⟨hlined.ranked, fun u => (hlined.range u).2⟩

/-- A computed run. -/
theorem stays_of_runWith {as : List Act} (ht : t ∈ d.readyList)
    (hr : sys.runWith (fun s a => decide (t ∈ s.readyList ∧ InRange s a)) s as = some d) : Stays t s as d := by
  induction as generalizing s with
  | nil =>
    cases hr
    exact .nil ht
  | cons a as ih =>
    rw [System.runWith] at hr
    split at hr
    · next hok =>
      obtain ⟨hm, hok⟩ := of_decide_eq_true hok
      obtain ⟨s', hs, hr'⟩ := Option.bind_eq_some_iff.mp hr
      exact .cons hm hok hs (ih hr')
    · cases hr

end Aging

/-- The initial thread gives itself the highest priority and creates a thread with the lowest one. -/
def lowest : List Act :=
  List.replicate 7 Act.run ++ Act.call (.setPriority 63) :: List.replicate 2 Act.run ++
    Act.call (.threadCreate 2 0) :: List.replicate 9 Act.run

/-- After 63 ticks the thread of lowest priority is dispatched at the end of the time slice, before the thread
that yields. -/
theorem aging_no_overtaking_lowest : ∃ s s' : St, s.prio 2 = 63 ∧ s.cur = initialThread ∧
    sys.step s .tick = some s' ∧ s'.cur = 2 ∧ s'.dispatches = s.dispatches + 1 := by
  obtain ⟨s₀, hrun, ha, hm, hticks⟩ := System.exists_of_runWith
    (fun s => s.aging = true ∧ s.mlfqs = false ∧
      (sys.runWith (fun s a => decide (2 ∈ s.readyList ∧ InRange s a)) s (List.replicate 63 Act.tick)).any
        (fun s => decide (s.prio 2 = 63 ∧ s.readyList = [2] ∧ s.cur = initialThread ∧
          (sys.step s .tick).any fun s' => decide (2 ∉ s'.readyList))) = true)
    (show (sys.runWith (fun s a => decide (InRange s a)) (initial true false fun _ => 0) lowest).any _ = true by
      decide +kernel)
  have hreach : sys.ReachableVia InRange s₀ :=
    System.reachableVia_of_runWith (fun _ _ => of_decide_eq_true) ⟨true, false, _, rfl⟩ hrun
  obtain ⟨s, hrun', hprio, hlist, hcur, hnext⟩ := System.exists_of_runWith _ hticks
  obtain ⟨s', hs', hgone⟩ : ∃ s', sys.step s .tick = some s' ∧ 2 ∉ s'.readyList := by
    cases hs' : sys.step s .tick with
    | none => simp [hs'] at hnext
    | some s' => exact ⟨s', rfl, by simpa [hs'] using hnext⟩
  have hmem : 2 ∈ s.readyList := by simp [hlist]
  obtain ⟨-, -, hleave, -⟩ :=
    aging_no_overtaking hreach ha hm (stays_of_runWith hmem hrun') (by decide) (.nil hmem)
  obtain ⟨hcur', hcount⟩ := hleave .tick s' nofun hs' hgone
  have hnil : ahead 2 s = [] := by simp [ahead, hlist]
  exact ⟨s, s', hprio, hcur, hs', hcur', by rw [hcount, hnil, List.length_nil]⟩

end Threads
end Pintos

import Pintos.Threads.Tick
import Pintos.Threads.Wakeup

/-!
# Two states that differ in priorities nobody looks at

Between `init_thread` and the first computation of its priority the child of `thread_create` has the priority
that its creator asked for. It is in no list and not on the CPU then, so no function of the scheduler looks at
this priority: from two states that are alike up to it (`Alike`), every function of `threads/thread.c` and
`threads/synch.c` leads to two such states. The threads may also differ in that some of them are inside a call
of `thread_set_priority` in the first state and not in the second.

The lemmas follow the functions of the model, one for each, up to `Alike.exec` for a statement, `Alike.tick` for the
timer interrupt and `Alike.initThread` for the one place where the two states come to differ.
-/

namespace Pintos
namespace Threads

/-- What is left of a call of `thread_set_priority`. -/
def InCall (l : List Stmt) : Prop := (∃ p, l = [.setPriority p, .checkPreempt]) ∨ l = [.checkPreempt]

/-- A record without its priority and its code. -/
def Thread.blank (r : Thread) : Thread := { r with priority := 0, moved := false, cont := [] }

/-- The records of one thread in two runs. The second run may leave out calls of `thread_set_priority`, and
the priority of a `fresh` thread may be another one. -/
structure Akin (fresh : Prop) (r r' : Thread) : Prop where
  blank : r'.blank = r.blank
  priority : ¬ fresh → r'.priority = r.priority
  cont : r'.cont = r.cont ∨ InCall r.cont ∧ r'.cont = []

/-- Two states that differ only in the records, and there only as said. The threads in `F` are fresh. -/
structure Alike (F : ℕ → Prop) (s d : St) : Prop where
  rest : s = { d with threads := s.threads }
  records : ∀ t, Option.Rel (Akin (F t)) (s.threads t) (d.threads t)
  unlisted : ∀ t, F t → Unlisted s t
  cur : ¬ F s.cur
  idle : ∀ i, s.idleThread = some i → ¬ F i
  all : ∀ t, F t → t ∈ s.allList

section Alike

variable {F : ℕ → Prop} {s d : St} {t u : ℕ} {f : Thread → Thread} {x : Sema}

theorem Akin.refl {p : Prop} (r : Thread) : Akin p r r := ⟨rfl, fun _ => rfl, .inl rfl⟩

theorem blank_eq {r r' : Thread} : r'.blank = r.blank ↔ r'.tid = r.tid ∧ r'.status = r.status ∧ r'.nice = r.nice ∧
    r'.recentCpu = r.recentCpu ∧ r'.wakeupTick = r.wakeupTick ∧ r'.level = r.level ∧ r'.stamp = r.stamp := by
  simp [Thread.blank]

theorem Alike.cur_eq (h : Alike F s d) : d.cur = s.cur := (congrArg St.cur h.rest).symm

theorem Alike.idleThread_eq (h : Alike F s d) : d.idleThread = s.idleThread := (congrArg St.idleThread h.rest).symm

theorem Alike.readyList_eq (h : Alike F s d) : d.readyList = s.readyList := (congrArg St.readyList h.rest).symm

theorem Alike.sleepList_eq (h : Alike F s d) : d.sleepList = s.sleepList := (congrArg St.sleepList h.rest).symm

theorem Alike.allList_eq (h : Alike F s d) : d.allList = s.allList := (congrArg St.allList h.rest).symm

theorem Alike.sema_eq (h : Alike F s d) : d.sema = s.sema := (congrArg St.sema h.rest).symm

theorem Alike.ticks_eq (h : Alike F s d) : d.ticks = s.ticks := (congrArg St.ticks h.rest).symm

theorem Alike.loadAvg_eq (h : Alike F s d) : d.loadAvg = s.loadAvg := (congrArg St.loadAvg h.rest).symm

theorem Alike.aging_eq (h : Alike F s d) : d.aging = s.aging := (congrArg St.aging h.rest).symm

theorem Alike.mlfqs_eq (h : Alike F s d) : d.mlfqs = s.mlfqs := (congrArg St.mlfqs h.rest).symm

theorem Alike.yieldOnReturn_eq (h : Alike F s d) : d.yieldOnReturn = s.yieldOnReturn := (congrArg St.yieldOnReturn h.rest).symm

theorem Alike.record (h : Alike F s d) (t : ℕ) : (s.threads t = none ∧ d.threads t = none) ∨
    ∃ r r', s.threads t = some r ∧ d.threads t = some r' ∧ Akin (F t) r r' := by
  have hr := h.records t
  generalize s.threads t = a, d.threads t = b at hr
  cases hr with
  | none => exact .inl ⟨rfl, rfl⟩
  | some hr => exact .inr ⟨_, _, rfl, rfl, hr⟩

theorem Alike.status (h : Alike F s d) : d.status = s.status := by
  funext t
  unfold St.status
  obtain ⟨hs, hd⟩ | ⟨r, r', hs, hd, hr⟩ := h.record t
  · rw [hs, hd]
  · rw [hs, hd]
    exact congrArg some (blank_eq.1 hr.blank).2.1

theorem Alike.prio (h : Alike F s d) (ht : ¬ F t) : d.prio t = s.prio t := by
  unfold St.prio
  obtain ⟨hs, hd⟩ | ⟨r, r', hs, hd, hr⟩ := h.record t
  · rw [hs, hd]
  · rw [hs, hd]
    exact hr.priority ht

theorem Alike.wakeup (h : Alike F s d) : d.wakeup = s.wakeup := by
  funext t
  unfold St.wakeup
  obtain ⟨hs, hd⟩ | ⟨r, r', hs, hd, hr⟩ := h.record t
  · rw [hs, hd]
  · rw [hs, hd]
    exact (blank_eq.1 hr.blank).2.2.2.2.1

theorem Alike.threads_eq_none (h : Alike F s d) : d.threads t = none ↔ s.threads t = none := by
  obtain ⟨hs, hd⟩ | ⟨r, r', hs, hd, -⟩ := h.record t <;> simp [hs, hd]

theorem Alike.not_mem (h : Alike F s d) {q : Queue} (ht : t ∈ s.queue q) : ¬ F t :=
  fun hF => h.unlisted t hF q ht

/-- A change of a record. -/
theorem Alike.upd (h : Alike F s d) (hf : ∀ r r', Akin (F t) r r' → Akin (F t) (f r) (f r')) :
    Alike F (s.upd t f) (d.upd t f) := by
  refine ⟨?_, fun u => ?_, fun u hu q hq => h.unlisted u hu q (by cases q <;> exact hq), h.cur, h.idle, h.all⟩
  · rw [h.rest]
    rfl
  · by_cases hu : u = t
    · subst hu
      simp only [St.upd, Function.update_self]
      obtain ⟨hs, hd⟩ | ⟨r, r', hs, hd, hr⟩ := h.record u
      · rw [hs, hd]
        exact .none
      · rw [hs, hd]
        exact .some (hf _ _ hr)
    · simp only [St.upd, Function.update_of_ne hu]
      exact h.records u

/-- A change of a record in the first state alone. -/
theorem Alike.upd_left (h : Alike F s d)
    (hf : ∀ r r', s.threads t = some r → d.threads t = some r' → Akin (F t) r r' → Akin (F t) (f r) r') :
    Alike F (s.upd t f) d := by
  refine ⟨?_, fun u => ?_, fun u hu q hq => h.unlisted u hu q (by cases q <;> exact hq), h.cur, h.idle, h.all⟩
  · rw [h.rest]
    rfl
  · by_cases hu : u = t
    · subst hu
      simp only [St.upd, Function.update_self]
      obtain ⟨hs, hd⟩ | ⟨r, r', hs, hd, hr⟩ := h.record u
      · rw [hs, hd]
        exact .none
      · rw [hs, hd]
        exact .some (hf _ _ hs hd hr)
    · simp only [St.upd, Function.update_of_ne hu]
      exact h.records u

/-- A change of a record that has nothing to do with its priority and its code. -/
theorem Alike.map (h : Alike F s d) (hb : ∀ r r', r'.blank = r.blank → (f r').blank = (f r).blank)
    (hf : ∀ r, (f r).priority = r.priority ∧ (f r).cont = r.cont) : Alike F (s.upd t f) (d.upd t f) := by
  refine h.upd fun r r' hr => ⟨hb r r' hr.blank, fun hn => ?_, ?_⟩
  · rw [(hf r).1, (hf r').1, hr.priority hn]
  · rw [(hf r).2, (hf r').2]
    exact hr.cont

/-- A change outside of the records. -/
theorem Alike.set (h : Alike F s d) {s' d' : St} (hs : s'.threads = s.threads) (hd : d'.threads = d.threads)
    (hrest : s' = { d' with threads := s'.threads }) (hall : s'.allList = s.allList)
    (hq : ∀ t, F t → Unlisted s t → Unlisted s' t) (hcur : ¬ F s'.cur)
    (hidle : s'.idleThread = s.idleThread) : Alike F s' d' :=
  ⟨hrest, fun t => hs ▸ hd ▸ h.records t, fun t hF => hq t hF (h.unlisted t hF), hcur, hidle ▸ h.idle, hall ▸ h.all⟩

/-- A change outside of the records and of the lists. -/
theorem Alike.aside (h : Alike F s d) {s' d' : St} (hs : s'.threads = s.threads) (hd : d'.threads = d.threads)
    (hrest : s' = { d' with threads := s'.threads }) (hq : s'.queue = s.queue) (hall : s'.allList = s.allList)
    (hcur : s'.cur = s.cur) (hidle : s'.idleThread = s.idleThread) : Alike F s' d' :=
  h.set hs hd hrest hall (fun _ _ hu q hm => hu q (hq ▸ hm)) (hcur ▸ h.cur) hidle

theorem Alike.goOn (h : Alike F s d) (l : List Stmt) : Alike F (s.goOn l) (d.goOn l) := by
  unfold St.goOn
  rw [h.cur_eq]
  exact h.upd fun r r' hr => ⟨blank_eq.2 (blank_eq.1 hr.blank), hr.priority, .inl rfl⟩

theorem Alike.setStatus (h : Alike F s d) (y : Status) : Alike F (s.setStatus t y) (d.setStatus t y) := by
  refine h.map (fun r r' hb => ?_) fun _ => ⟨rfl, rfl⟩
  simp_all [blank_eq]

theorem Alike.panic (h : Alike F s d) : Alike F s.panic d.panic := by
  obtain ⟨θ, rfl⟩ : ∃ θ, s = { d with threads := θ } := ⟨_, h.rest⟩
  exact h.aside rfl rfl rfl rfl rfl rfl rfl

theorem Alike.free (h : Alike F s d) : Alike F (s.free t) (d.free t) := by
  refine ⟨?_, fun u => ?_, fun u hu q hq => h.unlisted u hu q (by cases q <;> exact hq), h.cur, h.idle, h.all⟩
  · rw [h.rest]
    rfl
  · by_cases hu : u = t
    · subst hu
      simp only [St.free, Function.update_self]
      exact .none
    · simp only [St.free, Function.update_of_ne hu]
      exact h.records u

/-! ### The scheduler -/

/-- The two runs insert a thread at the same place. -/
theorem Alike.insert (h : Alike F s d) {q : Queue} (ht : ¬ F t) :
    listInsertOrdered (priorityGreater d) t (s.queue q) = listInsertOrdered (priorityGreater s) t (s.queue q) :=
  listInsertOrdered_congr fun e he => by simp only [priorityGreater, h.prio ht, h.prio (h.not_mem he)]

theorem Alike.insertReady (h : Alike F s d) (ht : ¬ F t) : Alike F (insertReady s t) (insertReady d t) := by
  have hins := h.insert (q := .ready) ht
  obtain ⟨θ, rfl⟩ : ∃ θ, s = { d with threads := θ } := ⟨_, h.rest⟩
  have hlist : listInsertOrdered (priorityGreater d) t d.readyList =
      listInsertOrdered (priorityGreater { d with threads := θ }) t d.readyList := hins
  unfold Threads.insertReady
  rw [hlist]
  refine Alike.map (h.set rfl rfl rfl rfl (fun u hF hu q hq => ?_) h.cur rfl) (fun r r' hb => ?_)
    fun _ => ⟨rfl, rfl⟩
  · cases q with
    | ready =>
      obtain rfl | hm := mem_listInsertOrdered.1 hq
      · exact ht hF
      · exact hu .ready hm
    | sleep => exact hu .sleep hq
    | waiters x => exact hu (.waiters x) hq
  · simp_all [blank_eq]

theorem Alike.threadUnblock (h : Alike F s d) (ht : ¬ F t) :
    Alike F (threadUnblock s t) (threadUnblock d t) := by
  unfold Threads.threadUnblock
  rw [h.status]
  split
  · exact h.insertReady ht
  · exact h.panic

theorem Alike.dispatch (h : Alike F s d) {n : ℕ} {l : List ℕ} (hn : ¬ F n) (hl : ∀ t ∈ l, t ∈ s.readyList) :
    Alike F (dispatch s n l) (dispatch d n l) := by
  obtain ⟨θ, rfl⟩ : ∃ θ, s = { d with threads := θ } := ⟨_, h.rest⟩
  refine Alike.setStatus ?_ .running
  refine h.set rfl rfl rfl rfl (fun u hF hu q hq => ?_) hn rfl
  cases q with
  | ready => exact hu .ready (hl u hq)
  | sleep => exact hu .sleep hq
  | waiters x => exact hu (.waiters x) hq

theorem Alike.next (h : Alike F s d) : nextThreadToRun d = nextThreadToRun s ∧
    (∀ t ∈ (nextThreadToRun s).2, t ∈ s.readyList) ∧ ∀ n, (nextThreadToRun s).1 = some n → ¬ F n := by
  refine ⟨?_, fun t ht => ?_, fun n hn => ?_⟩
  · rw [h.rest]
    rfl
  · unfold nextThreadToRun at ht
    split at ht
    · cases ht
    · next hr => exact hr ▸ List.mem_cons_of_mem _ ht
  · unfold nextThreadToRun at hn
    split at hn
    · exact h.idle n hn
    · next hr =>
      obtain rfl := Option.some.inj hn
      exact h.not_mem (q := .ready) (by simp [St.queue, hr])

theorem Alike.schedule (h : Alike F s d) : Alike F (schedule s) (schedule d) := by
  obtain ⟨hnext, hsub, hn⟩ := h.next
  unfold Threads.schedule
  rw [hnext, h.cur_eq]
  obtain ⟨hs, hd⟩ | ⟨r, r', hs, hd, hr⟩ := h.record s.cur
  · rw [hs, hd]
    exact h.panic
  · rw [hs, hd]
    cases hnx : (nextThreadToRun s).1 with
    | none => exact h.panic
    | some n =>
      dsimp only
      rw [(blank_eq.1 hr.blank).2.1]
      by_cases hc : r.status = .running ∨ s.threads n = none
      · rw [if_pos hc, if_pos (hc.imp_right h.threads_eq_none.2)]
        exact h.panic
      · have hc' : ¬ (r.status = .running ∨ d.threads n = none) := fun hd' =>
          hc (hd'.imp_right h.threads_eq_none.1)
        rw [if_neg hc, if_neg hc']
        have hdis := h.dispatch (hn n hnx) hsub
        split
        · exact hdis.free
        · exact hdis

theorem Alike.threadBlock (h : Alike F s d) : Alike F (threadBlock s) (threadBlock d) := by
  unfold Threads.threadBlock
  rw [h.cur_eq]
  exact (h.setStatus .blocked).schedule

theorem Alike.threadYield (h : Alike F s d) : Alike F (threadYield s) (threadYield d) := by
  unfold Threads.threadYield
  rw [h.cur_eq, h.idleThread_eq]
  refine Alike.schedule ?_
  split
  · exact h.setStatus .ready
  · exact h.insertReady h.cur

theorem Alike.threadExit (h : Alike F s d) : Alike F (threadExit s) (threadExit d) := by
  obtain ⟨θ, rfl⟩ : ∃ θ, s = { d with threads := θ } := ⟨_, h.rest⟩
  refine Alike.schedule (Alike.setStatus ?_ .dying)
  refine ⟨rfl, h.records, h.unlisted, h.cur, h.idle, fun t ht => ?_⟩
  exact (List.mem_erase_of_ne fun he : t = d.cur => h.cur (he ▸ ht)).2 (h.all t ht)

theorem Alike.needYield (h : Alike F s d) : needYield d = needYield s := by
  unfold Threads.needYield
  rw [h.cur_eq, h.readyList_eq]
  cases hr : s.readyList with
  | nil => rfl
  | cons t l =>
    have ht : ¬ F t := h.not_mem (q := .ready) (by simp [St.queue, hr])
    simp only [h.prio ht, h.prio h.cur]

theorem Alike.checkPreemptIntr (h : Alike F s d) : Alike F (checkPreemptIntr s) (checkPreemptIntr d) := by
  unfold Threads.checkPreemptIntr
  rw [h.needYield]
  split
  · obtain ⟨θ, rfl⟩ : ∃ θ, s = { d with threads := θ } := ⟨_, h.rest⟩
    exact h.aside rfl rfl rfl rfl rfl rfl rfl
  · exact h

/-! ### Priorities -/

/-- Fewer threads are fresh. -/
theorem Alike.shrink (h : Alike F s d) {F' : ℕ → Prop} (hF : ∀ u, F' u → F u)
    (hp : ∀ u, F u → ¬ F' u → d.prio u = s.prio u) : Alike F' s d := by
  refine ⟨h.rest, fun u => ?_, fun u hu => h.unlisted u (hF u hu), fun hc => h.cur (hF _ hc),
    fun i hi hc => h.idle i hi (hF i hc), fun u hu => h.all u (hF u hu)⟩
  obtain ⟨hs, hd⟩ | ⟨r, r', hs, hd, hr⟩ := h.record u
  · rw [hs, hd]
    exact .none
  · rw [hs, hd]
    refine .some ⟨hr.blank, fun hn => ?_, hr.cont⟩
    by_cases hu : F u
    · simpa [St.prio, hs, hd] using hp u hu hn
    · exact hr.priority hu

/-- More threads are fresh. -/
theorem Alike.grow (h : Alike F s d) {F' : ℕ → Prop} (hF : ∀ u, F u → F' u) (hu : ∀ u, F' u → Unlisted s u)
    (hcur : ¬ F' s.cur) (hidle : ∀ i, s.idleThread = some i → ¬ F' i) (hall : ∀ u, F' u → u ∈ s.allList) :
    Alike F' s d := by
  refine ⟨h.rest, fun u => ?_, hu, hcur, hidle, hall⟩
  obtain ⟨hs, hd⟩ | ⟨r, r', hs, hd, hr⟩ := h.record u
  · rw [hs, hd]
    exact .none
  · rw [hs, hd]
    exact .some ⟨hr.blank, fun hn => hr.priority fun hc => hn (hF u hc), hr.cont⟩

/-- A thread that was not fresh. -/
theorem Alike.restore (h : Alike (fun u => F u ∧ u ≠ t) s d) (ht : ¬ F t) : Alike F s d :=
  h.shrink (fun _ hu => ⟨hu, fun he => ht (he ▸ hu)⟩) fun _ hu hn => absurd hu.1 hn

theorem Alike.setPrio (h : Alike F s d) (p : ℤ) :
    Alike (fun u => F u ∧ u ≠ t) (s.setPrio t p) (d.setPrio t p) := by
  have hF : Alike F (s.setPrio t p) (d.setPrio t p) :=
    h.upd fun r r' hr => ⟨blank_eq.2 (blank_eq.1 hr.blank), fun _ => rfl, hr.cont⟩
  refine hF.shrink (fun u hu => hu.1) fun u hu hn => ?_
  obtain rfl : u = t := by_contra fun hne => hn ⟨hu, hne⟩
  unfold St.prio St.setPrio St.upd
  simp only [Function.update_self]
  obtain ⟨hs, hd⟩ | ⟨r, r', hs, hd, -⟩ := h.record u <;> simp [hs, hd]

theorem Alike.threadCalcPriority (h : Alike F s d) :
    Alike (fun u => F u ∧ u ≠ t) (threadCalcPriority s t) (threadCalcPriority d t) := by
  unfold Threads.threadCalcPriority
  obtain ⟨hs, hd⟩ | ⟨r, r', hs, hd, hr⟩ := h.record t
  · rw [hs, hd]
    refine h.shrink (fun u hu => hu.1) fun u hu hn => ?_
    obtain rfl : u = t := by_contra fun hne => hn ⟨hu, hne⟩
    simp [St.prio, hs, hd]
  · obtain ⟨-, -, hnice, hcpu, -⟩ := blank_eq.1 hr.blank
    rw [hs, hd]
    dsimp only
    rw [hnice, hcpu]
    exact h.setPrio _

theorem Alike.threadUpdatePriority (h : Alike F s d) :
    Alike (fun u => F u ∧ u ≠ t) (threadUpdatePriority s t) (threadUpdatePriority d t) := by
  unfold Threads.threadUpdatePriority
  rw [h.idleThread_eq]
  split
  · next hi =>
    refine h.shrink (fun u hu => hu.1) fun u hu hn => ?_
    obtain rfl : u = t := by_contra fun hne => hn ⟨hu, hne⟩
    exact absurd hu (h.idle u hi)
  · exact h.threadCalcPriority

/-- The loop that computes priorities. -/
theorem Alike.foldl_threadUpdatePriority (l : List ℕ) : ∀ {F : ℕ → Prop} {s d : St}, Alike F s d →
    Alike (fun u => F u ∧ u ∉ l) (l.foldl Threads.threadUpdatePriority s) (l.foldl Threads.threadUpdatePriority d) := by
  induction l with
  | nil => exact fun h => h.shrink (fun u hu => hu.1) fun u hu hn => absurd ⟨hu, List.not_mem_nil⟩ hn
  | cons t l ih =>
    intro F s d h
    refine (ih h.threadUpdatePriority).shrink (fun u hu => ?_) fun u hu hn => ?_
    · exact ⟨⟨hu.1, fun he => hu.2 (he ▸ List.mem_cons_self)⟩, fun hm => hu.2 (List.mem_cons_of_mem t hm)⟩
    · refine absurd ⟨hu.1.1, fun hm => ?_⟩ hn
      obtain rfl | hm := List.mem_cons.1 hm
      · exact hu.1.2 rfl
      · exact hu.2 hm

theorem Alike.ageThread (h : Alike F s d) (ht : ¬ F t) : Alike F (ageThread s t) (ageThread d t) := by
  unfold Threads.ageThread
  rw [h.prio ht]
  split
  · exact (h.setPrio _).restore ht
  · exact h

/-- A loop over threads that are not fresh. -/
theorem Alike.foldl {g : St → ℕ → St} (hg : ∀ s d t, Alike F s d → ¬ F t → Alike F (g s t) (g d t)) (l : List ℕ) :
    ∀ {s d : St}, Alike F s d → (∀ t ∈ l, ¬ F t) → Alike F (l.foldl g s) (l.foldl g d) := by
  induction l with
  | nil => exact fun h _ => h
  | cons t l ih =>
    exact fun h hl => ih (hg _ _ t h (hl t List.mem_cons_self)) fun u hu => hl u (List.mem_cons_of_mem t hu)

theorem Alike.threadAging (h : Alike F s d) : Alike F (threadAging s) (threadAging d) := by
  unfold Threads.threadAging
  rw [h.readyList_eq]
  refine (Alike.foldl (g := Threads.ageThread) (fun _ _ _ hd ht => hd.ageThread ht) s.readyList h fun t ht => ?_).checkPreemptIntr
  exact h.not_mem (q := .ready) ht

theorem Alike.threadUpdateRecentCpu (h : Alike F s d) :
    Alike F (threadUpdateRecentCpu s t) (threadUpdateRecentCpu d t) := by
  unfold Threads.threadUpdateRecentCpu
  rw [h.loadAvg_eq]
  refine h.map (fun r r' hb => ?_) fun _ => ⟨rfl, rfl⟩
  simp_all [blank_eq]

theorem Alike.mlfqsSecond (h : Alike F s d) : Alike F (mlfqsSecond s) (mlfqsSecond d) := by
  have hcpu : ∀ l : List ℕ, ∀ {s d : St}, Alike F s d →
      Alike F (l.foldl Threads.threadUpdateRecentCpu s) (l.foldl Threads.threadUpdateRecentCpu d) := by
    intro l
    induction l with
    | nil => exact fun h => h
    | cons t l ih => exact fun h => ih h.threadUpdateRecentCpu
  obtain ⟨θ, rfl⟩ : ∃ θ, s = { d with threads := θ } := ⟨_, h.rest⟩
  exact hcpu _ (h.aside rfl rfl rfl rfl rfl rfl rfl)

/-- After the priorities have been computed the two runs have the same ones, and so they sort in the same way. -/
theorem Alike.mlfqsSort (h : Alike F s d) : Alike F (mlfqsSort s) (mlfqsSort d) := by
  have hsame : Same s (threadForeach Threads.threadUpdatePriority s) := same_foreach_threadUpdatePriority
  have hnone : Alike (fun _ => False) (threadForeach Threads.threadUpdatePriority s)
      (threadForeach Threads.threadUpdatePriority d) := by
    unfold threadForeach
    rw [h.allList_eq]
    exact (h.foldl_threadUpdatePriority s.allList).shrink nofun fun u hu => absurd (h.all u hu.1) hu.2
  have hF : Alike F (threadForeach Threads.threadUpdatePriority s) (threadForeach Threads.threadUpdatePriority d) :=
    hnone.grow nofun (fun u hu q hq => h.unlisted u hu q (hsame.queue ▸ hq)) (hsame.cur ▸ h.cur)
      (hsame.idleThread ▸ h.idle) (hsame.allList ▸ h.all)
  unfold Threads.mlfqsSort
  generalize threadForeach Threads.threadUpdatePriority s = s' at *
  generalize threadForeach Threads.threadUpdatePriority d = d' at *
  have hgreater : priorityGreater d' = priorityGreater s' := by
    funext a b
    simp only [priorityGreater, hnone.prio not_false]
  dsimp only
  rw [hgreater]
  obtain ⟨θ, rfl⟩ : ∃ θ, s' = { d' with threads := θ } := ⟨_, hF.rest⟩
  refine hF.set rfl rfl rfl rfl (fun u hu hun q hq => ?_) hF.cur rfl
  cases q with
  | ready => exact hun .ready ((perm_listSort _).mem_iff.1 hq)
  | sleep => exact hun .sleep hq
  | waiters x => exact hun (.waiters x) hq

/-! ### The timer interrupt -/

theorem Alike.mlfqsNumbers (h : Alike F s d) : Alike F (mlfqsNumbers s) (mlfqsNumbers d) := by
  have hcount : Alike F (mlfqsCount s) (mlfqsCount d) := by
    unfold mlfqsCount
    rw [h.cur_eq, h.idleThread_eq]
    split
    · exact h
    · refine h.map (fun r r' hb => ?_) fun _ => ⟨rfl, rfl⟩
      simp_all [blank_eq]
  unfold Threads.mlfqsNumbers
  rw [h.ticks_eq]
  split
  · exact hcount.mlfqsSecond
  · exact hcount

theorem Alike.threadMlfqsTick (h : Alike F s d) : Alike F (threadMlfqsTick s) (threadMlfqsTick d) := by
  rw [threadMlfqsTick_eq, threadMlfqsTick_eq, h.ticks_eq]
  split
  · exact h.mlfqsNumbers.mlfqsSort.checkPreemptIntr
  · exact h.mlfqsNumbers

/-- The loop of `thread_wake_up`. -/
theorem Alike.wakeUpLoop (l : List ℕ) : ∀ {s d : St}, Alike F s d → s.sleepList = l →
    Alike F (wakeUpLoop l s) (wakeUpLoop l d) := by
  induction l with
  | nil => exact fun h _ => h
  | cons t l ih =>
    intro s d h hl
    rw [Threads.wakeUpLoop, Threads.wakeUpLoop, h.wakeup]
    split
    · next hw =>
      rw [if_pos (h.ticks_eq.symm ▸ hw)]
      exact h
    · next hw =>
      have ht : ¬ F t := h.not_mem (q := .sleep) (by simp [St.queue, hl])
      have hpop : Alike F { s with sleepList := l } { d with sleepList := l } := by
        obtain ⟨θ, rfl⟩ : ∃ θ, s = { d with threads := θ } := ⟨_, h.rest⟩
        refine h.set rfl rfl rfl rfl (fun u hu hun q hq => ?_) h.cur rfl
        cases q with
        | ready => exact hun .ready hq
        | sleep => exact hun .sleep (hl ▸ List.mem_cons_of_mem t hq)
        | waiters x => exact hun (.waiters x) hq
      rw [if_neg (h.ticks_eq.symm ▸ hw)]
      refine ih (hpop.threadUnblock ht) ?_
      unfold Threads.threadUnblock
      split <;> rfl

theorem Alike.threadWakeUp (h : Alike F s d) : Alike F (threadWakeUp s) (threadWakeUp d) := by
  unfold Threads.threadWakeUp
  rw [h.sleepList_eq]
  exact (Alike.wakeUpLoop _ h rfl).checkPreemptIntr

theorem Alike.beforeMlfqsTick (h : Alike F s d) : Alike F (beforeMlfqsTick s) (beforeMlfqsTick d) := by
  have hage : ∀ {s d : St}, Alike F s d →
      Alike F (if s.aging then Threads.threadAging s else s) (if d.aging then Threads.threadAging d else d) := by
    intro s d h
    rw [h.aging_eq]
    split
    · exact h.threadAging
    · exact h
  obtain ⟨θ, rfl⟩ : ∃ θ, s = { d with threads := θ } := ⟨_, h.rest⟩
  unfold Threads.beforeMlfqsTick
  dsimp only
  split
  · exact hage (Alike.threadWakeUp (h.aside rfl rfl rfl rfl rfl rfl rfl))
  · exact hage (Alike.threadWakeUp (h.aside rfl rfl rfl rfl rfl rfl rfl))

theorem Alike.yieldOnReturn (h : Alike F s d) :
    Alike F (if s.yieldOnReturn then Threads.threadYield s else s)
      (if d.yieldOnReturn then Threads.threadYield d else d) := by
  rw [h.yieldOnReturn_eq]
  split
  · exact h.threadYield
  · exact h

theorem Alike.tick (h : Alike F s d) :
    Alike F (intrHandler timerInterrupt s) (intrHandler timerInterrupt d) := by
  rw [tick_eq, tick_eq, h.mlfqs_eq]
  dsimp only
  split
  · exact h.beforeMlfqsTick.threadMlfqsTick.yieldOnReturn
  · exact h.beforeMlfqsTick.yieldOnReturn

/-- An interrupt handler. -/
theorem Alike.intrHandler {g : St → St} (hg : ∀ s d, Alike F s d → Alike F (g s) (g d)) (h : Alike F s d) :
    Alike F (intrHandler g s) (intrHandler g d) := by
  refine Alike.yieldOnReturn (hg _ _ ?_)
  obtain ⟨θ, rfl⟩ : ∃ θ, s = { d with threads := θ } := ⟨_, h.rest⟩
  exact h.aside rfl rfl rfl rfl rfl rfl rfl

/-! ### Semaphores -/

theorem Alike.setSema (h : Alike F s d) {v : Semaphore} (hv : ∀ t ∈ v.waiters, ¬ F t) :
    Alike F (s.setSema x v) (d.setSema x v) := by
  obtain ⟨θ, rfl⟩ : ∃ θ, s = { d with threads := θ } := ⟨_, h.rest⟩
  refine h.set rfl rfl rfl rfl (fun u hu hun q hq => ?_) h.cur rfl
  cases q with
  | ready => exact hun .ready hq
  | sleep => exact hun .sleep hq
  | waiters y =>
    by_cases hy : y = x
    · subst hy
      have hm : u ∈ v.waiters := by simpa [St.queue, St.setSema] using hq
      exact hv u hm hu
    · refine hun (.waiters y) ?_
      simpa [St.queue, St.setSema, Function.update_of_ne hy] using hq

theorem Alike.semaUp (h : Alike F s d) : Alike F (semaUp s x) (semaUp d x) := by
  have hpost : ∀ {s d : St}, Alike F s d → Alike F (s.setSema x { s.sema x with value := (s.sema x).value + 1 })
      (d.setSema x { d.sema x with value := (d.sema x).value + 1 }) := by
    intro s d h
    rw [h.sema_eq]
    exact h.setSema fun t ht => h.not_mem (q := .waiters x) ht
  unfold Threads.semaUp
  refine hpost ?_
  rw [h.sema_eq]
  cases hw : (s.sema x).waiters with
  | nil => exact h
  | cons t l =>
    have hmem : ∀ u ∈ t :: l, ¬ F u := fun u hu => h.not_mem (q := .waiters x) (by rwa [St.queue, hw])
    exact (h.setSema fun u hu => hmem u (List.mem_cons_of_mem t hu)).threadUnblock (hmem t List.mem_cons_self)

theorem Alike.semaDown (h : Alike F s d) (rest : List Stmt) : Alike F (semaDown s x rest) (semaDown d x rest) := by
  have hins : listInsertOrdered (priorityGreater d) s.cur (s.sema x).waiters =
      listInsertOrdered (priorityGreater s) s.cur (s.sema x).waiters := h.insert (q := .waiters x) h.cur
  unfold Threads.semaDown
  rw [h.sema_eq, h.cur_eq, hins]
  split
  · refine ((h.setSema fun u hu => ?_).goOn _).threadBlock
    obtain rfl | hm := mem_listInsertOrdered.1 hu
    · exact h.cur
    · exact h.not_mem (q := .waiters x) hm
  · refine Alike.goOn (h.setSema fun u hu => ?_) _
    exact h.not_mem (q := .waiters x) hu

/-! ### Statements -/

theorem Alike.setNice (h : Alike F s d) {n : ℤ} :
    Alike F (s.upd t fun r => { r with nice := n }) (d.upd t fun r => { r with nice := n }) := by
  refine h.map (fun r r' hb => ?_) fun _ => ⟨rfl, rfl⟩
  simp_all [blank_eq]

/-- `thread_create` gives the child the numbers of its creator, and the priority that goes with them. -/
theorem Alike.inherit (h : Alike F s d) (hm : s.mlfqs = true) {c : ℕ} {rest : List Stmt} :
    Alike (fun u => F u ∧ u ≠ c) (exec s rest (.inherit c)) (exec d rest (.inherit c)) := by
  have hm' : d.mlfqs = true := h.mlfqs_eq.trans hm
  simp only [exec, hm, hm', if_true]
  refine Alike.goOn (Alike.threadCalcPriority ?_) _
  obtain ⟨hs, hd⟩ | ⟨r, r', hs, hd, hr⟩ := h.record s.cur
  · rw [h.cur_eq, hs, hd]
    exact h
  · obtain ⟨-, -, hnice, hcpu, -⟩ := blank_eq.1 hr.blank
    rw [h.cur_eq, hs, hd]
    dsimp only
    rw [hnice, hcpu]
    refine h.map (fun q q' hb => ?_) fun _ => ⟨rfl, rfl⟩
    simp_all [blank_eq]

/-- `thread_sleep`. -/
theorem Alike.sleep (h : Alike F s d) {w : ℤ} {rest : List Stmt} :
    Alike F (exec s rest (.sleep w)) (exec d rest (.sleep w)) := by
  have hup : Alike F ((s.upd s.cur fun r => { r with wakeupTick := w }).goOn rest)
      ((d.upd d.cur fun r => { r with wakeupTick := w }).goOn rest) := by
    rw [h.cur_eq]
    refine Alike.goOn ?_ rest
    refine h.map (fun q q' hb => ?_) fun _ => ⟨rfl, rfl⟩
    simp_all [blank_eq]
  have hmem : ∀ u ∈ s.sleepList, ¬ F u := fun u hu => h.not_mem (q := .sleep) hu
  have hcur := h.cur
  simp only [exec]
  refine Alike.threadBlock ?_
  rw [h.sleepList_eq, h.cur_eq] at *
  generalize (s.upd s.cur fun r => { r with wakeupTick := w }).goOn rest = s' at *
  generalize (d.upd s.cur fun r => { r with wakeupTick := w }).goOn rest = d' at *
  have hless : wakeupTickLess d' = wakeupTickLess s' := by
    funext a b
    simp only [wakeupTickLess, hup.wakeup]
  rw [hless]
  obtain ⟨θ, rfl⟩ : ∃ θ, s' = { d' with threads := θ } := ⟨_, hup.rest⟩
  refine hup.set rfl rfl rfl rfl (fun u hu hun q hq => ?_) hup.cur rfl
  cases q with
  | ready => exact hun .ready hq
  | sleep =>
    obtain rfl | hm := mem_listInsertOrdered.1 hq
    · exact hcur hu
    · exact hmem u hm hu
  | waiters y => exact hun (.waiters y) hq

/-- **One statement.** -/
theorem Alike.exec (h : Alike F s d) (hm : s.mlfqs = true) {y : Stmt} {rest : List Stmt}
    (hc : ∀ c, y = .unblock c → ¬ F c) :
    Alike (fun u => F u ∧ y ≠ .inherit u) (exec s rest y) (exec d rest y) := by
  by_cases hy : ∃ c, y = .inherit c
  · obtain ⟨c, rfl⟩ := hy
    refine h.inherit hm |>.shrink (fun u hu => ⟨hu.1, fun he => hu.2 (he ▸ rfl)⟩) fun u hu hn => ?_
    exact absurd ⟨hu.1, fun he => hu.2 (Stmt.inherit.inj he).symm⟩ hn
  refine Alike.shrink (F := F) ?_ (fun _ hu => hu.1) fun u hu hn => absurd ⟨hu, fun he => hy ⟨u, he⟩⟩ hn
  have hm' : d.mlfqs = true := h.mlfqs_eq.trans hm
  cases y with
  | inherit c => exact absurd ⟨c, rfl⟩ hy
  | kernelThread =>
    refine Alike.goOn ?_ rest
    rw [h.cur_eq]
    refine h.map (fun r r' hb => ?_) fun _ => ⟨rfl, rfl⟩
    simp_all [blank_eq]
  | setIdle =>
    refine Alike.goOn ?_ rest
    obtain ⟨θ, rfl⟩ : ∃ θ, s = { d with threads := θ } := ⟨_, h.rest⟩
    exact ⟨rfl, h.records, h.unlisted, h.cur, fun i hi => Option.some.inj hi ▸ h.cur, h.all⟩
  | idleLoop | block => exact (h.goOn _).threadBlock
  | allocTid c =>
    refine Alike.goOn ?_ rest
    obtain ⟨θ, rfl⟩ : ∃ θ, s = { d with threads := θ } := ⟨_, h.rest⟩
    refine Alike.map (h.aside rfl rfl rfl rfl rfl rfl rfl) (fun r r' hb => ?_) fun _ => ⟨rfl, rfl⟩
    simp_all [blank_eq]
  | unblock c => exact (h.goOn rest).threadUnblock (hc c rfl)
  | checkPreempt =>
    simp only [Threads.exec, h.needYield]
    exact h.goOn _
  | yield => exact (h.goOn rest).threadYield
  | unblocked => exact h.goOn rest
  | exit => exact (h.goOn rest).threadExit
  | readTicks n | sleepTest start n =>
    simp only [Threads.exec, h.ticks_eq]
    exact h.goOn _
  | sleep w => exact h.sleep
  | down y | downAgain y => exact h.semaDown rest
  | tryDown y =>
    simp only [Threads.exec, h.sema_eq]
    refine Alike.goOn ?_ rest
    exact h.setSema fun u hu => h.not_mem (q := .waiters y) hu
  | up y => exact (h.goOn rest).semaUp
  | setHolder l | clearHolder l =>
    refine Alike.goOn ?_ rest
    obtain ⟨θ, rfl⟩ : ∃ θ, s = { d with threads := θ } := ⟨_, h.rest⟩
    exact h.aside rfl rfl rfl rfl rfl rfl rfl
  | tryAcquire l =>
    simp only [Threads.exec, h.sema_eq]
    split
    · exact h.goOn rest
    · refine Alike.goOn ?_ _
      exact h.setSema fun u hu => h.not_mem (q := .waiters (.lock l)) hu
  | condPush c =>
    simp only [Threads.exec, h.cur_eq]
    refine Alike.goOn (Alike.setSema ?_ (by simp)) rest
    obtain ⟨θ, rfl⟩ : ∃ θ, s = { d with threads := θ } := ⟨_, h.rest⟩
    exact h.aside rfl rfl rfl rfl rfl rfl rfl
  | condSignal c | condBroadcast c =>
    obtain ⟨θ, rfl⟩ : ∃ θ, s = { d with threads := θ } := ⟨_, h.rest⟩
    simp only [Threads.exec]
    split
    · exact h.goOn rest
    · refine Alike.goOn ?_ _
      exact h.aside rfl rfl rfl rfl rfl rfl rfl
  | setPriority p =>
    refine Alike.goOn ?_ rest
    rw [h.cur_eq]
    exact (h.setPrio p).restore h.cur
  | setNice n =>
    simp only [Threads.exec, hm, hm', if_true, h.cur_eq]
    refine Alike.goOn ?_ rest
    exact h.setNice.threadCalcPriority.restore h.cur

/-! ### Calls -/

/-- What is in front of the code of a thread in both runs. -/
theorem Akin.head {p : Prop} {r r' : Thread} (h : Akin p r r') {x : Stmt} (hx : x ≠ .checkPreempt)
    (hx' : ∀ p, x ≠ .setPriority p) : r'.cont.head? = some x ↔ r.cont.head? = some x := by
  obtain he | ⟨⟨q, hc⟩ | hc, hnil⟩ := h.cont
  · rw [he]
  · rw [hc, hnil]
    simpa using (hx' q).symm
  · rw [hc, hnil]
    simpa using hx.symm

theorem Alike.parked (h : Alike F s d) : parked d t = parked s t := by
  unfold Threads.parked
  obtain ⟨hs, hd⟩ | ⟨r, r', hs, hd, hr⟩ := h.record t
  · rw [hs, hd]
  · rw [hs, hd]
    simp only [(blank_eq.1 hr.blank).2.1, hr.head (x := .unblocked) nofun nofun]

theorem Akin.intrOn {p : Prop} {r r' : Thread} (h : Akin p r r') : intrOn r' = intrOn r := by
  unfold Threads.intrOn
  obtain ⟨-, -, -, -, -, hlevel, -⟩ := blank_eq.1 h.blank
  rw [hlevel]
  obtain he | ⟨⟨q, hc⟩ | hc, hnil⟩ := h.cont
  · rw [he]
  · rw [hc, hnil]
  · rw [hc, hnil]

/-- A call that is not about priorities. -/
theorem Alike.canCall (h : Alike F s d) {r r' : Thread} {p : Prop} (hr : Akin p r r') {q : Call}
    (hq : ∀ c p, q ≠ .threadCreate c p) : canCall d r' q = canCall s r q := by
  obtain ⟨-, -, -, -, -, hlevel, -⟩ := blank_eq.1 hr.blank
  have hholder : d.holder = s.holder := (congrArg St.holder h.rest).symm
  cases q with
  | threadCreate c p => exact absurd rfl (hq c p)
  | threadUnblock u => exact h.parked
  | _ => simp only [Threads.canCall, hlevel, hholder, h.cur_eq]

theorem Alike.enter (h : Alike F s d) {q : Call} (hq : ∀ c p, q ≠ .threadCreate c p)
    (hu : ∀ u, q = .threadUnblock u → ¬ F u) : Alike F (enter s q) (enter d q) := by
  cases q with
  | threadCreate c p => exact absurd rfl (hq c p)
  | threadUnblock u => exact h.threadUnblock (hu u rfl)
  | intrDisable | intrEnable =>
    simp only [Threads.enter, h.cur_eq]
    refine h.map (fun r r' hb => ?_) fun _ => ⟨rfl, rfl⟩
    simp_all [blank_eq]
  | _ => exact h

/-- `thread_create` with another priority. -/
theorem Alike.initThread (h : Alike F s d) {c : ℕ} (hu : Unlisted s c) (hcur : c ≠ s.cur)
    (hidle : s.idleThread ≠ some c) (p p' : ℤ) :
    Alike (fun u => F u ∨ u = c) (initThread s c p) (initThread d c p') := by
  refine ⟨?_, fun u => ?_, fun u hF q hq => ?_, fun hF => ?_, fun i hi hF => ?_, fun u hF => ?_⟩
  · rw [h.rest]
    rfl
  · by_cases huc : u = c
    · subst huc
      simp only [Threads.initThread, Function.update_self]
      exact .some ⟨rfl, fun hn => absurd (.inr trivial) hn, .inl rfl⟩
    · simp only [Threads.initThread, Function.update_of_ne huc]
      obtain ⟨hs, hd⟩ | ⟨r, r', hs, hd, hr⟩ := h.record u
      · rw [hs, hd]
        exact .none
      · rw [hs, hd]
        exact .some ⟨hr.blank, fun hn => hr.priority fun hF => hn (.inl hF), hr.cont⟩
  · have hq' : u ∈ s.queue q := by cases q <;> exact hq
    obtain hF | rfl := hF
    · exact h.unlisted u hF q hq'
    · exact hu q hq'
  · obtain hF | he := hF
    · exact h.cur hF
    · exact hcur he.symm
  · obtain hF | rfl := hF
    · exact h.idle i hi hF
    · exact hidle hi
  · obtain hF | rfl := hF
    · exact List.mem_append_left _ (h.all u hF)
    · exact List.mem_append_right _ List.mem_cons_self

end Alike

end Threads
end Pintos

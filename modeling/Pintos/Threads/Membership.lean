import Pintos.Threads.Sched

/-!
# Thread states and queues

One `elem` of each thread serves `ready_list`, `Sleep_list` and the `waiters` of every semaphore.
This module shows that in every state between two uninterrupted stretches of code the status of a
thread says in which of these lists its `elem` is, and that it is in no second one.

The invariant has three layers. `Core` is about the queues alone. `Running` adds the thread on the
CPU and holds between steps; `Off` is its counterpart inside `thread_block`, `thread_yield` and
`thread_exit`, after the status of the caller was changed and before `schedule` (`Off.schedule`
leads back). There is one lemma for each function of `threads/thread.c` and `threads/synch.c` that
changes a status or a list, and each also says what the function leaves alone (`Keeps`).
-/

namespace Pintos
namespace Threads

/-- The lists an `elem` can be in. -/
inductive Queue
  | ready
  | sleep
  | waiters (x : Sema)
  deriving DecidableEq

/-- The status that goes with a queue. -/
def Queue.status : Queue → Status
  | .ready => .ready
  | .sleep => .blocked
  | .waiters _ => .blocked

def St.queue (s : St) : Queue → List ℕ
  | .ready => s.readyList
  | .sleep => s.sleepList
  | .waiters x => (s.sema x).waiters

/-! ### What an update does to statuses and queues -/

section Fields

variable {s : St} {t u : ℕ} {f : Thread → Thread}

theorem status_upd_of_ne (h : u ≠ t) : (s.upd t f).status u = s.status u := by
  simp [St.status, St.upd, Function.update_of_ne h]

theorem status_upd (hf : ∀ r, (f r).status = r.status) : (s.upd t f).status = s.status := by
  funext u
  by_cases h : u = t
  · subst h
    cases hu : s.threads u with
    | none => simp [St.status, St.upd, hu]
    | some r => simp [St.status, St.upd, hu, hf]
  · exact status_upd_of_ne h

theorem conts_upd (hf : ∀ r, (f r).cont = r.cont) : (s.upd t f).conts = s.conts := by
  funext u
  by_cases h : u = t
  · subst h
    cases hu : s.threads u with
    | none => simp [St.conts, St.upd, hu]
    | some r => simp [St.conts, St.upd, hu, hf]
  · simp [St.conts, St.upd, Function.update_of_ne h]

@[simp] theorem queue_upd : (s.upd t f).queue = s.queue := by
  funext q
  cases q <;> rfl

theorem queue_setSema {x : Sema} {v : Semaphore} :
    (s.setSema x v).queue = Function.update s.queue (.waiters x) v.waiters := by
  funext q
  cases q with
  | waiters y =>
    by_cases hy : y = x
    · subst hy
      simp [St.queue, St.setSema]
    · have hq : Queue.waiters y ≠ .waiters x := fun he => hy (Queue.waiters.inj he)
      simp [St.queue, St.setSema, Function.update_of_ne hy, Function.update_of_ne hq]
  | _ => rfl

theorem status_set {x y : Status} (h : s.status t = some x) (hf : ∀ r, (f r).status = y) :
    (s.upd t f).status = Function.update s.status t (some y) := by
  funext u
  by_cases hu : u = t
  · subst hu
    cases hr : s.threads u with
    | none => simp [St.status, hr] at h
    | some r => simp [St.status, St.upd, hr, hf]
  · rw [status_upd_of_ne hu, Function.update_of_ne hu]

theorem status_goOn {l : List Stmt} : (s.goOn l).status = s.status := status_upd fun _ => rfl

theorem conts_goOn {l : List Stmt} (h : s.threads s.cur ≠ none) :
    (s.goOn l).conts = Function.update s.conts s.cur (some l) := by
  obtain ⟨r, hr⟩ := Option.ne_none_iff_exists'.mp h
  funext u
  by_cases hu : u = s.cur
  · rw [hu]
    simp [St.goOn, St.conts, St.upd, hr]
  · simp [St.goOn, St.conts, St.upd, Function.update_of_ne hu]

end Fields

/-! ### The queues -/

/-- The queues by themselves. -/
structure Core (s : St) : Prop where
  nodup : ∀ q, (s.queue q).Nodup
  unique : ∀ q q' t, t ∈ s.queue q → t ∈ s.queue q' → q = q'
  status : ∀ q t, t ∈ s.queue q → s.status t = some q.status
  all_nodup : s.allList.Nodup
  all : ∀ t, t ∈ s.allList ↔ ∃ x, s.status t = some x ∧ x ≠ .dying

/-- The `elem` of `t` is in no list. -/
def Unlisted (s : St) (t : ℕ) : Prop := ∀ q, t ∉ s.queue q

section Core

variable {s s' : St} {t : ℕ}

theorem Core.congr (h : Core s) (hst : s'.status = s.status) (hq : s'.queue = s.queue)
    (hall : s'.allList = s.allList) : Core s' := by
  refine ⟨?_, ?_, ?_, ?_, ?_⟩
  · rw [hq]; exact h.nodup
  · rw [hq]; exact h.unique
  · rw [hq, hst]; exact h.status
  · rw [hall]; exact h.all_nodup
  · rw [hall, hst]; exact h.all

/-- A thread whose status goes with no queue is in none. -/
theorem Core.unlisted (h : Core s) (hst : s.status t ≠ some .ready)
    (hst' : s.status t ≠ some .blocked) : Unlisted s t := by
  intro q ht
  have hs := h.status q t ht
  cases q with
  | ready => exact hst hs
  | sleep | waiters x => exact hst' hs

/-- A change of status of a thread in no list. -/
theorem Core.restatus (h : Core s) (hu : Unlisted s t) {x y : Status} (hx : s.status t = some x)
    (hxd : x ≠ .dying) (hy : y ≠ .dying) (hst : s'.status = Function.update s.status t (some y))
    (hq : s'.queue = s.queue) (hall : s'.allList = s.allList) : Core s' := by
  refine ⟨?_, ?_, ?_, ?_, ?_⟩
  · rw [hq]; exact h.nodup
  · rw [hq]; exact h.unique
  · intro q u hqu
    rw [hq] at hqu
    have hut : u ≠ t := by rintro rfl; exact hu q hqu
    rw [hst, Function.update_of_ne hut]
    exact h.status q u hqu
  · rw [hall]; exact h.all_nodup
  · intro u
    rw [hall, h.all u, hst]
    by_cases hut : u = t
    · subst hut
      simp [hx, hxd, hy]
    · rw [Function.update_of_ne hut]

/-- A thread in no list is put into `q` and takes its status. -/
theorem Core.place (h : Core s) (hu : Unlisted s t) {x : Status} (hx : s.status t = some x)
    (hxd : x ≠ .dying) {q : Queue} {l : List ℕ} (hl : l.Perm (t :: s.queue q))
    (hst : s'.status = Function.update s.status t (some q.status))
    (hq : s'.queue = Function.update s.queue q l) (hall : s'.allList = s.allList) : Core s' := by
  -- an element of a queue is an old one, or the new one in `q`
  have hmem : ∀ {q' u}, u ∈ s'.queue q' → (u = t ∧ q' = q) ∨ u ≠ t ∧ u ∈ s.queue q' := by
    intro q' u huq
    have hne : u ∈ s.queue q' → u ≠ t := by rintro hm rfl; exact hu q' hm
    rw [hq] at huq
    by_cases hqq : q' = q
    · subst hqq
      rw [Function.update_self, hl.mem_iff] at huq
      rcases List.mem_cons.mp huq with rfl | huq
      · exact .inl ⟨rfl, rfl⟩
      · exact .inr ⟨hne huq, huq⟩
    · rw [Function.update_of_ne hqq] at huq
      exact .inr ⟨hne huq, huq⟩
  refine ⟨fun q' => ?_, fun q' q'' u h₁ h₂ => ?_, fun q' u huq => ?_, ?_, fun u => ?_⟩
  · rw [hq]
    by_cases hqq : q' = q
    · subst hqq
      rw [Function.update_self, hl.nodup_iff, List.nodup_cons]
      exact ⟨hu q', h.nodup q'⟩
    · rw [Function.update_of_ne hqq]
      exact h.nodup q'
  · rcases hmem h₁ with ⟨hut, h₁⟩ | ⟨hut, h₁⟩ <;> rcases hmem h₂ with ⟨hut', h₂⟩ | ⟨hut', h₂⟩
    · rw [h₁, h₂]
    · exact absurd hut hut'
    · exact absurd hut' hut
    · exact h.unique q' q'' u h₁ h₂
  · rw [hst]
    rcases hmem huq with ⟨rfl, rfl⟩ | ⟨hut, huq⟩
    · rw [Function.update_self]
    · rw [Function.update_of_ne hut]
      exact h.status q' u huq
  · rw [hall]; exact h.all_nodup
  · have hqd : q.status ≠ .dying := by cases q <;> simp [Queue.status]
    rw [hall, h.all u, hst]
    by_cases hut : u = t
    · subst hut
      simp [hx, hxd, hqd]
    · rw [Function.update_of_ne hut]

/-- The front of `q` is taken off. -/
theorem Core.pop (h : Core s) {q : Queue} {l : List ℕ} (hl : s.queue q = t :: l)
    {y : Status} (hy : y ≠ .dying) (hst : s'.status = Function.update s.status t (some y))
    (hq : s'.queue = Function.update s.queue q l) (hall : s'.allList = s.allList) :
    Core s' ∧ Unlisted s' t := by
  have hnd := h.nodup q
  rw [hl, List.nodup_cons] at hnd
  have htq : t ∈ s.queue q := hl ▸ List.mem_cons_self
  have hmem : ∀ {q' u}, u ∈ s'.queue q' → u ≠ t ∧ u ∈ s.queue q' := by
    intro q' u huq
    rw [hq] at huq
    by_cases hqq : q' = q
    · subst hqq
      rw [Function.update_self] at huq
      exact ⟨fun hut => hnd.1 (hut ▸ huq), hl ▸ List.mem_cons_of_mem _ huq⟩
    · rw [Function.update_of_ne hqq] at huq
      exact ⟨fun hut => hqq (h.unique q' q t (hut ▸ huq) htq), huq⟩
  refine ⟨⟨fun q' => ?_, fun q' q'' u h₁ h₂ => ?_, fun q' u huq => ?_, ?_, fun u => ?_⟩,
    fun q' ht => (hmem ht).1 rfl⟩
  · rw [hq]
    by_cases hqq : q' = q
    · subst hqq
      rw [Function.update_self]
      exact hnd.2
    · rw [Function.update_of_ne hqq]
      exact h.nodup q'
  · exact h.unique q' q'' u (hmem h₁).2 (hmem h₂).2
  · obtain ⟨hut, huq⟩ := hmem huq
    rw [hst, Function.update_of_ne hut]
    exact h.status q' u huq
  · rw [hall]; exact h.all_nodup
  · have hqd : q.status ≠ .dying := by cases q <;> simp [Queue.status]
    rw [hall, h.all u, hst]
    by_cases hut : u = t
    · subst hut
      simp [h.status q u htq, hqd, hy]
    · rw [Function.update_of_ne hut]

/-- `q` is put into another order. -/
theorem Core.reorder (h : Core s) {q : Queue} {l : List ℕ} (hl : l.Perm (s.queue q))
    (hst : s'.status = s.status) (hq : s'.queue = Function.update s.queue q l)
    (hall : s'.allList = s.allList) : Core s' := by
  have hmem : ∀ {q' u}, u ∈ s'.queue q' ↔ u ∈ s.queue q' := by
    intro q' u
    rw [hq]
    by_cases hqq : q' = q
    · subst hqq
      rw [Function.update_self, hl.mem_iff]
    · rw [Function.update_of_ne hqq]
  refine ⟨fun q' => ?_, fun q' q'' u h₁ h₂ => h.unique q' q'' u (hmem.mp h₁) (hmem.mp h₂),
    fun q' u huq => ?_, ?_, ?_⟩
  · rw [hq]
    by_cases hqq : q' = q
    · subst hqq
      rw [Function.update_self, hl.nodup_iff]
      exact h.nodup q'
    · rw [Function.update_of_ne hqq]
      exact h.nodup q'
  · rw [hst]
    exact h.status q' u (hmem.mp huq)
  · rw [hall]; exact h.all_nodup
  · rw [hall, hst]; exact h.all

end Core

/-! ### The thread on the CPU -/

/-- The thread on the CPU is the one that is running. -/
structure Switched (s : St) : Prop where
  ok : s.panicked = false
  core : Core s
  cur : s.status s.cur = some .running
  running : ∀ t, s.status t = some .running → t = s.cur
  ready : ∀ t, s.status t = some .ready → s.idleThread ≠ some t → t ∈ s.readyList
  idle : ∀ i, s.idleThread = some i → i = idlePage ∧ Unlisted s i
  idle_alive : ∃ x, s.status idlePage = some x ∧ x ≠ .dying
  -- until it has set `idle_thread`, the idle thread can be chosen as any other
  boot : s.idleThread = none → idlePage ∈ s.readyList ∨ s.cur = idlePage

/-- Between two steps: moreover, only the page of the initial thread is kept after its end. -/
structure Running (s : St) : Prop extends Switched s where
  dying : ∀ t, s.status t = some .dying → t = initialThread

/-- In front of `schedule`: no thread is running. -/
structure Off (s : St) : Prop where
  ok : s.panicked = false
  core : Core s
  cur : s.status s.cur ≠ none
  running : ∀ t, s.status t ≠ some .running
  ready : ∀ t, s.status t = some .ready → s.idleThread ≠ some t → t ∈ s.readyList
  dying : ∀ t, s.status t = some .dying → t = initialThread ∨ t = s.cur
  idle : ∀ i, s.idleThread = some i → i = idlePage ∧ Unlisted s i
  idle_alive : ∃ x, s.status idlePage = some x ∧ x ≠ .dying
  boot : s.idleThread = none → idlePage ∈ s.readyList

/-- What happens to everything that is not on the CPU and in no list: nothing, except for the
threads in `D`. -/
structure Keeps (D : ℕ → Prop) (s s' : St) : Prop where
  conts : ∀ t l, s'.conts t = some l → s.conts t = some l
  idleThread : s'.idleThread = s.idleThread
  waiters : ∀ x t, t ∈ s'.queue (.waiters x) → t ∈ s.queue (.waiters x)
  spared : ∀ c, ¬ D c → s.idleThread ≠ some c → s.status c = some .blocked → Unlisted s c →
    s'.status c = some .blocked ∧ Unlisted s' c
  blocked : ∀ c, s'.status c = some .blocked → s.status c = some .blocked ∧ ¬ D c
  mlfqs : s'.mlfqs = s.mlfqs

/-- `s'` differs from `s` in nothing the invariant speaks of. -/
structure Same (s s' : St) : Prop where
  status : s'.status = s.status
  queue : s'.queue = s.queue
  conts : s'.conts = s.conts
  allList : s'.allList = s.allList
  idleThread : s'.idleThread = s.idleThread
  cur : s'.cur = s.cur
  panicked : s'.panicked = s.panicked
  mlfqs : s'.mlfqs = s.mlfqs

section Running

variable {s s' s'' : St} {t : ℕ} {D : ℕ → Prop}

theorem Same.refl (s : St) : Same s s := ⟨rfl, rfl, rfl, rfl, rfl, rfl, rfl, rfl⟩

theorem Same.trans (h : Same s s') (h' : Same s' s'') : Same s s'' :=
  ⟨h'.status.trans h.status, h'.queue.trans h.queue, h'.conts.trans h.conts,
    h'.allList.trans h.allList, h'.idleThread.trans h.idleThread, h'.cur.trans h.cur,
    h'.panicked.trans h.panicked, h'.mlfqs.trans h.mlfqs⟩

/-- A change of fields of a record other than its status and its continuation. -/
theorem Same.upd {f : Thread → Thread} (hst : ∀ r, (f r).status = r.status)
    (hc : ∀ r, (f r).cont = r.cont) : Same s (s.upd t f) :=
  ⟨status_upd hst, queue_upd, conts_upd hc, rfl, rfl, rfl, rfl, rfl⟩

theorem Same.foldl {f : St → ℕ → St} (hf : ∀ s t, Same s (f s t)) (l : List ℕ) :
    Same s (l.foldl f s) := by
  induction l generalizing s with
  | nil => exact Same.refl s
  | cons t l ih => exact (hf s t).trans ih

theorem Same.keeps (h : Same s s') : Keeps (fun _ => False) s s' := by
  refine ⟨fun t l hl => ?_, h.idleThread, fun x t ht => ?_, fun c _ _ hst hu => ⟨?_, fun q hq => ?_⟩,
    fun c hc => ⟨?_, id⟩, h.mlfqs⟩
  · rwa [h.conts] at hl
  · rwa [h.queue] at ht
  · rw [h.status]; exact hst
  · rw [h.queue] at hq
    exact hu q hq
  · rwa [h.status] at hc

theorem Keeps.trans (h : Keeps D s s') (h' : Keeps (fun _ => False) s' s'') : Keeps D s s'' := by
  refine ⟨fun t l hl => h.conts t l (h'.conts t l hl), h'.idleThread.trans h.idleThread,
    fun x t ht => h.waiters x t (h'.waiters x t ht), fun c hD hi hst hu => ?_,
    fun c hc => h.blocked c (h'.blocked c hc).1, h'.mlfqs.trans h.mlfqs⟩
  obtain ⟨hst', hu'⟩ := h.spared c hD hi hst hu
  exact h'.spared c id (h.idleThread ▸ hi) hst' hu'

/-- The same after a step that changes nothing the invariant speaks of. -/
theorem Same.trans_keeps (h : Same s s') (h' : Keeps D s' s'') : Keeps D s s'' := by
  refine ⟨fun t l hl => ?_, h'.idleThread.trans h.idleThread, fun x t ht => ?_,
    fun c hD hi hst hu => ?_, fun c hc => ?_, h'.mlfqs.trans h.mlfqs⟩
  · rw [← h.conts]; exact h'.conts t l hl
  · rw [← h.queue]; exact h'.waiters x t ht
  · refine h'.spared c hD (h.idleThread ▸ hi) (h.status ▸ hst) fun q hq => hu q ?_
    rwa [h.queue] at hq
  · rw [← h.status]; exact h'.blocked c hc

/-- The invariant reads statuses and queues, not what the threads still have to do. -/
theorem Running.congr (h : Running s) (hst : s'.status = s.status) (hq : s'.queue = s.queue)
    (hall : s'.allList = s.allList) (hidle : s'.idleThread = s.idleThread) (hcur : s'.cur = s.cur)
    (hok : s'.panicked = s.panicked) : Running s' := by
  have hr : s'.readyList = s.readyList := congrFun hq .ready
  refine ⟨⟨hok.trans h.ok, h.core.congr hst hq hall, ?_, ?_, ?_, ?_, ?_, ?_⟩, hst ▸ h.dying⟩
  · rw [hst, hcur]; exact h.cur
  · rw [hst, hcur]; exact h.running
  · rw [hst, hidle, hr]; exact h.ready
  · intro i hi
    obtain ⟨hp, hu⟩ := h.idle i (hidle ▸ hi)
    refine ⟨hp, fun q hm => hu q ?_⟩
    rwa [hq] at hm
  · rw [hst]; exact h.idle_alive
  · rw [hidle, hcur, hr]; exact h.boot

theorem Running.same (h : Running s) (hs : Same s s') : Running s' :=
  h.congr hs.status hs.queue hs.allList hs.idleThread hs.cur hs.panicked

theorem Running.goOn (h : Running s) (l : List Stmt) : Running (s.goOn l) :=
  h.congr status_goOn queue_upd rfl rfl rfl rfl

/-- The thread on the CPU is in no list. -/
theorem Running.cur_unlisted (h : Running s) : Unlisted s s.cur :=
  h.core.unlisted (by rw [h.cur]; simp) (by rw [h.cur]; simp)

/-- The next thread to run is in front of `ready_list`, or it is the idle thread. -/
theorem Off.next (h : Off s) : ∃ n x, (nextThreadToRun s).1 = some n ∧ s.status n = some x ∧
    x ≠ .dying ∧ (s.readyList = n :: (nextThreadToRun s).2 ∨
      s.readyList = [] ∧ (nextThreadToRun s).2 = [] ∧ s.idleThread = some n) := by
  unfold nextThreadToRun
  cases hr : s.readyList with
  | nil =>
    cases hi : s.idleThread with
    | none =>
      have hb := h.boot hi
      rw [hr] at hb
      exact absurd hb List.not_mem_nil
    | some i =>
      obtain ⟨rfl, -⟩ := h.idle i hi
      obtain ⟨x, hx, hxd⟩ := h.idle_alive
      exact ⟨idlePage, x, rfl, hx, hxd, .inr ⟨rfl, rfl, rfl⟩⟩
  | cons n l =>
    have hn : n ∈ s.queue .ready := by
      change n ∈ s.readyList
      rw [hr]
      exact List.mem_cons_self
    exact ⟨n, .ready, rfl, h.core.status .ready n hn, by simp, .inl rfl⟩

/-- What `schedule` can do. -/
theorem schedule_cases (h : (schedule s).panicked = false) : ∃ n,
    (nextThreadToRun s).1 = some n ∧ (schedule s = dispatch s n (nextThreadToRun s).2 ∨
      s.cur ≠ n ∧ schedule s = (dispatch s n (nextThreadToRun s).2).free s.cur ∧
        s.status s.cur = some .dying) := by
  unfold schedule at h ⊢
  split at h
  · next prev next hp hn =>
    split at h
    · cases h
    · next hno =>
      refine ⟨next, hn, ?_⟩
      simp only [if_neg hno]
      split
      · next hf => exact .inr ⟨hf.1, rfl, by simp [St.status, hp, hf.2.1]⟩
      · exact .inl rfl
  · cases h

/-- The thread that `next_thread_to_run` returns was in front of `ready_list`, or it is the idle
thread. -/
theorem mem_of_nextThreadToRun {n : ℕ} (h : (nextThreadToRun s).1 = some n) :
    n ∈ s.queue .ready ∨ s.idleThread = some n := by
  unfold nextThreadToRun at h
  cases hr : s.readyList with
  | nil => exact .inr (by simpa [hr] using h)
  | cons t l =>
    obtain rfl : t = n := by simpa [hr] using h
    refine .inl ?_
    change t ∈ s.readyList
    rw [hr]
    exact List.mem_cons_self

theorem keeps_dispatch {n : ℕ} (hn : (nextThreadToRun s).1 = some n) :
    Keeps (fun _ => False) s (dispatch s n (nextThreadToRun s).2) := by
  have hst : ∀ t, t ≠ n → (dispatch s n (nextThreadToRun s).2).status t = s.status t :=
    fun t ht => status_upd_of_ne ht
  have hconts : (dispatch s n (nextThreadToRun s).2).conts = s.conts := conts_upd fun _ => rfl
  have hsub : ∀ q u, u ∈ (dispatch s n (nextThreadToRun s).2).queue q → u ∈ s.queue q := by
    intro q u hu
    cases q with
    | ready =>
      change u ∈ (nextThreadToRun s).2 at hu
      change u ∈ s.readyList
      unfold nextThreadToRun at hu
      cases hr : s.readyList with
      | nil => simp [hr] at hu
      | cons t l => exact List.mem_cons_of_mem t (by simpa [hr] using hu)
    | _ => exact hu
  refine ⟨fun t l hl => ?_, rfl, fun x t ht => hsub _ t ht, ?_, fun c hc => ⟨?_, id⟩, rfl⟩
  · rwa [hconts] at hl
  · intro c _ hi hb hu
    have hcn : c ≠ n := by
      rintro rfl
      exact (mem_of_nextThreadToRun hn).elim (hu .ready) hi
    exact ⟨(hst c hcn).trans hb, fun q hq => hu q (hsub q c hq)⟩
  · by_cases hcn : c = n
    · -- the chosen thread is running
      subst hcn
      cases hr : s.threads c <;> simp [dispatch, St.setStatus, St.status, St.upd, hr] at hc
    · rwa [hst c hcn] at hc

theorem keeps_free {p : ℕ} (hp : s.status p ≠ some .blocked) :
    Keeps (fun _ => False) s (s.free p) := by
  have hst : ∀ u, u ≠ p → (s.free p).status u = s.status u := fun u hu => by
    simp [St.status, St.free, Function.update_of_ne hu]
  refine ⟨fun t l hl => ?_, rfl, fun _ _ ht => ht, fun c _ _ hb hu => ⟨?_, hu⟩, fun c hc => ⟨?_, id⟩,
    rfl⟩
  · by_cases ht : t = p
    · simp [St.conts, St.free, ht] at hl
    · simpa [St.conts, St.free, Function.update_of_ne ht] using hl
  · rw [hst c (by rintro rfl; exact hp hb)]
    exact hb
  · by_cases hcp : c = p
    · simp [St.status, St.free, hcp] at hc
    · rwa [hst c hcp] at hc

/-- `schedule` spares whoever is blocked and in no list. -/
theorem keeps_schedule (hok : (schedule s).panicked = false) :
    Keeps (fun _ => False) s (schedule s) := by
  obtain ⟨n, hn, heq | ⟨hne, heq, hdy⟩⟩ := schedule_cases hok
  · rw [heq]
    exact keeps_dispatch hn
  · rw [heq]
    refine (keeps_dispatch hn).trans (keeps_free ?_)
    rw [show (dispatch s n (nextThreadToRun s).2).status s.cur = s.status s.cur from
      status_upd_of_ne hne, hdy]
    simp

/-- `schedule` dispatches the next thread, and frees the page of a thread that has ended. -/
theorem schedule_eq {prev : Thread} {n : ℕ} (hp : s.threads s.cur = some prev)
    (hn : (nextThreadToRun s).1 = some n) (hst : prev.status ≠ .running)
    (hnn : s.threads n ≠ none) : schedule s =
      if s.cur ≠ n ∧ prev.status = .dying ∧ s.cur ≠ initialThread then
        (dispatch s n (nextThreadToRun s).2).free s.cur
      else dispatch s n (nextThreadToRun s).2 := by
  simp only [schedule, hp, hn]
  rw [if_neg (by simp [hst, hnn])]

/-- The queues after `next_thread_to_run`. -/
theorem Off.dispatch_core (h : Off s) {n : ℕ} (hn : (nextThreadToRun s).1 = some n)
    (d : St) (hd : d = dispatch s n (nextThreadToRun s).2) :
    Core d ∧ d.status = Function.update s.status n (some .running) ∧
      (∀ u, u ∈ s.readyList → u = n ∨ u ∈ d.readyList) ∧
      (∀ q u, u ∈ d.queue q → u ∈ s.queue q) := by
  obtain ⟨n', x, hn', hx, hxd, hcase⟩ := h.next
  obtain rfl : n = n' := Option.some.inj (hn.symm.trans hn')
  have hst : d.status = Function.update s.status n (some .running) := by
    rw [hd]
    exact status_set hx fun _ => rfl
  have hall : d.allList = s.allList := by rw [hd]; rfl
  have hqueue : d.queue = Function.update s.queue .ready (nextThreadToRun s).2 := by
    rw [hd]
    funext q
    cases q <;> rfl
  rcases hcase with hr | ⟨hr, hr', hi⟩
  · obtain ⟨hcore, -⟩ := h.core.pop (q := .ready) hr (by simp) hst hqueue hall
    refine ⟨hcore, hst, ?_, ?_⟩
    · intro u hu'
      rw [hr] at hu'
      rcases List.mem_cons.mp hu' with rfl | hu'
      · exact .inl rfl
      · exact .inr (by rw [hd]; exact hu')
    · intro q u huq
      rw [hqueue] at huq
      by_cases hq : q = .ready
      · subst hq
        rw [Function.update_self] at huq
        change u ∈ s.readyList
        rw [hr]
        exact List.mem_cons_of_mem _ huq
      · rwa [Function.update_of_ne hq] at huq
  · have hqueue' : d.queue = s.queue := by
      rw [hqueue, hr', Function.update_eq_self_iff]
      exact hr.symm
    refine ⟨h.core.restatus (h.idle n hi).2 hx hxd (by simp) hst hqueue' hall, hst, ?_, ?_⟩
    · intro u hu
      rw [hr] at hu
      exact absurd hu List.not_mem_nil
    · intro q u huq
      rwa [hqueue'] at huq

/-- The switch to the next thread, before the page of a thread that has ended is freed. -/
theorem Off.dispatch (h : Off s) {n : ℕ} (hn : (nextThreadToRun s).1 = some n)
    (d : St) (hd : d = dispatch s n (nextThreadToRun s).2) :
    Switched d ∧ d.status = Function.update s.status n (some .running) := by
  obtain ⟨n', x, hn', hx, hxd, hcase⟩ := h.next
  obtain rfl : n = n' := Option.some.inj (hn.symm.trans hn')
  obtain ⟨hcore, hst, hready, hsub⟩ := h.dispatch_core hn d hd
  have hcur : d.cur = n := by rw [hd]; rfl
  have hidle : d.idleThread = s.idleThread := by rw [hd]; rfl
  have hok : d.panicked = false := by rw [hd]; exact h.ok
  -- a thread that did not have the status `y` before, and has it now, is not the chosen one
  have hold : ∀ {t y}, y ≠ .running → d.status t = some y → t ≠ n ∧ s.status t = some y := by
    intro t y hy ht
    rw [hst] at ht
    by_cases htn : t = n
    · subst htn
      rw [Function.update_self] at ht
      exact absurd (Option.some.inj ht).symm hy
    · rw [Function.update_of_ne htn] at ht
      exact ⟨htn, ht⟩
  refine ⟨⟨hok, hcore, ?_, ?_, ?_, ?_, ?_, ?_⟩, hst⟩
  · rw [hcur, hst, Function.update_self]
  · intro t ht
    rw [hst] at ht
    by_contra htn
    rw [hcur] at htn
    rw [Function.update_of_ne htn] at ht
    exact h.running t ht
  · intro t ht hi
    obtain ⟨htn, ht⟩ := hold (by simp) ht
    exact (hready t (h.ready t ht (hidle ▸ hi))).resolve_left htn
  · intro i hi
    obtain ⟨hp, hu⟩ := h.idle i (hidle ▸ hi)
    exact ⟨hp, fun q hq => hu q (hsub q i hq)⟩
  · obtain ⟨y, hy, hyd⟩ := h.idle_alive
    rw [hst]
    by_cases hin : idlePage = n
    · exact ⟨.running, by rw [hin, Function.update_self], by simp⟩
    · exact ⟨y, by rw [Function.update_of_ne hin]; exact hy, hyd⟩
  · intro hi
    rw [hcur]
    rcases hready idlePage (h.boot (hidle ▸ hi)) with he | hm
    · exact .inr he.symm
    · exact .inl hm

/-- The page of a thread that has ended is in no list, and goes. -/
theorem Switched.free (h : Switched s) {p : ℕ} (hp : s.status p = some .dying)
    (hd : ∀ t, s.status t = some .dying → t = initialThread ∨ t = p) :
    Running (s.free p) := by
  have hst : ∀ u, u ≠ p → (s.free p).status u = s.status u := fun u hu => by
    simp [St.status, St.free, Function.update_of_ne hu]
  have hnone : (s.free p).status p = none := by simp [St.status, St.free]
  have hq : (s.free p).queue = s.queue := by
    funext q
    cases q <;> rfl
  have hne : ∀ {u y}, (s.free p).status u = some y → u ≠ p := by
    rintro u y hu rfl
    rw [hnone] at hu
    cases hu
  have hold : ∀ {u y}, (s.free p).status u = some y → s.status u = some y := by
    intro u y hu
    rwa [hst u (hne hu)] at hu
  have halive : ∀ {u y}, y ≠ .dying → s.status u = some y → (s.free p).status u = some y := by
    intro u y hy hu
    rw [hst u ?_]
    · exact hu
    · rintro rfl
      exact hy (Option.some.inj (hu.symm.trans hp))
  refine ⟨⟨h.ok, ⟨?_, ?_, ?_, h.core.all_nodup, ?_⟩, ?_, ?_, ?_, ?_, ?_, h.boot⟩, ?_⟩
  · rw [hq]; exact h.core.nodup
  · rw [hq]; exact h.core.unique
  · intro q u hu
    rw [hq] at hu
    exact halive (by cases q <;> simp [Queue.status]) (h.core.status q u hu)
  · intro u
    change u ∈ s.allList ↔ _
    rw [h.core.all u]
    by_cases hu : u = p
    · subst hu
      simp [hp, hnone]
    · rw [hst u hu]
  · exact halive (by simp) h.cur
  · exact fun t ht => h.running t (hold ht)
  · exact fun t ht hi => h.ready t (hold ht) hi
  · intro i hi
    obtain ⟨hip, hu⟩ := h.idle i hi
    exact ⟨hip, fun q hm => hu q (by rwa [hq] at hm)⟩
  · obtain ⟨y, hy, hyd⟩ := h.idle_alive
    exact ⟨y, halive hyd hy, hyd⟩
  · exact fun t ht => (hd t (hold ht)).resolve_right (hne ht)

/-- **`schedule` puts a thread on the CPU.** -/
theorem Off.running_schedule (h : Off s) : Running (schedule s) := by
  obtain ⟨n, x, hn, hx, -, -⟩ := h.next
  obtain ⟨prev, hprev⟩ : ∃ prev, s.threads s.cur = some prev := by
    have hc := h.cur
    cases hp : s.threads s.cur with
    | none => simp [St.status, hp] at hc
    | some prev => exact ⟨prev, rfl⟩
  have hpst : s.status s.cur = some prev.status := by simp [St.status, hprev]
  have hprun : prev.status ≠ .running := fun he => h.running s.cur (by rw [hpst, he])
  have hnn : s.threads n ≠ none := by
    intro he
    simp [St.status, he] at hx
  obtain ⟨hsw, hst⟩ := h.dispatch hn _ rfl
  have hdying : ∀ t, (Threads.dispatch s n (nextThreadToRun s).2).status t = some .dying →
      t ≠ n ∧ s.status t = some .dying := by
    intro t ht
    rw [hst] at ht
    by_cases htn : t = n
    · subst htn
      simp at ht
    · rw [Function.update_of_ne htn] at ht
      exact ⟨htn, ht⟩
  rw [schedule_eq hprev hn hprun hnn]
  by_cases hfree : s.cur ≠ n ∧ prev.status = .dying ∧ s.cur ≠ initialThread
  · rw [if_pos hfree]
    obtain ⟨hcn, hdy, -⟩ := hfree
    have hp : (Threads.dispatch s n (nextThreadToRun s).2).status s.cur = some .dying := by
      rw [hst, Function.update_of_ne hcn, hpst, hdy]
    exact hsw.free hp fun t ht => h.dying t (hdying t ht).2
  · rw [if_neg hfree]
    refine ⟨hsw, fun t ht => ?_⟩
    obtain ⟨htn, ht⟩ := hdying t ht
    rcases h.dying t ht with hti | rfl
    · exact hti
    · -- an ended thread whose page stays is the initial thread
      by_contra hti
      exact hfree ⟨htn, Option.some.inj (hpst.symm.trans ht), hti⟩

theorem Off.schedule (h : Off s) : Running (schedule s) ∧ Keeps (fun _ => False) s (schedule s) :=
  ⟨h.running_schedule, keeps_schedule h.running_schedule.ok⟩

theorem insertReady_status {x : Status} (hx : s.status t = some x) :
    (insertReady s t).status = Function.update s.status t (some .ready) :=
  status_set hx fun _ => rfl

theorem insertReady_queue : (insertReady s t).queue =
    Function.update s.queue .ready (listInsertOrdered (priorityGreater s) t s.readyList) := by
  funext q
  cases q <;> rfl

theorem insertReady_conts : (insertReady s t).conts = s.conts := conts_upd fun _ => rfl

/-- Being in no list but `ready_list` is not affected by an insertion there. -/
theorem unlisted_insertReady {c : ℕ} (hc : c ≠ t) (hu : Unlisted s c) :
    Unlisted (insertReady s t) c := by
  intro q hq
  rw [insertReady_queue] at hq
  by_cases hqr : q = .ready
  · subst hqr
    rw [Function.update_self, mem_listInsertOrdered] at hq
    exact hu .ready (hq.resolve_left hc)
  · rw [Function.update_of_ne hqr] at hq
    exact hu q hq

/-- **`thread_unblock`** of a blocked thread in no list. -/
theorem Running.threadUnblock (h : Running s) (hb : s.status t = some .blocked)
    (hu : Unlisted s t) (hi : s.idleThread ≠ some t) :
    Running (threadUnblock s t) ∧ Keeps (· = t) s (threadUnblock s t) := by
  have heq : Threads.threadUnblock s t = insertReady s t := if_pos hb
  have hst := insertReady_status hb
  have hcore : Core (insertReady s t) :=
    h.core.place hu hb (by simp) (q := .ready) (perm_listInsertOrdered t s.readyList) hst
      insertReady_queue rfl
  have hct : s.cur ≠ t := by
    rintro rfl
    rw [h.cur] at hb
    cases hb
  have hmem : ∀ u, u ∈ s.readyList → u ∈ (insertReady s t).readyList := fun u hu =>
    mem_listInsertOrdered.mpr (.inr hu)
  rw [heq]
  refine ⟨⟨⟨h.ok, hcore, ?_, ?_, ?_, ?_, ?_, ?_⟩, ?_⟩, ?_, rfl, ?_, ?_, ?_, rfl⟩
  · rw [hst]
    exact (Function.update_of_ne hct _ _).trans h.cur
  · intro u hr
    rw [hst] at hr
    by_cases hut : u = t
    · subst hut
      simp at hr
    · rw [Function.update_of_ne hut] at hr
      exact h.running u hr
  · intro u hr hiu
    by_cases hut : u = t
    · exact mem_listInsertOrdered.mpr (.inl hut)
    · rw [hst, Function.update_of_ne hut] at hr
      exact hmem u (h.ready u hr hiu)
  · intro i hii
    obtain ⟨hp, hui⟩ := h.idle i hii
    exact ⟨hp, unlisted_insertReady (by rintro rfl; exact hi hii) hui⟩
  · obtain ⟨x, hx, hxd⟩ := h.idle_alive
    rw [hst]
    by_cases hit : idlePage = t
    · exact ⟨.ready, by rw [hit, Function.update_self], by simp⟩
    · exact ⟨x, by rw [Function.update_of_ne hit]; exact hx, hxd⟩
  · intro hin
    rcases h.boot hin with hm | hc
    · exact .inl (hmem _ hm)
    · exact .inr hc
  · intro u hr
    rw [hst] at hr
    by_cases hut : u = t
    · subst hut
      simp at hr
    · rw [Function.update_of_ne hut] at hr
      exact h.dying u hr
  · intro u l hl
    rwa [insertReady_conts] at hl
  · intro x u hm
    rw [insertReady_queue] at hm
    exact hm
  · intro c hc _ hcb hcu
    refine ⟨?_, unlisted_insertReady hc hcu⟩
    rw [hst, Function.update_of_ne hc]
    exact hcb
  · intro c hc
    rw [hst] at hc
    by_cases hct : c = t
    · subst hct
      simp at hc
    · rw [Function.update_of_ne hct] at hc
      exact ⟨hc, hct⟩

/-- The caller gives up the CPU: it is in no list and not `THREAD_RUNNING`, or in a list that goes
with its new status. -/
theorem Running.off (h : Running s) {y : Status} (hy : y ≠ .running) (hok : s'.panicked = false)
    (hcore : Core s') (hcur : s'.cur = s.cur)
    (hst : s'.status = Function.update s.status s.cur (some y))
    (hidle : s'.idleThread = s.idleThread)
    (hready : ∀ u, u ∈ s.readyList → u ∈ s'.readyList)
    (hself : y = .ready → s.idleThread ≠ some s.cur → s.cur ∈ s'.readyList)
    (hun : ∀ i, s.idleThread = some i → Unlisted s i → Unlisted s' i)
    (hend : y = .dying → s.cur ≠ idlePage)
    (hboot : s.idleThread = none → s.cur = idlePage → s.cur ∈ s'.readyList) : Off s' where
  ok := hok
  core := hcore
  cur := by rw [hst, hcur, Function.update_self]; simp
  running := by
    intro u hu
    rw [hst] at hu
    by_cases huc : u = s.cur
    · subst huc
      rw [Function.update_self] at hu
      exact hy (Option.some.inj hu)
    · rw [Function.update_of_ne huc] at hu
      exact huc (h.running u hu)
  ready := by
    intro u hu hi
    rw [hidle] at hi
    by_cases huc : u = s.cur
    · rw [hst, huc, Function.update_self] at hu
      rw [huc] at hi ⊢
      exact hself (Option.some.inj hu) hi
    · rw [hst, Function.update_of_ne huc] at hu
      exact hready u (h.ready u hu hi)
  dying := by
    intro u hu
    rw [hcur]
    by_cases huc : u = s.cur
    · exact .inr huc
    · rw [hst, Function.update_of_ne huc] at hu
      exact .inl (h.dying u hu)
  idle := by
    intro i hi
    rw [hidle] at hi
    obtain ⟨hp, hu⟩ := h.idle i hi
    exact ⟨hp, hun i hi hu⟩
  idle_alive := by
    obtain ⟨x, hx, hxd⟩ := h.idle_alive
    rw [hst]
    by_cases hic : idlePage = s.cur
    · exact ⟨y, by rw [hic, Function.update_self], fun he => hend he hic.symm⟩
    · exact ⟨x, by rw [Function.update_of_ne hic]; exact hx, hxd⟩
  boot := by
    intro hi
    rw [hidle] at hi
    rcases h.boot hi with hm | hc
    · exact hready _ hm
    · have hb := hboot hi hc
      rwa [hc] at hb

/-- A change of the status of the thread on the CPU spares all others. -/
theorem keeps_of_cur {y : Status} (hcur : s.status s.cur = some .running) (hy : y ≠ .blocked)
    (hst : s'.status = Function.update s.status s.cur (some y)) (hconts : s'.conts = s.conts)
    (hidle : s'.idleThread = s.idleThread) (hmlfqs : s'.mlfqs = s.mlfqs)
    (hw : ∀ x t, t ∈ s'.queue (.waiters x) → t ∈ s.queue (.waiters x))
    (hun : ∀ c, c ≠ s.cur → Unlisted s c → Unlisted s' c) : Keeps (fun _ => False) s s' := by
  refine ⟨fun t l hl => ?_, hidle, hw, fun c _ _ hb hu => ?_, fun c hc => ⟨?_, id⟩, hmlfqs⟩
  · rwa [hconts] at hl
  · have hcc : c ≠ s.cur := by
      rintro rfl
      rw [hcur] at hb
      cases hb
    refine ⟨?_, hun c hcc hu⟩
    rw [hst, Function.update_of_ne hcc]
    exact hb
  · rw [hst] at hc
    by_cases hcc : c = s.cur
    · subst hcc
      rw [Function.update_self] at hc
      exact absurd (Option.some.inj hc) hy
    · rwa [Function.update_of_ne hcc] at hc

/-- **`thread_yield`.** -/
theorem Running.threadYield (h : Running s) :
    Running (threadYield s) ∧ Keeps (fun _ => False) s (threadYield s) := by
  unfold Threads.threadYield
  by_cases hi : s.idleThread = some s.cur
  · -- the idle thread becomes ready outside of `ready_list`
    rw [if_pos hi]
    have hst : (s.setStatus s.cur .ready).status = Function.update s.status s.cur (some .ready) :=
      status_set h.cur fun _ => rfl
    have hoff : Off (s.setStatus s.cur .ready) := by
      refine h.off (by simp) h.ok ?_ rfl hst rfl (fun _ hu => hu) (fun _ hn => absurd hi hn) ?_
        (by simp) (fun hn => absurd (hn.symm.trans hi) (by simp))
      · exact h.core.restatus h.cur_unlisted h.cur (by simp) (by simp) hst queue_upd rfl
      · exact fun i _ hu q hq => hu q hq
    obtain ⟨hrun, hk⟩ := hoff.schedule
    refine ⟨hrun, (keeps_of_cur h.cur (by simp) hst (conts_upd fun _ => rfl) rfl rfl ?_ ?_).trans hk⟩
    · exact fun x t ht => ht
    · exact fun c _ hu q hq => hu q hq
  · rw [if_neg hi]
    have hst := insertReady_status h.cur
    have hoff : Off (insertReady s s.cur) := by
      refine h.off (by simp) h.ok ?_ rfl hst rfl (fun u hu => mem_listInsertOrdered.mpr (.inr hu))
        (fun _ _ => mem_listInsertOrdered.mpr (.inl rfl)) ?_ (by simp)
        (fun _ _ => mem_listInsertOrdered.mpr (.inl rfl))
      · exact h.core.place h.cur_unlisted h.cur (by simp) (q := .ready)
          (perm_listInsertOrdered s.cur s.readyList) hst insertReady_queue rfl
      · intro i hii hu
        exact unlisted_insertReady (by rintro rfl; exact hi hii) hu
    obtain ⟨hrun, hk⟩ := hoff.schedule
    refine ⟨hrun, (keeps_of_cur h.cur (by simp) hst insertReady_conts rfl rfl ?_ ?_).trans hk⟩
    · intro x t ht
      rwa [insertReady_queue] at ht
    · exact fun c hc hu => unlisted_insertReady hc hu

/-- **`thread_block`**, after the caller was put into the queue `q`, if into any. -/
theorem Running.threadBlock (h : Running s) (hboot : s.idleThread = none → s.cur ≠ idlePage)
    (hsame : s'.status = s.status) (hcur : s'.cur = s.cur) (hidle : s'.idleThread = s.idleThread)
    (hall : s'.allList = s.allList) (hok : s'.panicked = s.panicked)
    (hready : s'.readyList = s.readyList)
    (hq : s'.queue = s.queue ∨ s.idleThread ≠ some s.cur ∧ ∃ q l, q.status = .blocked ∧
      l.Perm (s.cur :: s.queue q) ∧ s'.queue = Function.update s.queue q l) :
    Running (threadBlock s') ∧
      Keeps (fun _ => False) (s'.setStatus s'.cur .blocked) (threadBlock s') := by
  have hst : (s'.setStatus s'.cur .blocked).status =
      Function.update s.status s.cur (some .blocked) := by
    rw [← hsame, ← hcur]
    exact status_set (by rw [hsame, hcur]; exact h.cur) fun _ => rfl
  have hqueue : (s'.setStatus s'.cur .blocked).queue = s'.queue := queue_upd
  have hoff : Off (s'.setStatus s'.cur .blocked) := by
    refine h.off (by simp) (hok.trans h.ok) ?_ hcur hst hidle (fun u hu => ?_) (by simp) ?_ (by simp)
      (fun hi hc => absurd hc (hboot hi))
    · rcases hq with hq | ⟨-, q, l, hqb, hl, hq⟩
      · exact h.core.restatus h.cur_unlisted h.cur (by simp) (by simp) hst (hqueue.trans hq) hall
      · refine h.core.place h.cur_unlisted h.cur (by simp) hl ?_ (hqueue.trans hq) hall
        rw [hst, hqb]
    · change u ∈ s'.readyList
      rwa [hready]
    · intro i hi hu q' hq'
      rw [hqueue] at hq'
      rcases hq with hq | ⟨hic, q, l, -, hl, hq⟩
      · rw [hq] at hq'
        exact hu q' hq'
      · rw [hq] at hq'
        by_cases hqq : q' = q
        · subst hqq
          rw [Function.update_self, hl.mem_iff] at hq'
          rcases List.mem_cons.mp hq' with rfl | hq'
          · exact hic hi
          · exact hu q' hq'
        · rw [Function.update_of_ne hqq] at hq'
          exact hu q' hq'
  exact hoff.schedule

/-- **`thread_exit`** of any thread but the idle thread. -/
theorem Running.threadExit (h : Running s) (hc : s.cur ≠ idlePage) :
    Running (threadExit s) ∧ Keeps (fun _ => False) s (threadExit s) := by
  unfold Threads.threadExit
  have hst : ({ s with allList := s.allList.erase s.cur }.setStatus s.cur .dying).status =
      Function.update s.status s.cur (some .dying) := status_set h.cur fun _ => rfl
  have hun := h.cur_unlisted
  have hcore : Core ({ s with allList := s.allList.erase s.cur }.setStatus s.cur .dying) := by
    refine ⟨h.core.nodup, h.core.unique, ?_, h.core.all_nodup.erase _, ?_⟩
    · intro q u hu
      rw [hst, Function.update_of_ne (by rintro rfl; exact hun q hu)]
      exact h.core.status q u hu
    · intro u
      change u ∈ s.allList.erase s.cur ↔ _
      rw [h.core.all_nodup.mem_erase_iff, h.core.all u, hst]
      by_cases hu : u = s.cur
      · subst hu
        simp
      · rw [Function.update_of_ne hu]
        simp [hu]
  have hoff : Off ({ s with allList := s.allList.erase s.cur }.setStatus s.cur .dying) :=
    h.off (by simp) h.ok hcore rfl hst rfl (fun _ hu => hu) (by simp) (fun _ _ hu => hu)
      (fun _ => hc) (fun _ he => absurd he hc)
  obtain ⟨hrun, hk⟩ := hoff.schedule
  exact ⟨hrun, (keeps_of_cur h.cur (by simp) hst (conts_upd fun _ => rfl) rfl rfl (fun _ _ ht => ht)
    (fun _ _ hu => hu)).trans hk⟩

/-- A thread at the front of a queue of blocked threads is taken off and unblocked. -/
theorem Running.popUnblock (h : Running s) (d : St) {q : Queue} {l : List ℕ} (hqb : q.status = .blocked)
    (hl : s.queue q = t :: l) (hst : d.status = s.status)
    (hq : d.queue = Function.update s.queue q l) (hconts : d.conts = s.conts)
    (hall : d.allList = s.allList) (hidle : d.idleThread = s.idleThread) (hcur : d.cur = s.cur)
    (hok : d.panicked = s.panicked) (hmlfqs : d.mlfqs = s.mlfqs) :
    Running (Threads.threadUnblock d t) ∧
      Keeps (fun _ => False) s (Threads.threadUnblock d t) := by
  have htq : t ∈ s.queue q := hl ▸ List.mem_cons_self
  have htb : s.status t = some .blocked := by rw [h.core.status q t htq, hqb]
  have hst' : d.status = Function.update s.status t (some .blocked) := by
    rw [hst, eq_comm, Function.update_eq_self_iff]
    exact htb.symm
  obtain ⟨hcore, hu⟩ := h.core.pop hl (by simp) hst' hq hall
  have hready : d.readyList = s.readyList := by
    have hr := congrFun hq .ready
    rwa [Function.update_of_ne (by rintro rfl; cases hqb)] at hr
  have hsub : ∀ q' u, u ∈ d.queue q' → u ∈ s.queue q' := by
    intro q' u huq
    rw [hq] at huq
    by_cases hqq : q' = q
    · subst hqq
      rw [Function.update_self] at huq
      exact hl ▸ List.mem_cons_of_mem _ huq
    · rwa [Function.update_of_ne hqq] at huq
  have hti : s.idleThread ≠ some t := fun hi => (h.idle t hi).2 q htq
  have hrun : Running d := by
    refine ⟨⟨hok.trans h.ok, hcore, ?_, ?_, ?_, ?_, ?_, ?_⟩, hst ▸ h.dying⟩
    · rw [hst, hcur]; exact h.cur
    · rw [hst, hcur]; exact h.running
    · rw [hst, hidle, hready]; exact h.ready
    · intro i hi
      obtain ⟨hp, hui⟩ := h.idle i (hidle ▸ hi)
      exact ⟨hp, fun q' hq' => hui q' (hsub q' i hq')⟩
    · rw [hst]; exact h.idle_alive
    · rw [hidle, hready, hcur]; exact h.boot
  obtain ⟨hrun', hk⟩ := hrun.threadUnblock (by rw [hst]; exact htb) hu (by rw [hidle]; exact hti)
  refine ⟨hrun', ?_, ?_, ?_, ?_, fun c hc => ⟨?_, id⟩, hk.mlfqs.trans hmlfqs⟩
  · intro u k hk'
    rw [← hconts]
    exact hk.conts u k hk'
  · exact hk.idleThread.trans hidle
  · exact fun x u hu => hsub _ u (hk.waiters x u hu)
  · intro c _ hci hcb hcu
    have hct : c ≠ t := by rintro rfl; exact hcu q htq
    exact hk.spared c hct (by rw [hidle]; exact hci) (by rw [hst]; exact hcb)
      fun q' hq' => hcu q' (hsub q' c hq')
  · rw [← hst]
    exact (hk.blocked c hc).1

/-- Writing the value of a semaphore touches no list. -/
theorem same_setSema {x : Sema} {v : Semaphore} (hv : v.waiters = (s.sema x).waiters) :
    Same s (s.setSema x v) := by
  refine ⟨rfl, ?_, rfl, rfl, rfl, rfl, rfl, rfl⟩
  rw [queue_setSema, Function.update_eq_self_iff]
  exact hv

/-- **`sema_up`**, from a thread or from an interrupt handler. -/
theorem Running.semaUp (h : Running s) (x : Sema) :
    Running (semaUp s x) ∧ Keeps (fun _ => False) s (semaUp s x) := by
  unfold Threads.semaUp
  cases hw : (s.sema x).waiters with
  | nil =>
    have hs : Same s (s.setSema x { s.sema x with value := (s.sema x).value + 1 }) :=
      same_setSema rfl
    exact ⟨h.same hs, hs.keeps⟩
  | cons t l =>
    obtain ⟨hrun, hk⟩ := h.popUnblock (s.setSema x { s.sema x with waiters := l })
      (q := .waiters x) rfl hw rfl queue_setSema rfl rfl rfl rfl rfl rfl
    have hs : ∀ d : St, Same d (d.setSema x { d.sema x with value := (d.sema x).value + 1 }) :=
      fun d => same_setSema rfl
    exact ⟨hrun.same (hs _), hk.trans (hs _).keeps⟩

/-- The loop of `thread_wake_up`. The induction is on `Sleep_list`, which loses its front in each
turn. -/
theorem Running.wakeUpLoop (l : List ℕ) : ∀ {s : St}, Running s → s.sleepList = l →
    Running (wakeUpLoop l s) ∧ Keeps (fun _ => False) s (wakeUpLoop l s) := by
  induction l with
  | nil => exact fun h _ => ⟨h, (Same.refl _).keeps⟩
  | cons t l ih =>
    intro s h hl
    rw [Threads.wakeUpLoop]
    split
    · exact ⟨h, (Same.refl s).keeps⟩
    · have hq : ({ s with sleepList := l } : St).queue = Function.update s.queue .sleep l := by
        funext q
        cases q <;> rfl
      obtain ⟨hrun, hk⟩ := h.popUnblock { s with sleepList := l } (q := .sleep) rfl hl rfl hq rfl rfl rfl rfl
        rfl rfl
      have hsleep : (Threads.threadUnblock { s with sleepList := l } t).sleepList = l := by
        unfold Threads.threadUnblock
        split <;> rfl
      obtain ⟨hrun', hk'⟩ := ih hrun hsleep
      exact ⟨hrun', hk.trans hk'⟩

theorem same_checkPreemptIntr : Same s (checkPreemptIntr s) := by
  unfold checkPreemptIntr
  split
  · exact ⟨rfl, rfl, rfl, rfl, rfl, rfl, rfl, rfl⟩
  · exact Same.refl s

theorem same_setPrio {p : ℤ} : Same s (s.setPrio t p) := Same.upd (fun _ => rfl) fun _ => rfl

theorem same_threadCalcPriority : Same s (threadCalcPriority s t) := by
  unfold threadCalcPriority
  split
  · exact same_setPrio
  · exact Same.refl s

theorem same_threadUpdatePriority : Same s (threadUpdatePriority s t) := by
  unfold threadUpdatePriority
  split
  · exact Same.refl s
  · exact same_threadCalcPriority

/-- **`thread_wake_up`.** -/
theorem Running.threadWakeUp (h : Running s) :
    Running (threadWakeUp s) ∧ Keeps (fun _ => False) s (threadWakeUp s) := by
  obtain ⟨hrun, hk⟩ := Running.wakeUpLoop s.sleepList h rfl
  exact ⟨hrun.same same_checkPreemptIntr, hk.trans same_checkPreemptIntr.keeps⟩

theorem same_threadAging : Same s (threadAging s) := by
  refine (Same.foldl (fun s t => ?_) s.readyList).trans same_checkPreemptIntr
  unfold ageThread
  split
  · exact same_setPrio
  · exact Same.refl s

theorem same_mlfqsSecond : Same s (mlfqsSecond s) := by
  have hload : ∀ x : ℤ, Same s { s with loadAvg := x } := fun x =>
    ⟨rfl, rfl, rfl, rfl, rfl, rfl, rfl, rfl⟩
  have hcpu : ∀ d t, Same d (threadUpdateRecentCpu d t) := fun d t =>
    Same.upd (fun _ => rfl) fun _ => rfl
  exact (hload _).trans (Same.foldl hcpu s.allList)

/-- Another order of `ready_list`. -/
theorem Running.reorder (h : Running s) {l : List ℕ} (hl : l.Perm s.readyList) :
    Running { s with readyList := l } ∧ Keeps (fun _ => False) s { s with readyList := l } := by
  have hq : ({ s with readyList := l } : St).queue = Function.update s.queue .ready l := by
    funext q
    cases q <;> rfl
  have hu : ∀ c, Unlisted s c → Unlisted { s with readyList := l } c := by
    intro c hc q hm
    rw [hq] at hm
    by_cases hqr : q = .ready
    · subst hqr
      rw [Function.update_self, hl.mem_iff] at hm
      exact hc .ready hm
    · rw [Function.update_of_ne hqr] at hm
      exact hc q hm
  refine ⟨⟨⟨h.ok, h.core.reorder (q := .ready) hl rfl hq rfl, h.cur, h.running, ?_, ?_,
    h.idle_alive, ?_⟩, h.dying⟩, fun _ _ hk => hk, rfl, fun _ _ hm => hm, fun c _ _ hb hc => ⟨hb, hu c hc⟩,
    fun c hc => ⟨hc, id⟩, rfl⟩
  · exact fun t ht hi => hl.mem_iff.mpr (h.ready t ht hi)
  · intro i hi
    obtain ⟨hp, hui⟩ := h.idle i hi
    exact ⟨hp, hu i hui⟩
  · intro hi
    rcases h.boot hi with hm | hc
    · exact .inl (hl.mem_iff.mpr hm)
    · exact .inr hc

/-- The sort of `ready_list` in `thread_mlfqs_tick`. -/
theorem Running.mlfqsSort (h : Running s) :
    Running (mlfqsSort s) ∧ Keeps (fun _ => False) s (mlfqsSort s) := by
  have hs : Same s (threadForeach threadUpdatePriority s) :=
    Same.foldl (fun s t => same_threadUpdatePriority) s.allList
  have hperm : (listSort (priorityGreater (threadForeach threadUpdatePriority s))
      (threadForeach threadUpdatePriority s).readyList).Perm
      (threadForeach threadUpdatePriority s).readyList := perm_listSort _
  obtain ⟨hrun, hk⟩ := (h.same hs).reorder hperm
  exact ⟨hrun, hs.keeps.trans hk⟩

/-- What every part of `thread_mlfqs_tick` keeps, it keeps. -/
theorem threadMlfqsTick_rule {P : St → Prop} (h : P s)
    (hcpu : ∀ d, P d → P (d.upd d.cur fun r => { r with recentCpu := fpAddInt r.recentCpu 1 }))
    (hsecond : ∀ d, P d → P (mlfqsSecond d))
    (hsort : ∀ d, P d → P (checkPreemptIntr (mlfqsSort d))) : P (threadMlfqsTick s) := by
  unfold threadMlfqsTick
  have hs₁ : P (if s.idleThread = some s.cur then s
      else s.upd s.cur fun r => { r with recentCpu := fpAddInt r.recentCpu 1 }) := by
    split
    · exact h
    · exact hcpu s h
  generalize (if s.idleThread = some s.cur then s
    else s.upd s.cur fun r => { r with recentCpu := fpAddInt r.recentCpu 1 }) = s₁ at hs₁
  have hs₂ : P (if s₁.ticks % timerFreq = 0 then mlfqsSecond s₁ else s₁) := by
    split
    · exact hsecond s₁ hs₁
    · exact hs₁
  dsimp only
  generalize (if s₁.ticks % timerFreq = 0 then mlfqsSecond s₁ else s₁) = s₂ at hs₂
  split
  · exact hsort s₂ hs₂
  · exact hs₂

/-- What the counting and the time slice keep and `thread_wake_up` turns into something that the
rest of the timer interrupt keeps. -/
theorem timerInterrupt_rule {P Q : St → Prop}
    (h : P { s with ticks := s.ticks + 1, threadTicks := s.threadTicks + 1 })
    (hslice : ∀ d, P d → P { d with yieldOnReturn := true })
    (hwake : ∀ d, P d → Q (threadWakeUp d))
    (haging : ∀ d, Q d → d.aging = true → Q (threadAging d))
    (hmlfqs : ∀ d, Q d → d.mlfqs = true → Q (threadMlfqsTick d)) : Q (timerInterrupt s) := by
  have hs₁ : ∀ d : St, P d → P (if timeSlice ≤ d.threadTicks then { d with yieldOnReturn := true }
      else d) := by
    intro d hd
    split
    · exact hslice d hd
    · exact hd
  have hs₂ := hwake _ (hs₁ _ h)
  have hs₃ : ∀ d : St, Q d → Q (if d.aging then threadAging d else d) := by
    intro d hd
    split
    · next ha => exact haging d hd ha
    · exact hd
  have hs₄ : ∀ d : St, Q d → Q (if d.mlfqs then threadMlfqsTick d else d) := by
    intro d hd
    split
    · next hm => exact hmlfqs d hd hm
    · exact hd
  exact hs₄ _ (hs₃ _ hs₂)

/-- **`thread_mlfqs_tick`.** -/
theorem Running.threadMlfqsTick (h : Running s) :
    Running (threadMlfqsTick s) ∧ Keeps (fun _ => False) s (threadMlfqsTick s) := by
  refine threadMlfqsTick_rule (P := fun d => Running d ∧ Keeps (fun _ => False) s d)
    ⟨h, (Same.refl s).keeps⟩ ?_ ?_ ?_
  · rintro d ⟨hd, hk⟩
    have hs : Same d (d.upd d.cur fun r => { r with recentCpu := fpAddInt r.recentCpu 1 }) :=
      Same.upd (fun _ => rfl) fun _ => rfl
    exact ⟨hd.same hs, hk.trans hs.keeps⟩
  · rintro d ⟨hd, hk⟩
    exact ⟨hd.same same_mlfqsSecond, hk.trans same_mlfqsSecond.keeps⟩
  · rintro d ⟨hd, hk⟩
    obtain ⟨hrun, hk'⟩ := hd.mlfqsSort
    exact ⟨hrun.same same_checkPreemptIntr, (hk.trans hk').trans same_checkPreemptIntr.keeps⟩

/-- **The timer interrupt.** -/
theorem Running.timerInterrupt (h : Running s) :
    Running (timerInterrupt s) ∧ Keeps (fun _ => False) s (timerInterrupt s) := by
  have hcount : Same s { s with ticks := s.ticks + 1, threadTicks := s.threadTicks + 1 } :=
    ⟨rfl, rfl, rfl, rfl, rfl, rfl, rfl, rfl⟩
  refine timerInterrupt_rule (P := fun d => Running d ∧ Keeps (fun _ => False) s d)
    (Q := fun d => Running d ∧ Keeps (fun _ => False) s d) ⟨h.same hcount, hcount.keeps⟩ ?_ ?_ ?_ ?_
  · rintro d ⟨hd, hk⟩
    have hs : Same d { d with yieldOnReturn := true } := ⟨rfl, rfl, rfl, rfl, rfl, rfl, rfl, rfl⟩
    exact ⟨hd.same hs, hk.trans hs.keeps⟩
  · rintro d ⟨hd, hk⟩
    exact ⟨hd.threadWakeUp.1, hk.trans hd.threadWakeUp.2⟩
  · rintro d ⟨hd, hk⟩ -
    exact ⟨hd.same same_threadAging, hk.trans same_threadAging.keeps⟩
  · rintro d ⟨hd, hk⟩ -
    exact ⟨hd.threadMlfqsTick.1, hk.trans hd.threadMlfqsTick.2⟩

/-- **An interrupt handler**, and the `thread_yield` that may follow it. -/
theorem Running.intrHandler {f : St → St}
    (hf : ∀ d : St, Same s d → Running (f d) ∧ Keeps D d (f d)) :
    Running (intrHandler f s) ∧ Keeps D s (intrHandler f s) := by
  unfold Threads.intrHandler
  have hs : Same s { s with yieldOnReturn := false } := ⟨rfl, rfl, rfl, rfl, rfl, rfl, rfl, rfl⟩
  obtain ⟨hrun, hk⟩ := hf _ hs
  replace hk := hs.trans_keeps hk
  dsimp only
  generalize f { s with yieldOnReturn := false } = d at hrun hk
  split
  · obtain ⟨hrun', hk'⟩ := hrun.threadYield
    exact ⟨hrun', hk.trans hk'⟩
  · exact ⟨hrun, hk⟩

end Running

end Threads
end Pintos

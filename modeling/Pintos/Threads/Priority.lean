import Pintos.Threads.Agreement

/-!
# Strict priority scheduling

`ready_list` is sorted by the priorities its threads have at the moment, in first-in first-out order
among those that were inserted with one priority and have kept it (`Order`). The head of the list is
then what `next_thread_to_run` should choose (`First`), and `thread_check_preempt` has only to look
at the head to see whether the running thread still has the highest priority (`Law`).

Between an operation that makes a thread ready or lowers the caller's priority and the
`thread_check_preempt` that follows it the law can fail. That every such operation remembers the
check is an invariant of what the threads still have to do (`Guarded`).

The main result is `strict_priority`.
-/

namespace Pintos
namespace Threads

/-- When the `elem` of `t` was last put into `ready_list`. -/
def St.stamp (s : St) (t : ℕ) : ℕ :=
  match s.threads t with
  | some r => r.stamp
  | none => 0

/-- The priority of `t` has changed since then. -/
def St.moved (s : St) (t : ℕ) : Bool :=
  match s.threads t with
  | some r => r.moved
  | none => false

/-- Everything the order of `ready_list` depends on. -/
def St.key (s : St) (t : ℕ) : ℤ × ℕ × Bool := (s.prio t, s.stamp t, s.moved t)

/-- Among threads of one priority that have kept it since they were inserted, the first one first. -/
def Fifo (s : St) (a b : ℕ) : Prop :=
  s.moved a = false → s.moved b = false → s.prio a = s.prio b → s.stamp a < s.stamp b

/-- `a` may be in front of `b` in `ready_list`. -/
structure Before (s : St) (a b : ℕ) : Prop where
  prio : s.prio b ≤ s.prio a
  fifo : Fifo s a b

structure Order (s : St) : Prop where
  sorted : s.readyList.Pairwise (Before s)
  stamps : ∀ t ∈ s.readyList, s.stamp t < s.clock
  ready : ∀ t ∈ s.readyList, s.status t = some .ready
  nodup : s.readyList.Nodup

/-- No ready thread has a higher priority than the running one. -/
def Law (s : St) : Prop := ∀ u ∈ s.readyList, s.prio u ≤ s.prio s.cur

/-- The running thread is the one to choose among itself and the ready threads. -/
def First (s : St) : Prop := ∀ u ∈ s.readyList, Before s s.cur u

theorem First.law {s : St} (h : First s) : Law s := fun u hu => (h u hu).prio

section Keys

variable {s s' : St} {t u a b : ℕ} {f : Thread → Thread}

theorem key_eq : s'.key t = s.key t ↔
    s'.prio t = s.prio t ∧ s'.stamp t = s.stamp t ∧ s'.moved t = s.moved t := by
  simp [St.key]

theorem key_of_threads (h : s'.threads t = s.threads t) : s'.key t = s.key t := by
  simp [St.key, St.prio, St.stamp, St.moved, h]

theorem key_upd_of_ne (h : u ≠ t) : (s.upd t f).key u = s.key u :=
  key_of_threads (Function.update_of_ne h _ _)

/-- A change of fields of a record other than those `ready_list` depends on. -/
theorem key_upd (hf : ∀ r, (f r).priority = r.priority ∧ (f r).stamp = r.stamp ∧
    (f r).moved = r.moved) : (s.upd t f).key = s.key := by
  funext u
  by_cases h : u = t
  · subst h
    cases hu : s.threads u with
    | none => simp [St.key, St.prio, St.stamp, St.moved, St.upd, hu]
    | some r => simp [St.key, St.prio, St.stamp, St.moved, St.upd, hu, hf r]
  · exact key_upd_of_ne h

theorem Before.congr (h : Before s a b) (ha : s'.key a = s.key a) (hb : s'.key b = s.key b) :
    Before s' a b := by
  obtain ⟨ha₁, ha₂, ha₃⟩ := key_eq.mp ha
  obtain ⟨hb₁, hb₂, hb₃⟩ := key_eq.mp hb
  refine ⟨?_, ?_⟩
  · rw [ha₁, hb₁]
    exact h.prio
  · unfold Fifo
    rw [ha₁, hb₁, ha₂, hb₂, ha₃, hb₃]
    exact h.fifo

theorem Order.congr (h : Order s) (hr : s'.readyList = s.readyList) (hc : s'.clock = s.clock)
    (hk : ∀ t ∈ s.readyList, s'.key t = s.key t)
    (hst : ∀ t ∈ s.readyList, s'.status t = s.status t) : Order s' := by
  refine ⟨?_, ?_, ?_, ?_⟩
  · rw [hr]
    exact h.sorted.imp_of_mem fun ha hb hab => hab.congr (hk _ ha) (hk _ hb)
  · intro t ht
    rw [hr] at ht
    rw [hc, (key_eq.mp (hk t ht)).2.1]
    exact h.stamps t ht
  · intro t ht
    rw [hr] at ht
    rw [hst t ht]
    exact h.ready t ht
  · rw [hr]
    exact h.nodup

end Keys

/-! ### Nothing happens to the order -/

/-- `s'` differs from `s` in nothing the order and the law speak of. -/
structure Quiet (s s' : St) : Prop where
  readyList : s'.readyList = s.readyList
  clock : s'.clock = s.clock
  cur : s'.cur = s.cur
  dispatches : s'.dispatches = s.dispatches
  yieldOnReturn : s'.yieldOnReturn = s.yieldOnReturn
  status : ∀ t ∈ s.readyList, s'.status t = s.status t
  key : ∀ t, t ∈ s.readyList ∨ t = s.cur → s'.key t = s.key t

section Quiet

variable {s s' s'' : St} {t : ℕ} {f : Thread → Thread}

theorem Quiet.refl (s : St) : Quiet s s := 
  ⟨rfl, rfl, rfl, rfl, rfl, fun _ _ => rfl, fun _ _ => rfl⟩

theorem Quiet.trans (h : Quiet s s') (h' : Quiet s' s'') : Quiet s s'' where
  readyList := h'.readyList.trans h.readyList
  clock := h'.clock.trans h.clock
  cur := h'.cur.trans h.cur
  dispatches := h'.dispatches.trans h.dispatches
  yieldOnReturn := h'.yieldOnReturn.trans h.yieldOnReturn
  status t ht := (h'.status t (by rw [h.readyList]; exact ht)).trans (h.status t ht)
  key t ht := (h'.key t (by rw [h.readyList, h.cur]; exact ht)).trans (h.key t ht)

theorem Quiet.upd (hst : ∀ r, (f r).status = r.status)
    (hf : ∀ r, (f r).priority = r.priority ∧ (f r).stamp = r.stamp ∧ (f r).moved = r.moved) :
    Quiet s (s.upd t f) :=
  ⟨rfl, rfl, rfl, rfl, rfl, fun u _ => congrFun (status_upd hst) u,
    fun u _ => congrFun (key_upd hf) u⟩

theorem Quiet.goOn (l : List Stmt) : Quiet s (s.goOn l) :=
  Quiet.upd (fun _ => rfl) fun _ => ⟨rfl, rfl, rfl⟩

/-- A change of fields outside of the records and of `ready_list`. -/
theorem Quiet.goOn_of {d : St} (ht : d.threads = s.threads) (hr : d.readyList = s.readyList)
    (hc : d.clock = s.clock) (hcur : d.cur = s.cur) (hd : d.dispatches = s.dispatches)
    (hy : d.yieldOnReturn = s.yieldOnReturn) (l : List Stmt) : Quiet s (d.goOn l) := by
  have hs : Quiet s d := by
    refine ⟨hr, hc, hcur, hd, hy, fun t _ => ?_, fun t _ => key_of_threads (by rw [ht])⟩
    simp [St.status, ht]
  exact hs.trans (Quiet.goOn l)

theorem Order.quiet (h : Order s) (hq : Quiet s s') : Order s' :=
  h.congr hq.readyList hq.clock (fun t ht => hq.key t (.inl ht)) hq.status

theorem Law.quiet (h : Law s) (hq : Quiet s s') : Law s' := by
  intro u hu
  rw [hq.readyList] at hu
  rw [hq.cur, (key_eq.mp (hq.key u (.inl hu))).1, (key_eq.mp (hq.key s.cur (.inr rfl))).1]
  exact h u hu

end Quiet

/-! ### Insertion and dispatch -/

section Order

variable {s s' : St} {t : ℕ}

theorem strictWeak_priorityGreater : StrictWeak (priorityGreater s) := strictWeak_of_key s.prio

/-- Lists sorted by priority, in the terms of `list_insert_ordered`. -/
theorem Order.sorted_priorityGreater (h : Order s) : Sorted (priorityGreater s) s.readyList :=
  h.sorted.imp fun hab => by simpa [priorityGreater] using hab.prio

theorem insertReady_key_of_ne {u : ℕ} (h : u ≠ t) : (insertReady s t).key u = s.key u :=
  key_of_threads (Function.update_of_ne h _ _)

theorem insertReady_prio {u : ℕ} : (insertReady s t).prio u = s.prio u := by
  by_cases h : u = t
  · subst h
    cases hu : s.threads u <;> simp [insertReady, St.prio, St.upd, hu]
  · exact (key_eq.mp (insertReady_key_of_ne h)).1

/-- **A thread that becomes ready goes behind those of its priority.** -/
theorem Order.insertReady (h : Order s) {x : Status} (hx : s.status t = some x)
    (ht : t ∉ s.readyList) : Order (insertReady s t) := by
  have hne : ∀ u ∈ s.readyList, u ≠ t := fun u hu he => ht (he ▸ hu)
  have hkey : ∀ u ∈ s.readyList, (Threads.insertReady s t).key u = s.key u := fun u hu =>
    insertReady_key_of_ne (hne u hu)
  have hstamp : (Threads.insertReady s t).stamp t = s.clock := by
    cases hu : s.threads t with
    | none => simp [St.status, hu] at hx
    | some r => simp [Threads.insertReady, St.stamp, St.upd, hu]
  have hmem : ∀ u, u ∈ (Threads.insertReady s t).readyList → u = t ∨ u ∈ s.readyList := fun u hu =>
    mem_listInsertOrdered.mp hu
  refine ⟨?_, ?_, ?_, ?_⟩
  · refine pairwise_listInsertOrdered strictWeak_priorityGreater h.sorted_priorityGreater ?_ ?_ ?_
    · exact h.sorted.imp_of_mem fun ha hb hab => hab.congr (hkey _ ha) (hkey _ hb)
    · intro e _ hlt
      simp only [priorityGreater, decide_eq_true_eq] at hlt
      refine ⟨?_, fun _ _ heq => ?_⟩
      · rw [insertReady_prio, insertReady_prio]
        omega
      · rw [insertReady_prio, insertReady_prio] at heq
        omega
    · intro e he hle
      simp only [priorityGreater, decide_eq_false_iff_not] at hle
      refine ⟨?_, fun _ _ _ => ?_⟩
      · rw [insertReady_prio, insertReady_prio]
        omega
      · -- the new `elem` has the latest stamp
        rw [hstamp, (key_eq.mp (hkey e he)).2.1]
        exact h.stamps e he
  · intro u hu
    change _ < s.clock + 1
    rcases hmem u hu with rfl | hu
    · rw [hstamp]
      omega
    · rw [(key_eq.mp (hkey u hu)).2.1]
      exact Nat.lt_succ_of_lt (h.stamps u hu)
  · intro u hu
    rw [insertReady_status hx]
    rcases hmem u hu with rfl | hu
    · exact Function.update_self ..
    · rw [Function.update_of_ne (hne u hu)]
      exact h.ready u hu
  · refine (perm_listInsertOrdered t s.readyList).nodup_iff.mpr ?_
    exact List.nodup_cons.mpr ⟨ht, h.nodup⟩

theorem Order.panic (h : Order s) : Order s.panic :=
  h.congr rfl rfl (fun _ _ => rfl) fun _ _ => rfl

theorem Order.threadUnblock (h : Order s) : Order (threadUnblock s t) := by
  unfold Threads.threadUnblock
  split
  · next hb =>
    refine h.insertReady hb fun ht => ?_
    rw [h.ready t ht] at hb
    cases hb
  · exact h.panic

/-- The head of `ready_list` is taken off it and becomes the running thread. -/
theorem Order.dispatch (h : Order s) {n : ℕ} (hn : (nextThreadToRun s).1 = some n) :
    Order (dispatch s n (nextThreadToRun s).2) ∧ First (dispatch s n (nextThreadToRun s).2) := by
  have hkey : (Threads.dispatch s n (nextThreadToRun s).2).key = s.key :=
    key_upd fun _ => ⟨rfl, rfl, rfl⟩
  have hst : ∀ u, u ≠ n → (Threads.dispatch s n (nextThreadToRun s).2).status u = s.status u :=
    fun u hu => status_upd_of_ne hu
  unfold nextThreadToRun at hn
  cases hr : s.readyList with
  | nil =>
    have hl : (Threads.dispatch s n (nextThreadToRun s).2).readyList = [] := by
      simp [Threads.dispatch, nextThreadToRun, hr, St.setStatus, St.upd]
    refine ⟨⟨?_, ?_, ?_, ?_⟩, ?_⟩
    · rw [hl]; exact List.Pairwise.nil
    all_goals simp [hl, First]
  | cons t l =>
    obtain rfl : t = n := by simpa [hr] using hn
    have hl : (Threads.dispatch s t (nextThreadToRun s).2).readyList = l := by
      simp [Threads.dispatch, nextThreadToRun, hr, St.setStatus, St.upd]
    have hsort := h.sorted
    have hnd := h.nodup
    rw [hr, List.pairwise_cons] at hsort
    rw [hr, List.nodup_cons] at hnd
    have hmem : ∀ u ∈ l, u ∈ s.readyList := fun u hu => hr ▸ List.mem_cons_of_mem t hu
    have hcongr : ∀ {a b}, Before s a b → Before (Threads.dispatch s t (nextThreadToRun s).2) a b :=
      fun hab => hab.congr (congrFun hkey _) (congrFun hkey _)
    refine ⟨⟨?_, ?_, ?_, ?_⟩, ?_⟩
    · rw [hl]
      exact hsort.2.imp hcongr
    · intro u hu
      rw [hl] at hu
      rw [(key_eq.mp (congrFun hkey u)).2.1]
      exact h.stamps u (hmem u hu)
    · intro u hu
      rw [hl] at hu
      rw [hst u fun he => hnd.1 (he ▸ hu)]
      exact h.ready u (hmem u hu)
    · rw [hl]
      exact hnd.2
    · intro u hu
      rw [hl] at hu
      exact hcongr (hsort.1 u hu)

/-- A page is freed that is neither the running thread's nor that of a ready one. -/
theorem Order.free (h : Order s) (hf : First s) (hst : s.status t = some .dying) (hc : s.cur ≠ t) :
    Order (s.free t) ∧ First (s.free t) := by
  have hne : ∀ u ∈ s.readyList, u ≠ t := by
    rintro u hu rfl
    rw [h.ready u hu] at hst
    cases hst
  have hkey : ∀ u, u ≠ t → (s.free t).key u = s.key u := fun u hu =>
    key_of_threads (Function.update_of_ne hu _ _)
  refine ⟨h.congr rfl rfl (fun u hu => hkey u (hne u hu)) fun u hu => ?_, fun u hu => ?_⟩
  · simp [St.status, St.free, Function.update_of_ne (hne u hu)]
  · exact (hf u hu).congr (hkey _ hc) (hkey u (hne u hu))

/-- **`schedule` chooses the first of the ready threads of maximal priority.** -/
theorem Order.schedule (h : Order s) (hok : (schedule s).panicked = false) :
    Order (schedule s) ∧ First (schedule s) := by
  obtain ⟨n, hn, heq | ⟨hne, heq, hdy⟩⟩ := schedule_cases hok
  · rw [heq]
    exact h.dispatch hn
  · obtain ⟨ho, hf⟩ := h.dispatch hn
    rw [heq]
    exact ho.free hf ((status_upd_of_ne hne).trans hdy) (Ne.symm hne)

/-- The running thread is not in `ready_list`. -/
theorem Order.cur_not_mem (h : Order s) (hcur : s.status s.cur = some .running) :
    s.cur ∉ s.readyList := by
  intro hm
  rw [h.ready _ hm] at hcur
  cases hcur

theorem Order.setStatus_cur (h : Order s) (hcur : s.status s.cur = some .running) (x : Status) :
    Order (s.setStatus s.cur x) := by
  have hkey : (s.setStatus s.cur x).key = s.key := key_upd fun _ => ⟨rfl, rfl, rfl⟩
  refine h.congr rfl rfl (fun u _ => congrFun hkey u) fun u hu => status_upd_of_ne ?_
  rintro rfl
  exact h.cur_not_mem hcur hu

theorem Order.threadYield (h : Order s) (hcur : s.status s.cur = some .running)
    (hok : (threadYield s).panicked = false) : Order (threadYield s) ∧ First (threadYield s) := by
  unfold Threads.threadYield at hok ⊢
  by_cases hi : s.idleThread = some s.cur
  · rw [if_pos hi] at hok ⊢
    exact (h.setStatus_cur hcur .ready).schedule hok
  · rw [if_neg hi] at hok ⊢
    exact (h.insertReady hcur (h.cur_not_mem hcur)).schedule hok

theorem Order.threadBlock (h : Order s) (hcur : s.status s.cur = some .running)
    (hok : (threadBlock s).panicked = false) : Order (threadBlock s) ∧ First (threadBlock s) :=
  (h.setStatus_cur hcur .blocked).schedule hok

theorem Order.threadExit (h : Order s) (hcur : s.status s.cur = some .running)
    (hok : (threadExit s).panicked = false) : Order (threadExit s) ∧ First (threadExit s) := by
  have hs : Order { s with allList := s.allList.erase s.cur } :=
    h.congr rfl rfl (fun _ _ => rfl) fun _ _ => rfl
  exact (hs.setStatus_cur hcur .dying).schedule hok

/-- What `thread_unblock` leaves alone. -/
theorem threadUnblock_frame : (threadUnblock s t).conts = s.conts ∧
    (threadUnblock s t).cur = s.cur ∧ (threadUnblock s t).dispatches = s.dispatches := by
  unfold threadUnblock
  split
  · exact ⟨insertReady_conts, rfl, rfl⟩
  · exact ⟨rfl, rfl, rfl⟩

theorem semaUp_frame {x : Sema} : (semaUp s x).conts = s.conts ∧
    (semaUp s x).cur = s.cur ∧ (semaUp s x).dispatches = s.dispatches := by
  unfold semaUp
  cases (s.sema x).waiters with
  | nil => exact ⟨rfl, rfl, rfl⟩
  | cons t l => exact threadUnblock_frame (s := s.setSema x { s.sema x with waiters := l })

theorem Order.setSema (h : Order s) {x : Sema} {v : Semaphore} : Order (s.setSema x v) :=
  h.congr rfl rfl (fun _ _ => rfl) fun _ _ => rfl

theorem Order.semaUp (h : Order s) {x : Sema} : Order (semaUp s x) := by
  unfold Threads.semaUp
  cases (s.sema x).waiters with
  | nil => exact h.setSema
  | cons t l => exact h.setSema.threadUnblock.setSema

/-! ### The timer interrupt -/

/-- The loop of `thread_wake_up`. -/
theorem Order.wakeUpLoop (l : List ℕ) : ∀ {s : St}, Order s →
    Order (wakeUpLoop l s) ∧ (wakeUpLoop l s).dispatches = s.dispatches := by
  induction l with
  | nil => exact fun h => ⟨h, rfl⟩
  | cons t l ih =>
    intro s h
    rw [Threads.wakeUpLoop]
    split
    · exact ⟨h, rfl⟩
    · have hs : Order { s with sleepList := l } := h.congr rfl rfl (fun _ _ => rfl) fun _ _ => rfl
      obtain ⟨ho, hd⟩ := ih (hs.threadUnblock (t := t))
      exact ⟨ho, hd.trans threadUnblock_frame.2.2⟩

/-- An interrupt handler is to yield, or need not. -/
structure Checked (s : St) : Prop where
  order : Order s
  law : s.yieldOnReturn = true ∨ Law s

theorem needYield_eq_false (h : Order s) (hn : needYield s = false) : Law s := by
  intro u hu
  unfold needYield at hn
  cases hr : s.readyList with
  | nil =>
    rw [hr] at hu
    exact absurd hu List.not_mem_nil
  | cons t l =>
    -- the head has the highest priority in the list
    have hsort := h.sorted
    rw [hr, List.pairwise_cons] at hsort
    simp only [hr, decide_eq_false_iff_not, Int.not_lt] at hn
    rw [hr] at hu
    rcases List.mem_cons.mp hu with rfl | hu
    · exact hn
    · exact Int.le_trans (hsort.1 u hu).prio hn

theorem Order.checkPreemptIntr (h : Order s) : Checked (checkPreemptIntr s) := by
  unfold Threads.checkPreemptIntr
  split
  · exact ⟨h.congr rfl rfl (fun _ _ => rfl) fun _ _ => rfl, .inl rfl⟩
  · next hn => exact ⟨h, .inr (needYield_eq_false h (Bool.eq_false_iff.mpr hn))⟩

theorem checkPreemptIntr_dispatches : (checkPreemptIntr s).dispatches = s.dispatches := by
  unfold checkPreemptIntr
  split <;> rfl

theorem Checked.quiet (h : Checked s) (hq : Quiet s s') : Checked s' :=
  ⟨h.order.quiet hq, h.law.imp (fun hy => hq.yieldOnReturn.trans hy) fun hl => hl.quiet hq⟩

end Order

/-- Priorities change, and who has a changed one has moved. -/
structure Evolves (s s' : St) : Prop where
  readyList : s'.readyList = s.readyList
  allList : s'.allList = s.allList
  clock : s'.clock = s.clock
  dispatches : s'.dispatches = s.dispatches
  status : s'.status = s.status
  stamp : s'.stamp = s.stamp
  moved : ∀ t, s'.moved t = false → s.moved t = false ∧ s'.prio t = s.prio t

section Evolves

variable {s s' s'' : St} {t : ℕ}

theorem Evolves.refl (s : St) : Evolves s s := ⟨rfl, rfl, rfl, rfl, rfl, rfl, fun _ h => ⟨h, rfl⟩⟩

theorem Evolves.trans (h : Evolves s s') (h' : Evolves s' s'') : Evolves s s'' where
  readyList := h'.readyList.trans h.readyList
  allList := h'.allList.trans h.allList
  clock := h'.clock.trans h.clock
  dispatches := h'.dispatches.trans h.dispatches
  status := h'.status.trans h.status
  stamp := h'.stamp.trans h.stamp
  moved t ht := by
    obtain ⟨hm', hp'⟩ := h'.moved t ht
    obtain ⟨hm, hp⟩ := h.moved t hm'
    exact ⟨hm, hp'.trans hp⟩

theorem Evolves.foldl {f : St → ℕ → St} (hf : ∀ s t, Evolves s (f s t)) (l : List ℕ) :
    Evolves s (l.foldl f s) := by
  induction l generalizing s with
  | nil => exact Evolves.refl s
  | cons t l ih => exact (hf s t).trans ih

theorem evolves_setPrio {p : ℤ} : Evolves s (s.setPrio t p) := by
  refine ⟨rfl, rfl, rfl, rfl, status_upd fun _ => rfl, ?_, ?_⟩
  · funext u
    by_cases hu : u = t
    · subst hu
      cases hr : s.threads u <;> simp [St.stamp, St.setPrio, St.upd, hr]
    · exact (key_eq.mp (key_upd_of_ne hu)).2.1
  · intro u hm
    by_cases hu : u = t
    · subst hu
      cases hr : s.threads u with
      | none => simp [St.moved, St.prio, St.setPrio, St.upd, hr]
      | some r =>
        simp only [St.moved, St.setPrio, St.upd, hr, Function.update_self, Option.map_some,
          Bool.or_eq_false_iff, decide_eq_false_iff_not, not_not] at hm
        simp [St.moved, St.prio, St.setPrio, St.upd, hr, hm.1, hm.2]
    · obtain ⟨hp, -, hm'⟩ := key_eq.mp (key_upd_of_ne (s := s) (t := t) hu)
      exact ⟨hm'.symm.trans hm, hp⟩

theorem Evolves.fifo (h : Evolves s s') {a b : ℕ} (hab : Fifo s a b) : Fifo s' a b := by
  intro ha hb heq
  obtain ⟨ha, hpa⟩ := h.moved a ha
  obtain ⟨hb, hpb⟩ := h.moved b hb
  rw [h.stamp]
  exact hab ha hb (by rw [← hpa, ← hpb, heq])

/-- The ready threads are in another order, which goes with the new priorities. -/
theorem Order.evolves (h : Order s) (he : Evolves s s') {l : List ℕ} (hl : l.Perm s.readyList)
    (hp : l.Pairwise fun a b => s'.prio b ≤ s'.prio a) (hf : l.Pairwise (Fifo s')) :
    Order { s' with readyList := l } where
  sorted := (hp.and hf).imp fun hab => ⟨hab.1, hab.2⟩
  stamps t ht := by
    change s'.stamp t < s'.clock
    rw [he.stamp, he.clock]
    exact h.stamps t (hl.mem_iff.mp ht)
  ready t ht := by
    change s'.status t = _
    rw [he.status]
    exact h.ready t (hl.mem_iff.mp ht)
  nodup := hl.nodup_iff.mpr h.nodup

/-- What `thread_aging` does to a priority. -/
def age (p : ℤ) : ℤ := if p < priMax then p + 1 else p

theorem age_mono {p q : ℤ} (h : p ≤ q) : age p ≤ age q := by
  unfold age priMax
  split <;> split <;> omega

theorem ageThread_prio (h : s.threads t ≠ none) : (ageThread s t).prio t = age (s.prio t) := by
  obtain ⟨r, hr⟩ := Option.ne_none_iff_exists'.mp h
  unfold ageThread age
  split
  · simp [St.setPrio, St.prio, St.upd, hr]
  · rfl

theorem ageThread_threads_of_ne {u : ℕ} (h : u ≠ t) : (ageThread s t).threads u = s.threads u := by
  unfold ageThread
  split
  · exact Function.update_of_ne h _ _
  · rfl

theorem evolves_ageThread : Evolves s (ageThread s t) := by
  unfold ageThread
  split
  · exact evolves_setPrio
  · exact Evolves.refl s

/-- The loop of `thread_aging`: every thread of the list is aged once. -/
theorem foldl_ageThread (l : List ℕ) : ∀ {s : St}, l.Nodup → (∀ t ∈ l, s.threads t ≠ none) →
    (∀ t ∈ l, (l.foldl ageThread s).prio t = age (s.prio t)) ∧
      ∀ t, t ∉ l → (l.foldl ageThread s).threads t = s.threads t := by
  induction l with
  | nil => exact fun _ _ => ⟨fun t ht => absurd ht List.not_mem_nil, fun _ _ => rfl⟩
  | cons a l ih =>
    intro s hnd hsome
    obtain ⟨hal, hnd⟩ := List.nodup_cons.mp hnd
    have hne : ∀ t ∈ l, t ≠ a := fun t ht he => hal (he ▸ ht)
    have hsome' : ∀ t ∈ l, (ageThread s a).threads t ≠ none := fun t ht => by
      rw [ageThread_threads_of_ne (hne t ht)]
      exact hsome t (List.mem_cons_of_mem a ht)
    obtain ⟨hin, hout⟩ := ih hnd hsome'
    refine ⟨fun t ht => ?_, fun t ht => ?_⟩
    · rcases List.mem_cons.mp ht with rfl | ht
      · -- the rest of the loop leaves the head alone
        rw [List.foldl_cons, (key_eq.mp (key_of_threads (hout t hal))).1]
        exact ageThread_prio (hsome t List.mem_cons_self)
      · rw [List.foldl_cons, hin t ht,
          (key_eq.mp (key_of_threads (ageThread_threads_of_ne (hne t ht)))).1]
    · rw [List.mem_cons, not_or] at ht
      rw [List.foldl_cons, hout t ht.2, ageThread_threads_of_ne ht.1]

theorem Order.threadAging (h : Order s) :
    Checked (threadAging s) ∧ (threadAging s).dispatches = s.dispatches := by
  unfold Threads.threadAging
  have he : Evolves s (s.readyList.foldl ageThread s) := Evolves.foldl (fun _ _ => evolves_ageThread) _
  have hsome : ∀ t ∈ s.readyList, s.threads t ≠ none := by
    intro t ht hn
    have hst := h.ready t ht
    simp [St.status, hn] at hst
  obtain ⟨hage, -⟩ := foldl_ageThread s.readyList h.nodup hsome
  have ho := h.evolves he (List.Perm.refl _)
    (h.sorted.imp_of_mem fun ha hb hab => by
      rw [hage _ ha, hage _ hb]
      exact age_mono hab.prio)
    (h.sorted.imp fun hab => he.fifo hab.fifo)
  have hr := he.readyList
  have hd := he.dispatches
  generalize s.readyList.foldl ageThread s = d at ho hr hd
  have ho' : Order d := ho.congr hr rfl (fun _ _ => rfl) fun _ _ => rfl
  exact ⟨ho'.checkPreemptIntr, checkPreemptIntr_dispatches.trans hd⟩

theorem evolves_threadUpdatePriority : Evolves s (threadUpdatePriority s t) := by
  unfold threadUpdatePriority threadCalcPriority
  split
  · exact Evolves.refl s
  · split
    · exact evolves_setPrio
    · exact Evolves.refl s

/-- The sort of `thread_mlfqs_tick` keeps the order of insertion where it should. -/
theorem Order.mlfqsSort (h : Order s) :
    Order (mlfqsSort s) ∧ (mlfqsSort s).dispatches = s.dispatches := by
  unfold Threads.mlfqsSort
  have he : Evolves s (threadForeach threadUpdatePriority s) :=
    Evolves.foldl (fun _ _ => evolves_threadUpdatePriority) _
  have hd := he.dispatches
  dsimp only
  generalize threadForeach threadUpdatePriority s = d at he hd
  have hperm : (listSort (priorityGreater d) d.readyList).Perm s.readyList := by
    rw [← he.readyList]
    exact perm_listSort d.readyList
  refine ⟨h.evolves he hperm ?_ ?_, hd⟩
  · exact (sorted_listSort strictWeak_priorityGreater d.readyList).imp fun hab => by
      simpa [priorityGreater] using hab
  · refine pairwise_listSort strictWeak_priorityGreater ?_ ?_
    · -- nothing is said of threads of different priorities
      intro a b hlt _ _ heq
      simp only [priorityGreater, decide_eq_true_eq] at hlt
      omega
    · rw [he.readyList]
      exact h.sorted.imp fun hab => he.fifo hab.fifo

end Evolves

section Tick

variable {s s' : St}

theorem quiet_mlfqsSecond : Quiet s (mlfqsSecond s) := by
  unfold mlfqsSecond threadForeach
  have hfold : ∀ (l : List ℕ) (s : St), Quiet s (l.foldl threadUpdateRecentCpu s) := by
    intro l
    induction l with
    | nil => exact Quiet.refl
    | cons t l ih =>
      intro s
      have ht : Quiet s (threadUpdateRecentCpu s t) :=
        Quiet.upd (fun _ => rfl) fun _ => ⟨rfl, rfl, rfl⟩
      exact ht.trans (ih _)
  have hload : ∀ x, Quiet s { s with loadAvg := x } := fun x =>
    ⟨rfl, rfl, rfl, rfl, rfl, fun _ _ => rfl, fun _ _ => rfl⟩
  exact (hload _).trans (hfold _ _)

theorem Checked.threadMlfqsTick (h : Checked s) :
    Checked (threadMlfqsTick s) ∧ (threadMlfqsTick s).dispatches = s.dispatches := by
  refine threadMlfqsTick_rule (P := fun d => Checked d ∧ d.dispatches = s.dispatches) ⟨h, rfl⟩ ?_ ?_ ?_
  · rintro d ⟨hd, he⟩
    have hq : Quiet d (d.upd d.cur fun r => { r with recentCpu := fpAddInt r.recentCpu 1 }) :=
      Quiet.upd (fun _ => rfl) fun _ => ⟨rfl, rfl, rfl⟩
    exact ⟨hd.quiet hq, he⟩
  · rintro d ⟨hd, he⟩
    exact ⟨hd.quiet quiet_mlfqsSecond, quiet_mlfqsSecond.dispatches.trans he⟩
  · rintro d ⟨hd, he⟩
    obtain ⟨ho, hds⟩ := hd.order.mlfqsSort
    exact ⟨ho.checkPreemptIntr, checkPreemptIntr_dispatches.trans (hds.trans he)⟩

/-- **The timer interrupt** wakes, ages and re-prioritises threads, and asks for a yield when one of
them should run. -/
theorem Order.timerInterrupt (h : Order s) :
    Checked (timerInterrupt s) ∧ (timerInterrupt s).dispatches = s.dispatches := by
  refine timerInterrupt_rule (P := fun d => Order d ∧ d.dispatches = s.dispatches)
    (Q := fun d => Checked d ∧ d.dispatches = s.dispatches)
    ⟨h.congr rfl rfl (fun _ _ => rfl) fun _ _ => rfl, rfl⟩ ?_ ?_ ?_ ?_
  · rintro d ⟨hd, he⟩
    exact ⟨hd.congr rfl rfl (fun _ _ => rfl) fun _ _ => rfl, he⟩
  · rintro d ⟨hd, he⟩
    obtain ⟨ho, hds⟩ := hd.wakeUpLoop d.sleepList
    exact ⟨ho.checkPreemptIntr, checkPreemptIntr_dispatches.trans (hds.trans he)⟩
  · rintro d ⟨hd, he⟩ -
    exact ⟨hd.order.threadAging.1, hd.order.threadAging.2.trans he⟩
  · rintro d ⟨hd, he⟩ -
    exact ⟨hd.threadMlfqsTick.1, hd.threadMlfqsTick.2.trans he⟩

/-- **When an interrupt handler has returned, the law holds.** -/
theorem Order.intrHandler {f : St → St} (hrun : Running (intrHandler f s))
    (hcur : ∀ d, Same s d → (f d).status (f d).cur = some .running)
    (hf : Checked (f { s with yieldOnReturn := false }) ∧
      (f { s with yieldOnReturn := false }).dispatches = s.dispatches) :
    Order (intrHandler f s) ∧ Law (intrHandler f s) ∧
      ((intrHandler f s).dispatches ≠ s.dispatches → First (intrHandler f s)) := by
  have hc := hcur { s with yieldOnReturn := false } ⟨rfl, rfl, rfl, rfl, rfl, rfl, rfl, rfl⟩
  have hok := hrun.ok
  obtain ⟨hck, hd⟩ := hf
  unfold Threads.intrHandler at hok ⊢
  dsimp only at hok ⊢
  generalize f { s with yieldOnReturn := false } = d at hc hck hd hok
  by_cases hy : d.yieldOnReturn = true
  · rw [if_pos hy] at hok ⊢
    obtain ⟨ho, hfirst⟩ := hck.order.threadYield hc hok
    exact ⟨ho, hfirst.law, fun _ => hfirst⟩
  · rw [if_neg hy] at hok ⊢
    exact ⟨hck.order, hck.law.resolve_left hy, fun hne => absurd hd hne⟩

end Tick

/-! ### One step -/

/-- The thread on the CPU is about to look whether it should yield, or to yield. -/
def CheckNext (s : St) : Prop :=
  ∃ l, s.conts s.cur = some (.checkPreempt :: l) ∨ s.conts s.cur = some (.yield :: l)

/-- What holds between two steps. -/
structure Strict (s : St) : Prop where
  order : Order s
  law : Law s ∨ CheckNext s

/-- What a step from `s` to `s'` leads to. -/
structure Sound (s s' : St) : Prop where
  strict : Strict s'
  chosen : s'.dispatches ≠ s.dispatches → First s'

section Step

variable {s s' d : St} {t : ℕ} {x : Stmt} {l l' rest : List Stmt}

theorem Strict.law_of (h : Strict s) (hl : s.conts s.cur = some (x :: rest))
    (hx : x ≠ .checkPreempt ∧ x ≠ .yield) : Law s := by
  refine h.law.resolve_right ?_
  rintro ⟨k, hk | hk⟩
  · rw [hl] at hk
    exact hx.1 (List.cons.inj (Option.some.inj hk)).1
  · rw [hl] at hk
    exact hx.2 (List.cons.inj (Option.some.inj hk)).1

theorem Strict.law_of_nil (h : Strict s) (hl : s.conts s.cur = some []) : Law s := by
  refine h.law.resolve_right ?_
  rintro ⟨k, hk | hk⟩ <;> rw [hl] at hk <;> cases hk

/-- A step that dispatches a thread. -/
theorem Sound.dispatch (h : Order s' ∧ First s') : Sound s s' :=
  ⟨⟨h.1, .inl h.2.law⟩, fun _ => h.2⟩

/-- A step that changes nothing the order and the law speak of. -/
theorem Strict.quiet (h : Strict s) (hlaw : Law s) (hq : Quiet s s') : Sound s s' :=
  ⟨⟨h.order.quiet hq, .inl (hlaw.quiet hq)⟩, fun hne => absurd hq.dispatches hne⟩

theorem Strict.goOn_of (h : Strict s) (hlaw : Law s) (ht : d.threads = s.threads)
    (hr : d.readyList = s.readyList) (hc : d.clock = s.clock) (hcur : d.cur = s.cur)
    (hd : d.dispatches = s.dispatches) (hy : d.yieldOnReturn = s.yieldOnReturn) :
    Sound s (d.goOn l) :=
  h.quiet hlaw (Quiet.goOn_of ht hr hc hcur hd hy l)

/-- A step after which the law may fail, and `thread_check_preempt` is what follows. -/
theorem Sound.check (ho : Order s') (hd : s'.dispatches = s.dispatches)
    (hc : s'.conts s'.cur = some rest) (hn : rest.head? = some .checkPreempt) : Sound s s' := by
  obtain ⟨k, rfl⟩ := List.head?_eq_some_iff.mp hn
  exact ⟨⟨ho, .inr ⟨k, .inl hc⟩⟩, fun hne => absurd hd hne⟩

/-- The key of the running thread changes. -/
theorem Order.setPrio_cur (h : Order s) (hcur : s.status s.cur = some .running) {p : ℤ} :
    Order (s.setPrio s.cur p) := by
  have hne : ∀ u ∈ s.readyList, u ≠ s.cur := fun u hu he => h.cur_not_mem hcur (he ▸ hu)
  exact h.congr rfl rfl (fun u hu => key_upd_of_ne (hne u hu)) fun u hu =>
    status_upd_of_ne (hne u hu)

/-- `sema_down`. -/
theorem Strict.semaDown (h : Strict s) (hlaw : Law s) (hcur : s.status s.cur = some .running)
    {y : Sema} (hok : (semaDown s y rest).panicked = false) : Sound s (semaDown s y rest) := by
  unfold Threads.semaDown at hok ⊢
  by_cases hv : (s.sema y).value = 0
  · rw [if_pos hv] at hok ⊢
    refine Sound.dispatch (Order.threadBlock ?_ ?_ hok)
    · exact (h.order.setSema).quiet (Quiet.goOn _)
    · rw [status_goOn]
      exact hcur
  · rw [if_neg hv]
    exact h.goOn_of hlaw rfl rfl rfl rfl rfl rfl

/-- A child that is under creation is neither ready nor running. -/
theorem Inv.quiet_inherit (h : Inv s) {c : ℕ} (hn : Newborn s c) :
    Quiet s (if s.mlfqs then threadCalcPriority
      (match s.threads s.cur with
        | some t => s.upd c fun r => { r with nice := t.nice, recentCpu := t.recentCpu }
        | none => s) c
      else match s.threads s.cur with
        | some t => s.upd c fun r => { r with nice := t.nice, recentCpu := t.recentCpu }
        | none => s) := by
  have hcc : s.cur ≠ c := by
    rintro rfl
    have hb := hn.blocked
    rw [h.running.cur] at hb
    cases hb
  have hne : ∀ u, u ∈ s.readyList ∨ u = s.cur → u ≠ c := by
    rintro u (hu | rfl)
    · rintro rfl
      exact hn.unlisted .ready hu
    · exact hcc
  have hs : Quiet s (match s.threads s.cur with
      | some t => s.upd c fun r => { r with nice := t.nice, recentCpu := t.recentCpu }
      | none => s) := by
    split
    · exact Quiet.upd (fun _ => rfl) fun _ => ⟨rfl, rfl, rfl⟩
    · exact Quiet.refl s
  generalize (match s.threads s.cur with
      | some t => s.upd c fun r => { r with nice := t.nice, recentCpu := t.recentCpu }
      | none => s) = d at hs
  split
  · refine hs.trans ?_
    unfold threadCalcPriority
    split
    · refine ⟨rfl, rfl, rfl, rfl, rfl, fun u hu => ?_, fun u hu => ?_⟩
      · rw [same_setPrio.status]
      · refine key_upd_of_ne (hne u ?_)
        rwa [hs.readyList, hs.cur] at hu
    · exact Quiet.refl d
  · exact hs

/-- **One statement of the thread on the CPU.** -/
theorem Strict.exec (h : Strict s) (hi : Inv s) (hl : s.conts s.cur = some (x :: rest)) :
    Sound s (exec s rest x) := by
  have hok := (hi.exec hl).running.ok
  have hcur := hi.running.cur
  have hg := (hi.conts.guarded _ _ hl).1
  have hgoOn : ∀ k : List Stmt, (s.goOn k).status (s.goOn k).cur = some .running := by
    intro k
    rw [status_goOn]
    exact hcur
  have hquiet : ∀ k, Order (s.goOn k) := fun k => h.order.quiet (Quiet.goOn k)
  have hlaw := h.law_of hl
  cases x with
  | kernelThread =>
    have hq : Quiet s (s.upd s.cur fun t => { t with level := true }) :=
      Quiet.upd (fun _ => rfl) fun _ => ⟨rfl, rfl, rfl⟩
    exact h.quiet (hlaw (by simp)) (hq.trans (Quiet.goOn rest))
  | setIdle | tryDown y | setHolder k | clearHolder k | condPush c =>
    simp only [Threads.exec]
    exact h.goOn_of (hlaw (by simp)) rfl rfl rfl rfl rfl rfl
  | idleLoop | block => exact Sound.dispatch ((hquiet _).threadBlock (hgoOn _) hok)
  | allocTid child =>
    have hq : Quiet s { s with nextTid := s.nextTid + 1 } :=
      ⟨rfl, rfl, rfl, rfl, rfl, fun _ _ => rfl, fun _ _ => rfl⟩
    have hq' : Quiet s ({ s with nextTid := s.nextTid + 1 }.upd child fun t =>
        { t with tid := s.nextTid }) :=
      hq.trans (Quiet.upd (fun _ => rfl) fun _ => ⟨rfl, rfl, rfl⟩)
    exact h.quiet (hlaw (by simp)) (hq'.trans (Quiet.goOn rest))
  | inherit child =>
    obtain ⟨k, rfl⟩ := List.head?_eq_some_iff.mp (hg _ rfl)
    have hn := hi.conts.newborn _ _ child hl List.mem_cons_self
    exact h.quiet (hlaw (by simp)) ((hi.quiet_inherit hn).trans (Quiet.goOn _))
  | unblock t =>
    obtain ⟨hc, hcur', hd⟩ := threadUnblock_frame (s := s.goOn rest) (t := t)
    refine Sound.check (hquiet rest).threadUnblock hd ?_ (hg _ rfl)
    simp only [Threads.exec]
    rw [hc, hcur']
    exact goOn_conts_cur hl
  | checkPreempt =>
    simp only [Threads.exec]
    split
    · exact ⟨⟨hquiet _, .inr ⟨rest, .inr (goOn_conts_cur hl)⟩⟩, fun hne => absurd rfl hne⟩
    · next hn =>
      exact h.quiet (needYield_eq_false h.order (Bool.eq_false_iff.mpr hn)) (Quiet.goOn rest)
  | yield => exact Sound.dispatch ((hquiet _).threadYield (hgoOn _) hok)
  | unblocked => exact h.quiet (hlaw (by simp)) (Quiet.goOn rest)
  | exit => exact Sound.dispatch ((hquiet _).threadExit (hgoOn _) hok)
  | readTicks n | sleepTest start n => exact h.quiet (hlaw (by simp)) (Quiet.goOn _)
  | sleep n =>
    have hq : Quiet s (s.upd s.cur fun t => { t with wakeupTick := n }) :=
      Quiet.upd (fun _ => rfl) fun _ => ⟨rfl, rfl, rfl⟩
    have ho := h.order.quiet (hq.trans (Quiet.goOn rest))
    have hst : ((s.upd s.cur fun t => { t with wakeupTick := n }).goOn rest).status = s.status :=
      status_goOn.trans (status_upd fun _ => rfl)
    refine Sound.dispatch (Order.threadBlock (ho.congr rfl rfl (fun _ _ => rfl) fun _ _ => rfl) ?_ hok)
    exact (congrFun hst s.cur).trans hcur
  | down y | downAgain y => exact h.semaDown (hlaw (by simp)) hcur hok
  | up y =>
    obtain ⟨hc, hcur', hd⟩ := semaUp_frame (s := s.goOn rest) (x := y)
    refine Sound.check (hquiet rest).semaUp hd ?_ (hg _ rfl)
    simp only [Threads.exec]
    rw [hc, hcur']
    exact goOn_conts_cur hl
  | tryAcquire k | condSignal c | condBroadcast c =>
    simp only [Threads.exec]
    split
    · exact h.quiet (hlaw (by simp)) (Quiet.goOn rest)
    · exact h.goOn_of (hlaw (by simp)) rfl rfl rfl rfl rfl rfl
  | setPriority p =>
    have ho : Order ((s.setPrio s.cur p).goOn rest) :=
      (h.order.setPrio_cur hcur).quiet (Quiet.goOn rest)
    refine Sound.check ho rfl ?_ (hg _ rfl)
    exact goOn_conts_cur (s := s.setPrio s.cur p) (by rw [same_setPrio.conts]; exact hl)
  | setNice n =>
    have hq : Quiet s (s.upd s.cur fun t => { t with nice := n }) :=
      Quiet.upd (fun _ => rfl) fun _ => ⟨rfl, rfl, rfl⟩
    have hs : Same s (s.upd s.cur fun t => { t with nice := n }) :=
      Same.upd (fun _ => rfl) fun _ => rfl
    simp only [Threads.exec]
    cases hm : s.mlfqs with
    | false => exact h.quiet (hlaw (by simp)) (hq.trans (Quiet.goOn rest))
    | true =>
      have hsp : Same s (threadCalcPriority (s.upd s.cur fun t => { t with nice := n }) s.cur) :=
        hs.trans same_threadCalcPriority
      have ho : Order (threadCalcPriority (s.upd s.cur fun t => { t with nice := n }) s.cur) := by
        unfold threadCalcPriority
        split
        · exact (h.order.quiet hq).setPrio_cur (hs.status ▸ hcur)
        · exact h.order.quiet hq
      have hd : (threadCalcPriority (s.upd s.cur fun t => { t with nice := n }) s.cur).dispatches =
          s.dispatches := by
        unfold threadCalcPriority
        split <;> rfl
      rw [if_pos rfl]
      generalize threadCalcPriority (s.upd s.cur fun t => { t with nice := n }) s.cur = d at hsp ho hd
      refine Sound.check (ho.quiet (Quiet.goOn rest)) hd ?_ (hg _ (by simp [Stmt.next, hm]))
      exact goOn_conts_cur (s := d) (by rw [hsp.conts, hsp.cur]; exact hl)

/-- **A call.** -/
theorem Strict.call (h : Strict s) (hi : Inv s) (hl : s.conts s.cur = some []) {r : Thread} {c : Call}
    (hc : canCall s r c = true) (hno : ∀ u, c ≠ .threadUnblock u) :
    Sound s ((enter s c).goOn (code s.mlfqs s.cur c)) := by
  refine h.quiet (h.law_of_nil hl) (Quiet.trans ?_ (Quiet.goOn _))
  cases c with
  | threadCreate child p =>
    have hnone : s.threads child = none := by
      simp only [canCall, Bool.and_eq_true, Option.isNone_iff_eq_none] at hc
      exact hc.1.1
    have hst : s.status child = none := by simp [St.status, hnone]
    have hne : ∀ u, u ∈ s.readyList ∨ u = s.cur → u ≠ child := by
      rintro u (hu | rfl) rfl
      · rw [h.order.ready u hu] at hst
        cases hst
      · rw [hi.running.cur] at hst
        cases hst
    refine ⟨rfl, rfl, rfl, rfl, rfl, fun u hu => ?_, fun u hu => ?_⟩
    · simp [St.status, enter, initThread, Function.update_of_ne (hne u (.inl hu))]
    · exact key_of_threads (Function.update_of_ne (hne u hu) _ _)
  | threadUnblock u => exact absurd rfl (hno u)
  | intrDisable | intrEnable => exact Quiet.upd (fun _ => rfl) fun _ => ⟨rfl, rfl, rfl⟩
  | _ => exact Quiet.refl s

/-- The operations of the kernel: a thread that has called `thread_block` by itself is not woken by
hand. `thread_unblock` alone does not check for preemption. -/
def Act.listed : Act → Bool
  | .call (.threadUnblock _) => false
  | .intrUnblock _ => false
  | _ => true

/-- **One step.** -/
theorem Strict.step (h : Strict s) (hi : Inv s) {a : Act} (ha : a.listed = true)
    (hs : step s a = some s') : Sound s s' ∧ (a = .tick → Law s') := by
  have hr := hi.running
  have hi' := hi.step hs
  obtain ⟨t, ht⟩ : ∃ t, s.threads s.cur = some t := by
    have hc := hr.cur
    cases hp : s.threads s.cur with
    | none => simp [St.status, hp] at hc
    | some t => exact ⟨t, rfl⟩
  have hst : t.status = .running := by
    have hc := hr.cur
    simpa [St.status, ht] using hc
  have hl : s.conts s.cur = some t.cont := by simp [St.conts, ht]
  simp only [Threads.step, hr.ok, ht, hst, if_true, Bool.false_eq_true, if_false] at hs
  cases a with
  | call c =>
    simp only [stepAt] at hs
    split at hs
    · rename_i hg
      cases hs
      refine ⟨h.call hi (hg.1 ▸ hl) hg.2 ?_, by simp⟩
      rintro u rfl
      cases ha
    · cases hs
  | run =>
    simp only [stepAt] at hs
    cases hcont : t.cont with
    | nil => simp [hcont] at hs
    | cons x rest =>
      simp only [hcont, Option.some.injEq] at hs
      subst hs
      exact ⟨h.exec hi (hcont ▸ hl), by simp⟩
  | tick =>
    simp only [stepAt] at hs
    split at hs
    · cases hs
      have hz : Order { s with yieldOnReturn := false } :=
        h.order.congr rfl rfl (fun _ _ => rfl) fun _ _ => rfl
      obtain ⟨ho, hlaw, hf⟩ := Order.intrHandler hi'.running
        (fun d hd => ((hr.same hd).timerInterrupt).1.cur) hz.timerInterrupt
      exact ⟨⟨⟨ho, .inl hlaw⟩, hf⟩, fun _ => hlaw⟩
    · cases hs
  | intrSemaUp n =>
    simp only [stepAt] at hs
    split at hs
    · cases hs
      have hz : Order { s with yieldOnReturn := false } :=
        h.order.congr rfl rfl (fun _ _ => rfl) fun _ _ => rfl
      obtain ⟨ho, hlaw, hf⟩ := Order.intrHandler hi'.running
        (fun d hd => (((hr.same hd).semaUp (.plain n)).1.same same_checkPreemptIntr).cur)
        ⟨hz.semaUp.checkPreemptIntr, checkPreemptIntr_dispatches.trans semaUp_frame.2.2⟩
      exact ⟨⟨⟨ho, .inl hlaw⟩, hf⟩, by simp⟩
    · cases hs
  | intrUnblock u => cases ha

theorem Strict.initial {aging mlfqs : Bool} {value : ℕ → ℕ} : Strict (initial aging mlfqs value) := by
  refine ⟨⟨?_, ?_, ?_, ?_⟩, .inl ?_⟩
  · exact List.pairwise_singleton _ _
  · intro t ht
    obtain rfl := List.mem_singleton.mp ht
    change 0 < 1
    omega
  · intro t ht
    obtain rfl := List.mem_singleton.mp ht
    exact initial_status.mpr (.inr ⟨rfl, rfl⟩)
  · exact List.nodup_singleton _
  · intro t ht
    obtain rfl := List.mem_singleton.mp ht
    change priMin ≤ priDefault
    decide

theorem Strict.reachable (h : sys.ReachableVia (fun _ a => a.listed = true) s) : Strict s := by
  have hboth : Inv s ∧ Strict s := by
    refine h.invariant (P := fun s => Inv s ∧ Strict s) ?_ ?_
    · rintro s ⟨aging, mlfqs, value, rfl⟩
      exact ⟨Inv.initial, Strict.initial⟩
    · rintro s a s' ⟨hi, hst⟩ ha hs
      exact ⟨hi.step hs, (hst.step hi ha hs).1.strict⟩
  exact hboth.2

/-- **Strict priority scheduling**, in any scheduling mode. In every state a run reaches `ready_list`
is sorted by the current priorities; when the running thread is in no operation its priority is
maximal; the thread that a step chooses is the first of the ready threads of maximal priority; and
when a timer interrupt has returned the running thread's priority is maximal. -/
theorem strict_priority (h : sys.ReachableVia (fun _ a => a.listed = true) s) :
    (s.readyList.Pairwise fun a b => s.prio b ≤ s.prio a) ∧
      (s.conts s.cur = some [] → Law s) ∧
      ∀ a s', a.listed = true → sys.step s a = some s' →
        (s'.dispatches ≠ s.dispatches → First s') ∧ (a = .tick → Law s') := by
  have hst := Strict.reachable h
  have hi := Inv.reachable (h.mono fun _ _ _ => trivial)
  refine ⟨hst.order.sorted.imp Before.prio, hst.law_of_nil, fun a s' ha hs => ?_⟩
  obtain ⟨hsound, htick⟩ := hst.step hi ha hs
  exact ⟨hsound.chosen, htick⟩

end Step

/-- The initial thread creates two threads of lower priority, and a tick comes in. -/
def createTwo : List Act :=
  List.replicate 7 Act.run ++ Act.call (.threadCreate 2 20) :: List.replicate 9 Act.run ++
    Act.call (.threadCreate 3 25) :: List.replicate 9 Act.run ++ [Act.tick]

theorem strict_priority_createTwo : ∃ s, sys.ReachableVia (fun _ a => a.listed = true) s ∧
    s.readyList = [3, 2] ∧ s.cur = initialThread ∧ s.prio 3 = 26 ∧ s.prio 2 = 21 ∧
    (s.readyList.Pairwise fun a b => s.prio b ≤ s.prio a) ∧ Law s := by
  obtain ⟨s, hrun, hr, hc, h3, h2, hcont⟩ := System.exists_of_runWith
    (fun s => s.readyList = [3, 2] ∧ s.cur = initialThread ∧ s.prio 3 = 26 ∧ s.prio 2 = 21 ∧
      s.conts s.cur = some [])
    (show (sys.runWith (fun _ a => a.listed) (initial true false fun _ => 0) createTwo).any _ = true
      by decide +kernel)
  have hs : sys.ReachableVia (fun _ a => a.listed = true) s :=
    System.reachableVia_of_runWith (fun _ _ ha => ha) ⟨true, false, fun _ => 0, rfl⟩ hrun
  obtain ⟨hsorted, hlaw, -⟩ := strict_priority hs
  exact ⟨s, hs, hr, hc, h3, h2, hsorted, hlaw hcont⟩

end Threads
end Pintos

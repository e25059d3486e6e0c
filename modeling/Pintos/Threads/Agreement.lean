import Pintos.Threads.Membership

/-!
# Thread states and queues agree in every run

`Running` (`Pintos.Threads.Membership`) is kept by every operation whose caller sees to its
precondition. Two of these preconditions are about what other threads are about to do, and so they
need an invariant of their own, `Conts`: the thread that runs `idle` blocks only after it has set
`idle_thread`, and a thread that `thread_create` has not unblocked yet is blocked, in no list, and
known to its creator alone.

The main result is `agree`: the two hold in every state of every run, and so no assertion about a
status fails.
-/

namespace Pintos
namespace Threads

/-- The semaphore of `cond_wait` is on the waiter's own stack, and only one thread runs `idle`. -/
def Stmt.okFor (t : ℕ) : Stmt → Prop
  | .down (.waiter w) => w = t
  | .downAgain (.waiter w) => w = t
  | .setIdle => t = idlePage
  | _ => True

/-- The thread that a statement of `thread_create` will unblock. -/
def Stmt.creates : Stmt → Option ℕ
  | .unblock c => some c
  | _ => none

/-- The threads whose creation is still under way. -/
def pending (l : List Stmt) : List ℕ := l.filterMap Stmt.creates

/-- What the idle thread can still have to do, before and after it has set `idle_thread`. -/
def idleConts : Option ℕ → List (List Stmt)
  | none => [.kernelThread :: .setIdle :: idleCode, .setIdle :: idleCode]
  | some _ => [idleCode, [.checkPreempt, .idleLoop], [.yield, .idleLoop], [.idleLoop]]

/-- The statements of the idle thread. -/
def Stmt.idles : Stmt → Bool
  | .kernelThread | .setIdle | .idleLoop | .checkPreempt | .yield | .up _ => true
  | _ => false

/-- What has to follow a statement. Who makes a thread ready or changes its own priority goes on with
`thread_check_preempt`. -/
def Stmt.next (mlfqs : Bool) : Stmt → Option Stmt
  | .inherit c => some (.unblock c)
  | .unblock _ | .up _ | .setPriority _ => some .checkPreempt
  | .setNice _ => if mlfqs then some .checkPreempt else none
  | _ => none

/-- Every statement is followed by the one that has to follow it. -/
def Guarded (mlfqs : Bool) : List Stmt → Prop
  | [] => True
  | x :: l => (∀ y, x.next mlfqs = some y → l.head? = some y) ∧ Guarded mlfqs l

/-- A thread between `init_thread` and `thread_unblock` in `thread_create`. -/
structure Newborn (s : St) (c : ℕ) : Prop where
  blocked : s.status c = some .blocked
  cont : s.conts c = some [.kernelThread]
  unlisted : Unlisted s c

/-- What the threads still have to do. -/
structure Conts (s : St) : Prop where
  okFor : ∀ t l, s.conts t = some l → ∀ x ∈ l, x.okFor t
  newborn : ∀ t l c, s.conts t = some l → c ∈ pending l → Newborn s c
  nodup : ∀ t l, s.conts t = some l → (pending l).Nodup
  creator : ∀ t u l k c, s.conts t = some l → s.conts u = some k → c ∈ pending l → c ∈ pending k →
    t = u
  waiters : ∀ t u, u ∈ s.queue (.waiters (.waiter t)) → u = t
  -- a thread comes back from `thread_block` before anything else
  back : ∀ t l, s.conts t = some l → .unblocked ∉ l.tail
  parked : ∀ t l, s.conts t = some (.unblocked :: l) → s.status t = some .blocked → Unlisted s t
  guarded : ∀ t l, s.conts t = some l → Guarded s.mlfqs l

/-- Where the idle thread is. -/
def Idle (s : St) : Prop := ∃ l, s.conts idlePage = some l ∧ l ∈ idleConts s.idleThread

structure Inv (s : St) : Prop where
  running : Running s
  conts : Conts s
  idle : Idle s

section Inv

variable {s s' : St} {t : ℕ} {x : Stmt} {l l' rest : List Stmt} {D : ℕ → Prop}

theorem conts_isSome {x : Status} (h : s.status t = some x) : ∃ l, s.conts t = some l := by
  unfold St.status at h
  cases hr : s.threads t with
  | none => simp [hr] at h
  | some r => exact ⟨r.cont, by simp [St.conts, hr]⟩

theorem Idle.mem (h : Idle s) (hl : s.conts t = some l) (ht : t = idlePage) :
    l ∈ idleConts s.idleThread := by
  subst ht
  obtain ⟨k, hk, hm⟩ := h
  rwa [Option.some.inj (hl.symm.trans hk)]

/-- A thread that has called anything is not the idle thread. -/
theorem Idle.ne (h : Idle s) (hl : s.conts t = some (x :: rest)) (hx : x.idles = false) :
    t ≠ idlePage := by
  intro ht
  have hm := h.mem hl ht
  cases hi : s.idleThread with
  | none =>
    simp only [hi, idleConts, idleCode, List.mem_cons, List.cons.injEq, List.not_mem_nil] at hm
    rcases hm with ⟨rfl, -⟩ | ⟨rfl, -⟩ | hf
    · cases hx
    · cases hx
    · exact hf
  | some i =>
    simp only [hi, idleConts, idleCode, List.mem_cons, List.cons.injEq, List.not_mem_nil] at hm
    rcases hm with ⟨rfl, -⟩ | ⟨rfl, -⟩ | ⟨rfl, -⟩ | ⟨rfl, -⟩ | hf
    · cases hx
    · cases hx
    · cases hx
    · cases hx
    · exact hf

/-- A thread that could call something is not the idle thread. -/
theorem Idle.ne_nil (h : Idle s) (hl : s.conts t = some []) : t ≠ idlePage := by
  intro ht
  have hm := h.mem hl ht
  cases hi : s.idleThread <;> simp [hi, idleConts, idleCode] at hm

/-- A thread under creation is not the idle thread. -/
theorem Newborn.ne_idle {c : ℕ} (hc : Newborn s c) (h : Idle s) : c ≠ idlePage := by
  intro ht
  have hm := h.mem hc.cont ht
  cases hi : s.idleThread <;> simp [hi, idleConts, idleCode] at hm

/-- What spares the threads of which it knows nothing keeps the invariant. -/
theorem Inv.keeps (hc : Conts s) (hi : Idle s) (hidle : ∀ i, s.idleThread = some i → i = idlePage)
    (hrun : Running s') (hk : Keeps D s s')
    (hD : ∀ t l c, s.conts t = some l → c ∈ pending l → ¬ D c) : Inv s' := by
  refine ⟨hrun, ⟨fun t l hl => hc.okFor t l (hk.conts t l hl), ?_,
    fun t l hl => hc.nodup t l (hk.conts t l hl),
    fun t u l k c hl hl' => hc.creator t u l k c (hk.conts t l hl) (hk.conts u k hl'),
    fun t u hu => hc.waiters t u (hk.waiters _ u hu), fun t l hl => hc.back t l (hk.conts t l hl),
    ?_, fun t l hl => hk.mlfqs ▸ hc.guarded t l (hk.conts t l hl)⟩, ?_⟩
  · intro t l c hl hcl
    have hl' := hk.conts t l hl
    have hn := hc.newborn t l c hl' hcl
    obtain ⟨hb, hu⟩ := hk.spared c (hD t l c hl' hcl) (fun hic => hn.ne_idle hi (hidle c hic))
      hn.blocked hn.unlisted
    obtain ⟨k, hk'⟩ := conts_isSome hb
    exact ⟨hb, by rw [hk', ← hk.conts c k hk', hn.cont], hu⟩
  · intro t l hl hb
    have hl' := hk.conts _ _ hl
    obtain ⟨hb', hDt⟩ := hk.blocked t hb
    exact (hk.spared t hDt (fun hit => hi.ne hl' rfl (hidle t hit)) hb'
      (hc.parked t l hl' hb')).2
  · obtain ⟨x, hx, -⟩ := hrun.idle_alive
    obtain ⟨l, hl⟩ := conts_isSome hx
    obtain ⟨l', hl', hm⟩ := hi
    obtain rfl : l = l' := Option.some.inj ((hk.conts _ l hl).symm.trans hl')
    exact ⟨l, hl, hk.idleThread ▸ hm⟩

/-- An operation that changes what it knows about. -/
theorem Inv.op (h : Inv s) (hop : Running s' ∧ Keeps (fun _ => False) s s') : Inv s' :=
  Inv.keeps h.conts h.idle (fun i hi => (h.running.idle i hi).1) hop.1 hop.2 fun _ _ _ _ _ hf => hf

theorem Inv.same (h : Inv s) (hs : Same s s') : Inv s' := h.op ⟨h.running.same hs, hs.keeps⟩

theorem goOn_conts (h : s.conts s.cur = some l) (l' : List Stmt) :
    (s.goOn l').conts = Function.update s.conts s.cur (some l') := by
  refine conts_goOn fun hn => ?_
  simp [St.conts, hn] at h

theorem goOn_conts_cur (h : s.conts s.cur = some l) : (s.goOn l').conts s.cur = some l' := by
  rw [goOn_conts h l']
  exact Function.update_self ..

/-- The thread on the CPU goes on. The threads it is creating are old ones, or nobody else knows
them. -/
theorem Conts.goOn (hc : Conts s) (hcur : s.status s.cur = some .running)
    (hl : s.conts s.cur = some l) (hok : ∀ x ∈ l', x.okFor s.cur) (hback : .unblocked ∉ l'.tail)
    (hguard : Guarded s.mlfqs l') (hnd : (pending l').Nodup)
    (hnew : ∀ c ∈ pending l', c ∈ pending l ∨
      Newborn s c ∧ ∀ t k, s.conts t = some k → c ∉ pending k) : Conts (s.goOn l') := by
  have heq := goOn_conts hl l'
  have hst : (s.goOn l').status = s.status := status_goOn
  -- the continuation of a thread is the new one of the caller, or the old one of another thread
  have hcase : ∀ {t k}, (s.goOn l').conts t = some k →
      t = s.cur ∧ k = l' ∨ t ≠ s.cur ∧ s.conts t = some k := by
    intro t k hk
    rw [heq] at hk
    by_cases ht : t = s.cur
    · subst ht
      rw [Function.update_self] at hk
      exact .inl ⟨rfl, (Option.some.inj hk).symm⟩
    · rw [Function.update_of_ne ht] at hk
      exact .inr ⟨ht, hk⟩
  have hborn : ∀ c, Newborn s c → Newborn (s.goOn l') c := by
    intro c hcn
    have hcc : c ≠ s.cur := by
      rintro rfl
      have hb := hcn.blocked
      rw [hcur] at hb
      cases hb
    refine ⟨hst ▸ hcn.blocked, ?_, hcn.unlisted⟩
    rw [heq, Function.update_of_ne hcc]
    exact hcn.cont
  refine ⟨?_, ?_, ?_, ?_, hc.waiters, ?_, ?_, ?_⟩
  · intro t k hk
    rcases hcase hk with ⟨rfl, rfl⟩ | ⟨-, hk⟩
    · exact hok
    · exact hc.okFor t k hk
  · intro t k c hk hck
    rcases hcase hk with ⟨rfl, rfl⟩ | ⟨-, hk⟩
    · exact hborn c ((hnew c hck).elim (hc.newborn _ l c hl) And.left)
    · exact hborn c (hc.newborn t k c hk hck)
  · intro t k hk
    rcases hcase hk with ⟨rfl, rfl⟩ | ⟨-, hk⟩
    · exact hnd
    · exact hc.nodup t k hk
  · -- a thread under creation is known to the caller as before, or to no other thread
    have hother : ∀ {t k c}, t ≠ s.cur → s.conts t = some k → c ∈ pending l' → c ∉ pending k := by
      intro t k c ht hk hcl hck
      rcases hnew c hcl with hcl | ⟨-, hno⟩
      · exact ht (hc.creator t s.cur k l c hk hl hck hcl)
      · exact hno t k hk hck
    intro t u k k' c hk hk' hck hck'
    rcases hcase hk with ⟨rfl, rfl⟩ | ⟨ht, hk₁⟩ <;>
      rcases hcase hk' with ⟨rfl, rfl⟩ | ⟨hu, hk₂⟩
    · rfl
    · exact absurd hck' (hother hu hk₂ hck)
    · exact absurd hck (hother ht hk₁ hck')
    · exact hc.creator t u k k' c hk₁ hk₂ hck hck'
  · intro t k hk
    rcases hcase hk with ⟨rfl, rfl⟩ | ⟨-, hk⟩
    · exact hback
    · exact hc.back t k hk
  · intro t k hk hb
    rw [hst] at hb
    rcases hcase hk with ⟨rfl, -⟩ | ⟨-, hk⟩
    · rw [hcur] at hb
      cases hb
    · exact hc.parked t k hk hb
  · intro t k hk
    rcases hcase hk with ⟨-, rfl⟩ | ⟨-, hk⟩
    · exact hguard
    · exact hc.guarded t k hk

/-- The idle thread goes on with what it has to do, and any other thread leaves it alone. -/
theorem Idle.goOn (h : Idle s) (hl : s.conts s.cur = some l)
    (hidle : s.cur = idlePage → l' ∈ idleConts s.idleThread) : Idle (s.goOn l') := by
  have heq := goOn_conts hl l'
  by_cases hci : s.cur = idlePage
  · exact ⟨l', by rw [heq, hci, Function.update_self], hidle hci⟩
  · obtain ⟨k, hk, hm⟩ := h
    exact ⟨k, by rw [heq, Function.update_of_ne (Ne.symm hci)]; exact hk, hm⟩

/-- The thread on the CPU has done some of what it had to do. -/
theorem Inv.advance (h : Inv s) (hl : s.conts s.cur = some l) (hok : ∀ x ∈ l', x.okFor s.cur)
    (hback : .unblocked ∉ l'.tail) (hguard : Guarded s.mlfqs l')
    (hsub : (pending l').Sublist (pending l))
    (hidle : s.cur = idlePage → l' ∈ idleConts s.idleThread) : Inv (s.goOn l') :=
  ⟨h.running.goOn l', h.conts.goOn h.running.cur hl hok hback hguard
    ((h.conts.nodup _ l hl).sublist hsub) (fun _ hc => .inl (hsub.subset hc)), h.idle.goOn hl hidle⟩

/-! ### Blocking -/

/-- The caller of `thread_block` is in the queue `q`, if in any. -/
theorem Conts.block (h : Conts s) (hcur : s.status s.cur = some .running)
    (hl : s.conts s.cur = some l) (hst : s'.status = Function.update s.status s.cur (some .blocked))
    (hconts : s'.conts = s.conts) (hmlfqs : s'.mlfqs = s.mlfqs)
    (hq : ∀ q u, u ∈ s'.queue q → u ∈ s.queue q ∨ u = s.cur ∧
      (∀ k, l ≠ .unblocked :: k) ∧ ∀ w, q = .waiters (.waiter w) → w = s.cur)
    (hun : Unlisted s s.cur) : Conts s' := by
  -- a thread in no list other than the caller stays in no list
  have hother : ∀ c, c ≠ s.cur → Unlisted s c → Unlisted s' c := by
    intro c hc hu q hm
    rcases hq q c hm with hm | ⟨rfl, -⟩
    · exact hu q hm
    · exact hc rfl
  have hstat : ∀ {c}, c ≠ s.cur → s'.status c = s.status c := fun hc => by
    rw [hst, Function.update_of_ne hc]
  refine ⟨hconts ▸ h.okFor, ?_, hconts ▸ h.nodup, hconts ▸ h.creator, ?_, hconts ▸ h.back, ?_,
    by rw [hconts, hmlfqs]; exact h.guarded⟩
  · intro t k c hk hck
    rw [hconts] at hk
    have hn := h.newborn t k c hk hck
    have hcc : c ≠ s.cur := by
      rintro rfl
      have hb := hn.blocked
      rw [hcur] at hb
      cases hb
    exact ⟨(hstat hcc).trans hn.blocked, hconts ▸ hn.cont, hother c hcc hn.unlisted⟩
  · intro t u hm
    rcases hq _ u hm with hm | ⟨rfl, -, hw⟩
    · exact h.waiters t u hm
    · exact (hw t rfl).symm
  · intro t k hk hb
    rw [hconts] at hk
    by_cases htc : t = s.cur
    · subst htc
      obtain rfl : l = .unblocked :: k := Option.some.inj (hl.symm.trans hk)
      intro q hm
      rcases hq q _ hm with hm | ⟨-, hno, -⟩
      · exact hun q hm
      · exact hno k rfl
    · rw [hstat htc] at hb
      exact hother t htc (h.parked t k hk hb)

/-- **`thread_block`**, after the caller was put into the queue `q`, if into any. -/
theorem Inv.threadBlock (h : Inv s) (d : St) (hboot : s.idleThread = none → s.cur ≠ idlePage)
    (hl : s.conts s.cur = some l) (hst : d.status = s.status) (hconts : d.conts = s.conts)
    (hcur : d.cur = s.cur) (hidle : d.idleThread = s.idleThread) (hall : d.allList = s.allList)
    (hok : d.panicked = s.panicked) (hready : d.readyList = s.readyList)
    (hmlfqs : d.mlfqs = s.mlfqs)
    (hq : d.queue = s.queue ∨ s.idleThread ≠ some s.cur ∧ (∀ k, l ≠ .unblocked :: k) ∧
      ∃ q L, q.status = .blocked ∧ L.Perm (s.cur :: s.queue q) ∧
        d.queue = Function.update s.queue q L ∧ ∀ w, q = .waiters (.waiter w) → w = s.cur) :
    Inv (threadBlock d) := by
  obtain ⟨hrun, hk⟩ := h.running.threadBlock hboot hst hcur hidle hall hok hready
    (hq.imp id fun ⟨hi, _, q, L, hqb, hL, hu, _⟩ => ⟨hi, q, L, hqb, hL, hu⟩)
  have hconts' : (d.setStatus d.cur .blocked).conts = s.conts := by
    rw [← hconts]
    exact conts_upd fun _ => rfl
  have hst' : (d.setStatus d.cur .blocked).status =
      Function.update s.status s.cur (some .blocked) := by
    rw [← hst, ← hcur]
    exact status_set (by rw [hst, hcur]; exact h.running.cur) fun _ => rfl
  have hmem : ∀ q u, u ∈ (d.setStatus d.cur .blocked).queue q → u ∈ s.queue q ∨ u = s.cur ∧
      (∀ k, l ≠ .unblocked :: k) ∧ ∀ w, q = .waiters (.waiter w) → w = s.cur := by
    intro q u hu
    have hu' : u ∈ d.queue q := by simpa [St.setStatus] using hu
    rcases hq with hq | ⟨-, hno, q', L, -, hL, hq, hw⟩
    · exact .inl (hq ▸ hu')
    · rw [hq] at hu'
      by_cases hqq : q = q'
      · subst hqq
        rw [Function.update_self, hL.mem_iff] at hu'
        exact (List.mem_cons.mp hu').elim (fun he => .inr ⟨he, hno, hw⟩) .inl
      · rw [Function.update_of_ne hqq] at hu'
        exact .inl hu'
  refine Inv.keeps (h.conts.block h.running.cur hl hst' hconts' hmlfqs hmem h.running.cur_unlisted) ?_ ?_
    hrun hk fun _ _ _ _ _ hf => hf
  · obtain ⟨k, hk', hm⟩ := h.idle
    refine ⟨k, by rw [hconts']; exact hk', ?_⟩
    change k ∈ idleConts d.idleThread
    rwa [hidle]
  · intro i hi
    exact (h.running.idle i (hidle ▸ hi)).1

/-! ### One statement -/

/-- The idle thread has set `idle_thread`. -/
theorem Inv.setIdle (h : Inv s) (hl : s.conts s.cur = some (.setIdle :: rest)) :
    Inv ({ s with idleThread := some s.cur }.goOn rest) := by
  have hc := h.conts
  have hcur : s.cur = idlePage := hc.okFor _ _ hl .setIdle List.mem_cons_self
  have hrest : rest = idleCode := by
    obtain ⟨k, hk, hm⟩ := h.idle
    rw [← hcur] at hk
    obtain rfl : .setIdle :: rest = k := Option.some.inj (hl.symm.trans hk)
    cases hi : s.idleThread <;> simp_all [idleConts, idleCode]
  have hrun : Running { s with idleThread := some s.cur } := by
    have hr := h.running
    refine ⟨⟨hr.ok, ⟨hr.core.nodup, hr.core.unique, hr.core.status, hr.core.all_nodup, hr.core.all⟩,
      hr.cur, hr.running, ?_, ?_, hr.idle_alive, ?_⟩, hr.dying⟩
    · intro t ht hi
      by_cases hin : s.idleThread = some t
      · -- the idle thread is the running one, so not ready
        exact absurd (congrArg some ((hr.idle t hin).1.trans hcur.symm).symm) hi
      · exact hr.ready t ht hin
    · intro i hi
      obtain rfl : s.cur = i := Option.some.inj hi
      exact ⟨hcur, hr.cur_unlisted⟩
    · intro hn
      cases hn
  have hconts : Conts { s with idleThread := some s.cur } :=
    ⟨hc.okFor, fun t l c hl' hcl => ⟨(hc.newborn t l c hl' hcl).blocked,
      (hc.newborn t l c hl' hcl).cont, (hc.newborn t l c hl' hcl).unlisted⟩, hc.nodup, hc.creator,
      hc.waiters, hc.back, hc.parked, hc.guarded⟩
  refine ⟨hrun.goOn rest, hconts.goOn hrun.cur hl ?_ ?_ ?_ ?_ ?_, rest, ?_, ?_⟩
  · intro y hy
    exact hc.okFor _ _ hl y (List.mem_cons_of_mem _ hy)
  · exact fun hm => hc.back _ _ hl (List.mem_of_mem_tail hm)
  · exact (hc.guarded _ _ hl).2
  · exact (hc.nodup _ _ hl : (pending (.setIdle :: rest)).Nodup)
  · exact fun c hcl => .inl hcl
  · rw [goOn_conts (s := { s with idleThread := some s.cur }) hl rest, ← hcur]
    exact Function.update_self ..
  · rw [hrest]
    exact List.mem_cons_self

theorem pending_sublist : (pending rest).Sublist (pending (x :: rest)) :=
  (List.sublist_cons_self x rest).filterMap Stmt.creates

/-- The thread on the CPU has done `x`, and `d` is the state of the kernel after it. Statements `new`
may come before the rest. -/
theorem Inv.stmt (h : Inv s) (hl : s.conts s.cur = some (x :: rest)) {d : St} (hs : Same s d)
    (new : List Stmt) (hnew : ∀ y ∈ new, y.okFor s.cur) (hback : .unblocked ∉ new.tail)
    (hguard : Guarded s.mlfqs rest → Guarded s.mlfqs (new ++ rest)) (hnone : pending new = [])
    (hidle : s.cur = idlePage → new ++ rest ∈ idleConts s.idleThread) :
    Inv (d.goOn (new ++ rest)) := by
  have hld : d.conts d.cur = some (x :: rest) := by rw [hs.conts, hs.cur]; exact hl
  refine (h.same hs).advance hld ?_ ?_ ?_ ?_ ?_
  · intro y hy
    rw [hs.cur]
    rcases List.mem_append.mp hy with hy | hy
    · exact hnew y hy
    · exact h.conts.okFor _ _ hl y (List.mem_cons_of_mem _ hy)
  · intro hm
    cases new with
    | nil => exact h.conts.back _ _ hl (List.mem_of_mem_tail hm)
    | cons y new =>
      rcases List.mem_append.mp hm with hm | hm
      · exact hback hm
      · exact h.conts.back _ _ hl hm
  · rw [hs.mlfqs]
    exact hguard (h.conts.guarded _ _ hl).2
  · have hp : pending (new ++ rest) = pending rest := by
      unfold pending at hnone ⊢
      rw [List.filterMap_append, hnone, List.nil_append]
    rw [hp]
    exact pending_sublist
  · intro hc
    rw [hs.idleThread]
    exact hidle (hs.cur ▸ hc)

/-- The same for a statement that is not one of the idle thread. -/
theorem Inv.insert (h : Inv s) (hl : s.conts s.cur = some (x :: rest)) (hx : x.idles = false)
    {d : St} (hs : Same s d) (new : List Stmt) (hnew : ∀ y ∈ new, y.okFor s.cur)
    (hback : .unblocked ∉ new.tail)
    (hguard : Guarded s.mlfqs rest → Guarded s.mlfqs (new ++ rest)) (hnone : pending new = []) :
    Inv (d.goOn (new ++ rest)) :=
  h.stmt hl hs new hnew hback hguard hnone fun hc => absurd hc (h.idle.ne hl hx)

/-- The same when nothing comes before the rest. -/
theorem Inv.done (h : Inv s) (hl : s.conts s.cur = some (x :: rest)) (hx : x.idles = false)
    {d : St} (hs : Same s d) : Inv (d.goOn rest) :=
  h.insert hl hx hs [] (by simp) (by simp) id rfl

/-- A statement of the idle thread, whoever does it. -/
theorem Inv.next (h : Inv s) (hl : s.conts s.cur = some (x :: rest)) {d : St} (hs : Same s d)
    (hx : x :: rest ∈ idleConts s.idleThread → rest ∈ idleConts s.idleThread) :
    Inv (d.goOn rest) :=
  h.stmt hl hs [] (by simp) (by simp) id rfl fun hc => hx (h.idle.mem hl hc)

/-- `thread_block` after the caller was put into the queue `q`. -/
theorem Inv.enqueue (h : Inv s) (d : St) (hl : s.conts s.cur = some l) (hne : s.cur ≠ idlePage)
    (hno : ∀ k, l ≠ .unblocked :: k) {q : Queue} {L : List ℕ} (hqb : q.status = .blocked)
    (hL : L.Perm (s.cur :: s.queue q)) (hw : ∀ w, q = .waiters (.waiter w) → w = s.cur)
    (hst : d.status = s.status) (hconts : d.conts = s.conts) (hcur : d.cur = s.cur)
    (hidle : d.idleThread = s.idleThread) (hall : d.allList = s.allList)
    (hok : d.panicked = s.panicked) (hready : d.readyList = s.readyList)
    (hmlfqs : d.mlfqs = s.mlfqs) (hq : d.queue = Function.update s.queue q L) :
    Inv (Threads.threadBlock d) :=
  h.threadBlock d (fun _ => hne) hl hst hconts hcur hidle hall hok hready hmlfqs
    (.inr ⟨fun hi => hne (h.running.idle _ hi).1, hno, q, L, hqb, hL, hq, hw⟩)

/-- `sema_down`, from its start or after it was woken. -/
theorem Inv.semaDown (h : Inv s) {y : Sema} (hl : s.conts s.cur = some (x :: rest))
    (hx : x.idles = false) (hw : ∀ w, y = .waiter w → w = s.cur) : Inv (semaDown s y rest) := by
  unfold Threads.semaDown
  split
  · -- it blocks, in the waiters of the semaphore
    have hok : ∀ z ∈ [Stmt.downAgain y], z.okFor s.cur := by
      intro z hz
      obtain rfl := List.mem_singleton.mp hz
      cases y with
      | waiter w => exact hw w rfl
      | _ => trivial
    have hg : Inv (s.goOn (.downAgain y :: rest)) :=
      h.insert hl hx (Same.refl s) [.downAgain y] hok (by simp)
        (by simp [Guarded, Stmt.next]) rfl
    exact hg.enqueue _ (goOn_conts_cur hl) (h.idle.ne hl hx) (by simp) (q := .waiters y) rfl
      (perm_listInsertOrdered s.cur (s.sema y).waiters) (fun w he => hw w (Queue.waiters.inj he))
      rfl rfl rfl rfl rfl rfl rfl rfl (queue_setSema (s := s.goOn (.downAgain y :: rest)))
  · exact h.done hl hx (same_setSema rfl)

/-- `thread_sleep`. -/
theorem Inv.sleep (h : Inv s) {n : ℤ} (hl : s.conts s.cur = some (.sleep n :: rest)) :
    Inv (exec s rest (.sleep n)) := by
  have hs : Same s (s.upd s.cur fun t => { t with wakeupTick := n }) :=
    Same.upd (fun _ => rfl) fun _ => rfl
  have hg := h.done hl rfl hs
  have hlg : ((s.upd s.cur fun t => { t with wakeupTick := n }).goOn rest).conts s.cur =
      some rest := goOn_conts_cur (s := s.upd s.cur fun t => { t with wakeupTick := n }) (hs.conts ▸ hl)
  have hno : ∀ k, rest ≠ .unblocked :: k := by
    rintro k rfl
    exact h.conts.back _ _ hl List.mem_cons_self
  unfold exec
  exact hg.enqueue _ hlg (h.idle.ne hl rfl) hno (q := .sleep) rfl
    (perm_listInsertOrdered s.cur s.sleepList) (fun _ he => by cases he) rfl rfl rfl rfl rfl rfl rfl
    rfl (by funext q; cases q <;> rfl)

/-- **`thread_unblock`** of a thread that is blocked and in no list, and that nobody is creating. -/
theorem Inv.unblock (h : Inv s) (hb : s.status t = some .blocked) (hu : Unlisted s t)
    (hi : t ≠ idlePage) (hD : ∀ u l, s.conts u = some l → t ∉ pending l) :
    Inv (threadUnblock s t) := by
  have hidle : ∀ i, s.idleThread = some i → i = idlePage := fun i hi => (h.running.idle i hi).1
  obtain ⟨hrun, hk⟩ := h.running.threadUnblock hb hu fun hit => hi (hidle t hit)
  refine Inv.keeps h.conts h.idle hidle hrun hk ?_
  rintro u l c hl hcl rfl
  exact hD u l hl hcl

/-- The last step of `thread_create`. -/
theorem Inv.create (h : Inv s) (hl : s.conts s.cur = some (.unblock t :: rest)) :
    Inv (threadUnblock (s.goOn rest) t) := by
  have hc := h.conts
  have ht : t ∈ pending (.unblock t :: rest) := List.mem_cons_self
  have hn := hc.newborn _ _ t hl ht
  have hst : (s.goOn rest).status = s.status := status_goOn
  refine (h.done hl rfl (Same.refl s)).unblock (hst ▸ hn.blocked) hn.unlisted (hn.ne_idle h.idle) ?_
  intro u l hu htl
  rw [goOn_conts hl rest] at hu
  by_cases huc : u = s.cur
  · subst huc
    rw [Function.update_self] at hu
    obtain rfl := Option.some.inj hu
    exact (List.nodup_cons.mp (hc.nodup _ _ hl)).1 htl
  · rw [Function.update_of_ne huc] at hu
    exact huc (hc.creator u s.cur _ _ t hu hl htl ht)

theorem same_condWaiters {f : ℕ → List ℕ} : Same s { s with condWaiters := f } :=
  ⟨rfl, rfl, rfl, rfl, rfl, rfl, rfl, rfl⟩

theorem same_holder {f : ℕ → Option ℕ} : Same s { s with holder := f } :=
  ⟨rfl, rfl, rfl, rfl, rfl, rfl, rfl, rfl⟩

/-- What the caller has to do after a statement, in front of what it had to do. -/
def Stmt.after (s : St) : Stmt → List Stmt
  | .idleLoop => [.idleLoop]
  | .checkPreempt => if needYield s then [.yield] else []
  | .block => [.unblocked]
  | .readTicks n => [.sleepTest s.ticks n]
  | .sleepTest start n => if s.ticks - start < n then [.sleep (start + n)] else []
  | .down y | .downAgain y => if (s.sema y).value = 0 then [.downAgain y] else []
  | .tryAcquire l => if (s.sema (.lock l)).value = 0 then [] else [.setHolder l]
  | .condSignal c =>
    match s.condWaiters c with
    | [] => []
    | w :: _ => [.up (.waiter w), .checkPreempt]
  | .condBroadcast c =>
    match s.condWaiters c with
    | [] => []
    | w :: _ => [.up (.waiter w), .checkPreempt, .condBroadcast c]
  | _ => []

/-- What a plain statement does to the kernel before its thread goes on. -/
def Stmt.act (s : St) : Stmt → St
  | .kernelThread => s.upd s.cur fun t => { t with level := true }
  | .allocTid child => { s with nextTid := s.nextTid + 1 }.upd child fun t => { t with tid := s.nextTid }
  | .inherit child =>
    let s' := match s.threads s.cur with
      | some t => s.upd child fun c => { c with nice := t.nice, recentCpu := t.recentCpu }
      | none => s
    if s.mlfqs then threadCalcPriority s' child else s'
  | .tryDown y => s.setSema y { s.sema y with value := (s.sema y).value - 1 }
  | .setHolder l => { s with holder := Function.update s.holder l (some s.cur) }
  | .clearHolder l => { s with holder := Function.update s.holder l none }
  | .tryAcquire l =>
    if (s.sema (.lock l)).value = 0 then s
    else s.setSema (.lock l) { s.sema (.lock l) with value := (s.sema (.lock l)).value - 1 }
  | .condPush c =>
    { s with condWaiters := Function.update s.condWaiters c (s.condWaiters c ++ [s.cur]) }.setSema
      (.waiter s.cur) { value := 0, waiters := [] }
  | .condSignal c | .condBroadcast c =>
    match s.condWaiters c with
    | [] => s
    | _ :: l => { s with condWaiters := Function.update s.condWaiters c l }
  | .setPriority p => s.setPrio s.cur p
  | .setNice n =>
    let s' := s.upd s.cur fun t => { t with nice := n }
    if s.mlfqs then threadCalcPriority s' s.cur else s'
  | _ => s

/-- A statement that moves no thread. -/
def Stmt.plain : Stmt → Bool
  | .setIdle | .idleLoop | .unblock _ | .yield | .block | .exit | .sleep _ | .down _ | .downAgain _ | .up _ =>
    false
  | _ => true

theorem exec_plain (hx : x.plain = true) : exec s rest x = (x.act s).goOn (x.after s ++ rest) := by
  cases x with
  | setIdle | idleLoop | unblock t | yield | block | exit | sleep n | down y | downAgain y | up y => cases hx
  | checkPreempt | sleepTest start n | tryAcquire l =>
    simp only [exec, Stmt.act, Stmt.after]
    split <;> rfl
  | condSignal c | condBroadcast c =>
    simp only [exec, Stmt.act, Stmt.after]
    cases s.condWaiters c <;> rfl
  | _ => rfl

theorem Inv.same_act (h : Inv s) (x : Stmt) : Same s (x.act s) := by
  have hupd : ∀ (d : St) (t : ℕ) (f : Thread → Thread), (∀ r, (f r).status = r.status) → (∀ r, (f r).cont = r.cont) →
      Same s d → Same s (d.upd t f) := fun d t f hst hc hd => hd.trans (Same.upd hst hc)
  have hcalc : ∀ (d : St) (t : ℕ), Same s d → Same s (if s.mlfqs then threadCalcPriority d t else d) := by
    intro d t hd
    split
    · exact hd.trans same_threadCalcPriority
    · exact hd
  cases x with
  | kernelThread => exact hupd s _ _ (fun _ => rfl) (fun _ => rfl) (Same.refl s)
  | allocTid child =>
    exact hupd _ _ _ (fun _ => rfl) (fun _ => rfl) ⟨rfl, rfl, rfl, rfl, rfl, rfl, rfl, rfl⟩
  | inherit child =>
    refine hcalc _ _ ?_
    split
    · exact hupd s _ _ (fun _ => rfl) (fun _ => rfl) (Same.refl s)
    · exact Same.refl s
  | tryDown y => exact same_setSema rfl
  | setHolder k | clearHolder k => exact same_holder
  | tryAcquire k =>
    simp only [Stmt.act]
    split
    · exact Same.refl s
    · exact same_setSema rfl
  | condPush c =>
    -- nobody waits for the semaphore on the caller's stack
    have hw : (s.sema (.waiter s.cur)).waiters = [] := by
      rw [List.eq_nil_iff_forall_not_mem]
      intro u hu
      obtain rfl := h.conts.waiters _ u hu
      exact h.running.cur_unlisted (.waiters (.waiter s.cur)) hu
    exact same_condWaiters.trans (same_setSema hw.symm)
  | condSignal c | condBroadcast c =>
    simp only [Stmt.act]
    split
    · exact Same.refl s
    · exact same_condWaiters
  | setPriority p => exact same_setPrio
  | setNice n => exact hcalc _ _ (hupd s _ _ (fun _ => rfl) (fun _ => rfl) (Same.refl s))
  | _ => exact Same.refl s

/-- **A plain statement** keeps the invariant. -/
theorem Inv.plain (h : Inv s) (hl : s.conts s.cur = some (x :: rest)) (hx : x.plain = true) :
    Inv (exec s rest x) := by
  rw [exec_plain hx]
  obtain ⟨hok, hback, hguard, hnone⟩ : (∀ y ∈ x.after s, y.okFor s.cur) ∧ .unblocked ∉ (x.after s).tail ∧
      (Guarded s.mlfqs rest → Guarded s.mlfqs (x.after s ++ rest)) ∧ pending (x.after s) = [] := by
    cases x with
    | idleLoop | block | down y | downAgain y => cases hx
    | checkPreempt | sleepTest start n | tryAcquire k | condSignal c | condBroadcast c =>
      simp only [Stmt.after]
      split <;> simp [Stmt.okFor, Guarded, Stmt.next, pending, Stmt.creates]
    | _ => simp [Stmt.after, Stmt.okFor, Guarded, Stmt.next, pending, Stmt.creates]
  refine h.stmt hl (h.same_act x) _ hok hback hguard hnone fun hc => ?_
  have hm := h.idle.mem hl hc
  cases x with
  | kernelThread => cases hi : s.idleThread <;> simp_all [idleConts, idleCode, Stmt.after]
  | checkPreempt =>
    simp only [Stmt.after]
    split <;> cases hi : s.idleThread <;> simp_all [idleConts, idleCode]
  | setIdle | idleLoop | yield | up y => cases hx
  | _ => exact absurd hc (h.idle.ne hl rfl)

/-- **One statement of the thread on the CPU keeps the invariant.** -/
theorem Inv.exec (h : Inv s) (hl : s.conts s.cur = some (x :: rest)) : Inv (exec s rest x) := by
  by_cases hplain : x.plain = true
  · exact h.plain hl hplain
  have hok := h.conts.okFor _ _ hl x List.mem_cons_self
  have hnext : (x :: rest ∈ idleConts s.idleThread → rest ∈ idleConts s.idleThread) → Inv (s.goOn rest) :=
    h.next hl (Same.refl s)
  cases x with
  | setIdle => exact h.setIdle hl
  | idleLoop =>
    have hg : Inv (s.goOn (.idleLoop :: rest)) := h.stmt hl (Same.refl s) [.idleLoop]
      (by simp [Stmt.okFor]) (by simp)
        (by simp [Guarded, Stmt.next]) rfl (h.idle.mem hl)
    refine hg.threadBlock _ ?_ (goOn_conts_cur hl) rfl rfl rfl rfl rfl rfl rfl rfl (.inl rfl)
    -- before it has set `idle_thread` the idle thread has not come to its loop
    intro hi hc
    have hm := h.idle.mem hl hc
    rw [show s.idleThread = none from hi] at hm
    simp [idleConts, idleCode] at hm
  | unblock t => exact h.create hl
  | yield =>
    have hg := hnext (by cases s.idleThread <;> simp +contextual [idleConts, idleCode])
    exact hg.op hg.running.threadYield
  | block =>
    have hg : Inv (s.goOn (.unblocked :: rest)) :=
      h.insert hl rfl (Same.refl s) [.unblocked] (by simp [Stmt.okFor]) (by simp)
        (by simp [Guarded, Stmt.next]) rfl
    exact hg.threadBlock _ (fun _ => h.idle.ne hl rfl) (goOn_conts_cur hl) rfl rfl rfl rfl rfl rfl rfl
      rfl (.inl rfl)
  | exit =>
    have hg := h.done hl rfl (Same.refl s)
    exact hg.op (hg.running.threadExit (h.idle.ne hl rfl))
  | sleep n => exact h.sleep hl
  | down y | downAgain y => exact h.semaDown hl rfl fun w he => by subst he; exact hok
  | up y =>
    have hg := hnext (by cases s.idleThread <;> simp +contextual [idleConts, idleCode])
    exact hg.op (hg.running.semaUp y)
  | _ => exact absurd rfl hplain

/-! ### Calls -/

/-- `init_thread` in `thread_create`: the new thread is blocked and in no list. -/
theorem Inv.initThread (h : Inv s) {child : ℕ} {p : ℤ} (hnone : s.threads child = none) :
    Inv (initThread s child p) ∧ Newborn (initThread s child p) child ∧
      ∀ t k, (initThread s child p).conts t = some k → child ∉ pending k := by
  have hr := h.running
  have hc := h.conts
  have hst : (Threads.initThread s child p).status =
      Function.update s.status child (some .blocked) := by
    funext u
    by_cases hu : u = child
    · subst hu
      simp [St.status, Threads.initThread]
    · simp [St.status, Threads.initThread, Function.update_of_ne hu]
  have hct : (Threads.initThread s child p).conts =
      Function.update s.conts child (some [.kernelThread]) := by
    funext u
    by_cases hu : u = child
    · subst hu
      simp [St.conts, Threads.initThread]
    · simp [St.conts, Threads.initThread, Function.update_of_ne hu]
  have hdead : s.status child = none := by simp [St.status, hnone]
  have hne : ∀ {u y}, s.status u = some y → u ≠ child := by
    rintro u y hu rfl
    rw [hdead] at hu
    cases hu
  have hold : ∀ {u y}, s.status u = some y → (Threads.initThread s child p).status u = some y := by
    intro u y hu
    rw [hst, Function.update_of_ne (hne hu)]
    exact hu
  have hback : ∀ {u y}, y ≠ .blocked → (Threads.initThread s child p).status u = some y →
      s.status u = some y := by
    intro u y hy hu
    rw [hst] at hu
    by_cases huc : u = child
    · subst huc
      rw [Function.update_self] at hu
      exact absurd (Option.some.inj hu).symm hy
    · rwa [Function.update_of_ne huc] at hu
  have hun : Unlisted (Threads.initThread s child p) child := fun q hq => hne (hr.core.status q _ hq) rfl
  -- the continuation of a thread is that of the new one, or an old one
  have hcase : ∀ {t k}, (Threads.initThread s child p).conts t = some k →
      k = [.kernelThread] ∧ t = child ∨ s.conts t = some k := by
    intro t k hk
    rw [hct] at hk
    by_cases ht : t = child
    · subst ht
      rw [Function.update_self] at hk
      exact .inl ⟨(Option.some.inj hk).symm, rfl⟩
    · rw [Function.update_of_ne ht] at hk
      exact .inr hk
  have hborn : ∀ {c}, Newborn s c → Newborn (Threads.initThread s child p) c := by
    intro c hn
    refine ⟨hold hn.blocked, ?_, hn.unlisted⟩
    rw [hct, Function.update_of_ne (hne hn.blocked)]
    exact hn.cont
  have hpend : pending [.kernelThread] = [] := rfl
  have hcore : Core (Threads.initThread s child p) := by
    refine ⟨hr.core.nodup, hr.core.unique, fun q u hu => hold (hr.core.status q u hu), ?_, ?_⟩
    · refine List.Nodup.append hr.core.all_nodup (List.nodup_singleton child) ?_
      intro u hu hu'
      obtain rfl := List.mem_singleton.mp hu'
      obtain ⟨y, hy, -⟩ := (hr.core.all u).mp hu
      exact hne hy rfl
    · intro u
      change u ∈ s.allList ++ [child] ↔ _
      rw [List.mem_append, List.mem_singleton, hr.core.all u, hst]
      by_cases hu : u = child
      · subst hu
        simp
      · rw [Function.update_of_ne hu]
        simp [hu]
  refine ⟨⟨⟨⟨hr.ok, hcore, hold hr.cur, ?_, ?_, hr.idle, ?_, hr.boot⟩, ?_⟩, ⟨?_, ?_, ?_, ?_,
    hc.waiters, ?_, ?_, ?_⟩, ?_⟩, ⟨?_, ?_, hun⟩, ?_⟩
  · exact fun t ht => hr.running t (hback (by simp) ht)
  · exact fun t ht hi => hr.ready t (hback (by simp) ht) hi
  · obtain ⟨y, hy, hyd⟩ := hr.idle_alive
    exact ⟨y, hold hy, hyd⟩
  · exact fun t ht => hr.dying t (hback (by simp) ht)
  · intro t k hk
    rcases hcase hk with ⟨rfl, -⟩ | hk
    · simp [Stmt.okFor]
    · exact hc.okFor t k hk
  · intro t k c hk hck
    rcases hcase hk with ⟨rfl, -⟩ | hk
    · rw [hpend] at hck
      exact absurd hck List.not_mem_nil
    · exact hborn (hc.newborn t k c hk hck)
  · intro t k hk
    rcases hcase hk with ⟨rfl, -⟩ | hk
    · exact List.nodup_nil
    · exact hc.nodup t k hk
  · intro t u k k' c hk hk' hck hck'
    rcases hcase hk with ⟨rfl, -⟩ | hk
    · rw [hpend] at hck
      exact absurd hck List.not_mem_nil
    · rcases hcase hk' with ⟨rfl, -⟩ | hk'
      · rw [hpend] at hck'
        exact absurd hck' List.not_mem_nil
      · exact hc.creator t u k k' c hk hk' hck hck'
  · intro t k hk
    rcases hcase hk with ⟨rfl, -⟩ | hk
    · simp
    · exact hc.back t k hk
  · intro t k hk hb
    rcases hcase hk with ⟨he, -⟩ | hk
    · cases he
    · obtain ⟨y, hy⟩ : ∃ y, s.status t = some y := by
        cases hr' : s.threads t with
        | none => simp [St.conts, hr'] at hk
        | some r => exact ⟨r.status, by simp [St.status, hr']⟩
      have hb' := (hold hy).symm.trans hb
      exact hc.parked t k hk (hy.trans hb')
  · intro t k hk
    rcases hcase hk with ⟨rfl, -⟩ | hk
    · simp [Guarded, Stmt.next]
    · exact hc.guarded t k hk
  · obtain ⟨k, hk, hm⟩ := h.idle
    obtain ⟨y, hy, -⟩ := hr.idle_alive
    refine ⟨k, ?_, hm⟩
    rw [hct, Function.update_of_ne (hne hy)]
    exact hk
  · rw [hst, Function.update_self]
  · rw [hct, Function.update_self]
  · intro t k hk hck
    rcases hcase hk with ⟨rfl, -⟩ | hk
    · rw [hpend] at hck
      exact List.not_mem_nil hck
    · exact hne (hc.newborn t k child hk hck).blocked rfl

/-- The thread on the CPU starts an operation that creates no thread. -/
theorem Inv.start (h : Inv s) (hl : s.conts s.cur = some []) {d : St} (hs : Same s d)
    (hok : ∀ y ∈ l', y.okFor s.cur) (hback : .unblocked ∉ l'.tail) (hguard : Guarded s.mlfqs l')
    (hnone : pending l' = []) : Inv (d.goOn l') := by
  refine (h.same hs).advance (l := []) ?_ ?_ hback (hs.mlfqs ▸ hguard) ?_ ?_
  · rw [hs.conts, hs.cur]
    exact hl
  · rw [hs.cur]
    exact hok
  · rw [hnone]
    exact List.nil_sublist _
  · intro hc
    rw [hs.cur] at hc
    exact absurd hc (h.idle.ne_nil hl)

/-- A thread that waits in its own `thread_block` is in no list, and nobody is creating it. -/
theorem Inv.parked (h : Inv s) (hp : parked s t = true) : s.status t = some .blocked ∧
    Unlisted s t ∧ t ≠ idlePage ∧ ∀ u l, s.conts u = some l → t ∉ pending l := by
  unfold Threads.parked at hp
  cases hr : s.threads t with
  | none => simp [hr] at hp
  | some r =>
    simp only [hr, Bool.and_eq_true, decide_eq_true_eq] at hp
    obtain ⟨hb, hhead⟩ := hp
    obtain ⟨k, hk⟩ : ∃ k, r.cont = .unblocked :: k := List.head?_eq_some_iff.mp hhead
    have hst : s.status t = some .blocked := by simp [St.status, hr, hb]
    have hct : s.conts t = some (.unblocked :: k) := by simp [St.conts, hr, hk]
    refine ⟨hst, h.conts.parked t k hct hst, h.idle.ne hct rfl, ?_⟩
    -- a thread under creation has not run yet
    intro u l hl htl
    have hn := (h.conts.newborn u l t hl htl).cont
    rw [hct] at hn
    cases hn

/-- **A call keeps the invariant.** -/
theorem Inv.call (h : Inv s) (hl : s.conts s.cur = some []) {r : Thread} {c : Call}
    (hc : canCall s r c = true) : Inv ((enter s c).goOn (code s.mlfqs s.cur c)) := by
  cases c with
  | threadCreate child p =>
    have hnone : s.threads child = none := by
      simp only [canCall, Bool.and_eq_true, Option.isNone_iff_eq_none] at hc
      exact hc.1.1
    obtain ⟨hi, hn, hno⟩ := h.initThread (p := p) hnone
    have hcc : s.cur ≠ child := by
      rintro rfl
      simp [St.conts, hnone] at hl
    have hl' : (Threads.initThread s child p).conts s.cur = some [] := by
      simpa [St.conts, Threads.initThread, Function.update_of_ne hcc] using hl
    have hp : pending (code s.mlfqs s.cur (.threadCreate child p)) = [child] := rfl
    refine ⟨hi.running.goOn _, hi.conts.goOn hi.running.cur hl' ?_ ?_ ?_ ?_ ?_,
      hi.idle.goOn hl' ?_⟩
    · simp [code, lockAcquire, lockRelease, Stmt.okFor]
    · simp [code, lockAcquire, lockRelease]
    · simp [code, lockAcquire, lockRelease, Guarded, Stmt.next]
    · rw [hp]
      exact List.nodup_singleton child
    · intro c' hc'
      rw [hp] at hc'
      obtain rfl := List.mem_singleton.mp hc'
      exact .inr ⟨hn, hno⟩
    · exact fun hcur => absurd hcur (h.idle.ne_nil hl)
  | threadUnblock u =>
    obtain ⟨hb, hu, hne, hD⟩ := h.parked hc
    have heq : Threads.threadUnblock s u = insertReady s u := if_pos hb
    refine (h.unblock hb hu hne hD).start ?_ (Same.refl _) (by simp [code]) (by simp [code]) trivial rfl
    rw [heq, insertReady_conts]
    exact hl
  | condWait c k =>
    refine h.start hl (Same.refl s) ?_ ?_ ?_ rfl
    · simp [code, lockAcquire, lockRelease, Stmt.okFor]
    · simp [code, lockAcquire, lockRelease]
    · simp [code, lockAcquire, lockRelease, Guarded, Stmt.next]
  | setNice n =>
    refine h.start hl (Same.refl s) ?_ ?_ ?_ ?_
    all_goals cases s.mlfqs <;> simp [code, Stmt.okFor, pending, Stmt.creates, Guarded, Stmt.next]
  | intrDisable | intrEnable =>
    exact h.start hl (Same.upd (fun _ => rfl) fun _ => rfl) (by simp [code]) (by simp [code]) trivial
      rfl
  | _ =>
    exact h.start hl (Same.refl s) (by simp [code, lockAcquire, lockRelease, Stmt.okFor])
      (by simp [code, lockAcquire, lockRelease])
      (by simp [code, lockAcquire, lockRelease, Guarded, Stmt.next]) rfl

/-! ### Runs -/

/-- **Every step keeps the invariant.** -/
theorem Inv.step (h : Inv s) {a : Act} (hs : step s a = some s') : Inv s' := by
  have hr := h.running
  obtain ⟨t, ht⟩ : ∃ t, s.threads s.cur = some t := by
    have hc := hr.cur
    cases hp : s.threads s.cur with
    | none => simp [St.status, hp] at hc
    | some t => exact ⟨t, rfl⟩
  have hst : t.status = .running := by
    have hc := hr.cur
    simpa [St.status, ht] using hc
  have hl : s.conts s.cur = some t.cont := by simp [St.conts, ht]
  simp only [Threads.step, hr.ok, ht, hst, if_true, Bool.false_eq_true, if_false] at hs
  cases a with
  | call c =>
    simp only [stepAt] at hs
    split at hs
    · rename_i hg
      cases hs
      exact h.call (hg.1 ▸ hl) hg.2
    · cases hs
  | run =>
    simp only [stepAt] at hs
    cases hcont : t.cont with
    | nil => simp [hcont] at hs
    | cons x rest =>
      simp only [hcont, Option.some.injEq] at hs
      subst hs
      exact h.exec (hcont ▸ hl)
  | tick =>
    simp only [stepAt] at hs
    split at hs
    · cases hs
      exact h.op (Running.intrHandler fun d hd => (hr.same hd).timerInterrupt)
    · cases hs
  | intrSemaUp n =>
    simp only [stepAt] at hs
    split at hs
    · cases hs
      refine h.op (Running.intrHandler fun d hd => ?_)
      obtain ⟨hrun, hk⟩ := (hr.same hd).semaUp (.plain n)
      exact ⟨hrun.same same_checkPreemptIntr, hk.trans same_checkPreemptIntr.keeps⟩
    · cases hs
  | intrUnblock u =>
    simp only [stepAt] at hs
    split at hs
    · rename_i hg
      cases hs
      obtain ⟨hb, hu, hne, hD⟩ := h.parked hg.2
      have hidle : ∀ i, s.idleThread = some i → i = idlePage := fun i hi => (hr.idle i hi).1
      obtain ⟨hrun, hk⟩ := Running.intrHandler (s := s) (D := (· = u))
        (f := fun d => threadUnblock d u) fun d hd => (hr.same hd).threadUnblock (hd.status ▸ hb)
          (fun q hq => hu q (by rwa [hd.queue] at hq)) fun hi => hne (hidle u (hd.idleThread ▸ hi))
      refine Inv.keeps h.conts h.idle hidle hrun hk ?_
      rintro v l c hl' hcl rfl
      exact hD v l hl' hcl
    · cases hs

end Inv

section Initial

variable {aging mlfqs : Bool} {value : ℕ → ℕ} {t : ℕ}

theorem initial_status {x : Status} : (initial aging mlfqs value).status t = some x ↔
    t = initialThread ∧ x = .running ∨ t = idlePage ∧ x = .ready := by
  by_cases h0 : t = initialThread
  · subst h0
    simp [St.status, initial, initialThread, idlePage, eq_comm]
  · by_cases h1 : t = idlePage
    · subst h1
      simp [St.status, initial, initialThread, idlePage, eq_comm]
    · simp [St.status, initial, h0, h1]

theorem initial_conts {l : List Stmt} : (initial aging mlfqs value).conts t = some l ↔
    t = initialThread ∧ l = [.down idleStarted] ∨
      t = idlePage ∧ l = .kernelThread :: .setIdle :: idleCode := by
  by_cases h0 : t = initialThread
  · subst h0
    simp [St.conts, initial, initialThread, idlePage, eq_comm]
  · by_cases h1 : t = idlePage
    · subst h1
      simp [St.conts, initial, initialThread, idlePage, eq_comm]
    · simp [St.conts, initial, h0, h1]

theorem initial_queue {q : Queue} : (initial aging mlfqs value).queue q =
    if q = .ready then [idlePage] else [] := by
  cases q with
  | waiters x => cases x <;> rfl
  | _ => rfl

theorem mem_initial_queue {q : Queue} (h : t ∈ (initial aging mlfqs value).queue q) :
    q = .ready ∧ t = idlePage := by
  rw [initial_queue] at h
  split at h
  · next hq => exact ⟨hq, List.mem_singleton.mp h⟩
  · exact absurd h List.not_mem_nil

/-- The invariant holds when `thread_start` waits for the idle thread. -/
theorem Inv.initial : Inv (initial aging mlfqs value) := by
  have hpend : ∀ t l, (Threads.initial aging mlfqs value).conts t = some l → pending l = [] := by
    intro t l hl
    rcases initial_conts.mp hl with ⟨-, rfl⟩ | ⟨-, rfl⟩ <;> rfl
  have hcore : Core (Threads.initial aging mlfqs value) := by
    refine ⟨fun q => ?_, fun q q' t hq hq' => ?_, fun q t hq => ?_, ?_, fun t => ?_⟩
    · rw [initial_queue]
      split
      · exact List.nodup_singleton _
      · exact List.nodup_nil
    · rw [(mem_initial_queue hq).1, (mem_initial_queue hq').1]
    · obtain ⟨rfl, rfl⟩ := mem_initial_queue hq
      exact initial_status.mpr (.inr ⟨rfl, rfl⟩)
    · change [initialThread, idlePage].Nodup
      decide
    · change t ∈ [initialThread, idlePage] ↔ _
      simp only [initial_status, List.mem_cons, List.not_mem_nil, or_false]
      constructor
      · rintro (rfl | rfl)
        · exact ⟨.running, .inl ⟨rfl, rfl⟩, by simp⟩
        · exact ⟨.ready, .inr ⟨rfl, rfl⟩, by simp⟩
      · rintro ⟨x, ⟨ht, -⟩ | ⟨ht, -⟩, -⟩
        · exact .inl ht
        · exact .inr ht
  refine ⟨⟨⟨rfl, hcore, initial_status.mpr (.inl ⟨rfl, rfl⟩), ?_, ?_, ?_, ?_, ?_⟩, ?_⟩,
    ⟨?_, ?_, ?_, ?_, ?_, ?_, ?_, ?_⟩, ?_⟩
  · intro t ht
    rcases initial_status.mp ht with ⟨ht, -⟩ | ⟨-, hf⟩
    · exact ht
    · cases hf
  · intro t ht _
    rcases initial_status.mp ht with ⟨-, hf⟩ | ⟨rfl, -⟩
    · cases hf
    · exact List.mem_cons_self
  · intro i hi
    cases hi
  · exact ⟨.ready, initial_status.mpr (.inr ⟨rfl, rfl⟩), by simp⟩
  · exact fun _ => .inl List.mem_cons_self
  · intro t ht
    rcases initial_status.mp ht with ⟨-, hf⟩ | ⟨-, hf⟩ <;> cases hf
  · intro t l hl
    rcases initial_conts.mp hl with ⟨rfl, rfl⟩ | ⟨rfl, rfl⟩ <;>
      simp [Stmt.okFor, idleCode, idleStarted]
  · intro t l c hl hcl
    rw [hpend t l hl] at hcl
    exact absurd hcl List.not_mem_nil
  · intro t l hl
    rw [hpend t l hl]
    exact List.nodup_nil
  · intro t u l k c hl _ hcl _
    rw [hpend t l hl] at hcl
    exact absurd hcl List.not_mem_nil
  · intro t u hu
    cases (mem_initial_queue hu).1
  · intro t l hl
    rcases initial_conts.mp hl with ⟨-, rfl⟩ | ⟨-, rfl⟩ <;> simp [idleCode]
  · intro t l hl
    rcases initial_conts.mp hl with ⟨-, hf⟩ | ⟨-, hf⟩ <;> cases hf
  · intro t l hl
    rcases initial_conts.mp hl with ⟨-, rfl⟩ | ⟨-, rfl⟩ <;> simp [Guarded, Stmt.next, idleCode]
  · exact ⟨_, initial_conts.mpr (.inr ⟨rfl, rfl⟩), List.mem_cons_self⟩

end Initial

theorem Inv.reachable {s : St} (h : sys.Reachable s) : Inv s := by
  refine h.invariant ?_ fun s a s' hi _ hs => hi.step hs
  rintro s ⟨aging, mlfqs, value, rfl⟩
  exact Inv.initial

/-! ### What the invariant says about states and queues -/

/-- The status of every thread and the list its `elem` is in agree. -/
structure Agree (s : St) : Prop where
  -- exactly one thread is running, and it is the one on the CPU
  running : ∀ t, s.status t = some .running ↔ t = s.cur
  -- the ready threads are those in `ready_list`, the idle thread apart, and each is there once
  ready : ∀ t, s.idleThread ≠ some t → (s.status t = some .ready ↔ t ∈ s.readyList)
  once : ∀ q, (s.queue q).Nodup
  -- a thread in `Sleep_list` or in the waiters of a semaphore is blocked
  blocked : ∀ t, (t ∈ s.sleepList ∨ ∃ x, t ∈ (s.sema x).waiters) → s.status t = some .blocked
  -- no `elem` is in two lists
  unique : ∀ q q' t, t ∈ s.queue q → t ∈ s.queue q' → q = q'
  -- the idle thread never sleeps, and once it has run it is never in `ready_list`
  idle : idlePage ∉ s.sleepList ∧ ∀ i, s.idleThread = some i → i = idlePage ∧ i ∉ s.readyList
  -- `all_list` holds each thread that is not dead once
  all : s.allList.Nodup ∧ ∀ t, t ∈ s.allList ↔ ∃ x, s.status t = some x ∧ x ≠ .dying
  -- the assertions of `thread_unblock`, `thread_current` and `schedule` have held
  asserts : s.panicked = false

/-- **Thread states and queues agree** in every state a run of the kernel's threads reaches, in any
scheduling mode. -/
theorem agree {s : St} (h : sys.Reachable s) : Agree s := by
  have hi := Inv.reachable h
  have hr := hi.running
  refine ⟨fun t => ⟨hr.running t, ?_⟩, fun t hit => ⟨fun ht => hr.ready t ht hit, ?_⟩,
    hr.core.nodup, ?_, hr.core.unique, ⟨?_, ?_⟩, ⟨hr.core.all_nodup, hr.core.all⟩, hr.ok⟩
  · rintro rfl
    exact hr.cur
  · exact hr.core.status .ready t
  · rintro t (ht | ⟨x, ht⟩)
    · exact hr.core.status .sleep t ht
    · exact hr.core.status (.waiters x) t ht
  · intro hm
    cases hid : s.idleThread with
    | some i =>
      obtain ⟨rfl, hu⟩ := hr.idle i hid
      exact hu .sleep hm
    | none =>
      -- before it has run, the idle thread is ready or running
      have hb := hr.core.status .sleep idlePage hm
      rcases hr.boot hid with hready | hcur
      · exact absurd (hr.core.unique .sleep .ready idlePage hm hready) (by simp)
      · rw [← hcur, hr.cur] at hb
        cases hb
  · intro i hid
    obtain ⟨hp, hu⟩ := hr.idle i hid
    exact ⟨hp, hu .ready⟩

/-- The idle thread runs once, the initial thread creates a thread of higher priority that sleeps,
and then one of lower priority. -/
def sleepAndCreate : List Act :=
  List.replicate 7 Act.run ++ Act.call (.threadCreate 2 40) :: List.replicate 11 Act.run ++
    Act.call (.timerSleep 5) :: List.replicate 3 Act.run ++
    Act.call (.threadCreate 3 10) :: List.replicate 9 Act.run

theorem agree_sleepAndCreate : ∃ s, sys.Reachable s ∧ s.idleThread = some idlePage ∧
    s.sleepList = [2] ∧ s.readyList = [3] ∧ s.cur = initialThread ∧ Agree s := by
  obtain ⟨s, hrun, hidle, hsleep, hready, hcur⟩ := System.exists_of_runWith
    (fun s => s.idleThread = some idlePage ∧ s.sleepList = [2] ∧ s.readyList = [3] ∧
      s.cur = initialThread)
    (show (sys.run (initial false false fun _ => 0) sleepAndCreate).any _ = true by decide +kernel)
  have hr : sys.Reachable s := System.reachable_of_run ⟨false, false, fun _ => 0, rfl⟩ hrun
  exact ⟨s, hr, hidle, hsleep, hready, hcur, agree hr⟩

end Threads
end Pintos

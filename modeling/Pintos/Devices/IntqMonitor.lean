import Pintos.Devices.Intq

/-!
# When an interrupt queue is a correct monitor

`intq_getc` and `intq_putc` test the queue, and if they have to wait they take the queue's lock and
call `wait`, which asserts that the test still fails. A thread that gets the lock at once runs from
the test to `wait` without giving up the CPU. A thread that has slept for the lock does not: the
thread in front of it has been woken because the condition has become true, and `sema_up` in its
`lock_release` hands the CPU to the sleeper before the byte is taken if the sleeper's priority is
higher.

`Inv` is the invariant of the runs in which no thread enters `wait` with the condition true after it
has slept for the lock (`Stale`). The main result is `monitor_iff_not_stale`: in these runs no
assertion fails, the queue is first-in first-out and bounded, and a recorded waiter has not been
woken; and a stale call of `wait` does fail its assertion.
-/

namespace Pintos
namespace Devices

open Threads (Stmt Moves)

/-- What a thread inside of `intq_getc` or `intq_putc` can have to do of the kernel functions it has
called. -/
def Pc.conts : Pc → List (List Stmt)
  | .idle => []
  | .test _ => [[]]
  | .acquiring _ false => [Threads.lockAcquire intqLock, [.setHolder intqLock], []]
  | .acquiring _ true =>
    [[.downAgain (.lock intqLock), .setHolder intqLock], [.setHolder intqLock], []]
  | .waiting _ => [[.unblocked], []]
  | .releasing _ =>
    [Threads.lockRelease intqLock, [.up (.lock intqLock), .checkPreempt], [.checkPreempt], [.yield],
      []]

/-- What a thread at `p` has to do. Outside of the queue's functions it does not name the lock. -/
def Pc.shape (p : Pc) (l : List Stmt) : Prop :=
  if p = .idle then ∀ y ∈ l, y.spares intqLock = true else l ∈ p.conts

/-- A thread at `p` that has to do `l` has the unit of the lock's semaphore. -/
def Pc.owns : Pc → List Stmt → Prop
  | .acquiring _ _, l => l ∈ [[.setHolder intqLock], []]
  | .waiting _, _ => True
  | .releasing _, l =>
    l ∈ [Threads.lockRelease intqLock, [.up (.lock intqLock), .checkPreempt]]
  | _, _ => False

/-- It is the holder of the lock. -/
def Pc.holds : Pc → List Stmt → Prop
  | .acquiring _ _, l => l = []
  | .waiting _, _ => True
  | .releasing _, l => l = Threads.lockRelease intqLock
  | _, _ => False

/-- What the thread `t` has to do satisfies `P`. -/
def Has (k : Threads.St) (t : ℕ) (P : List Stmt → Prop) : Prop := ∃ l, k.conts t = some l ∧ P l

/-- A semaphore of value `v` with one unit, and who has the unit. -/
def OneUnit (v : ℕ) (owner : ℕ → Prop) : Prop :=
  v = 1 ∧ (∀ t, ¬ owner t) ∨ v = 0 ∧ ∃ w, ∀ t, owner t ↔ t = w

/-- A thread at `p`. -/
structure At (k : Threads.St) (p : Pc) (t : ℕ) : Prop where
  alive : p ≠ .idle → t ∈ k.allList
  level : p ≠ .idle → k.level t = some false
  shape : ∀ l, k.conts t = some l → p.shape l

/-- The thread `w` waits for `c`. -/
def Waits (s : St) (c : Cond) (w : ℕ) : Prop :=
  s.k.status w = some .blocked ∧ s.k.conts w = some [.unblocked] ∧
    ∃ op, s.pc w = .waiting op ∧ op.needs = c

structure Inv (s : St) : Prop where
  kernel : Threads.Inv s.k
  ok : s.failed = false
  log : s.put = s.got ++ s.q.ring.contents
  threads : ∀ t, At s.k (s.pc t) t
  unit : OneUnit (s.k.sema (.lock intqLock)).value fun t => Has s.k t (s.pc t).owns
  holder : ∀ t, s.k.holder intqLock = some t ↔ Has s.k t (s.pc t).holds
  waiter : ∀ c w, s.q.waiter c = some w → Waits s c w
  -- a thread that has not slept for the lock has not been off the CPU since its test
  fresh : ∀ t op, s.pc t = .acquiring op false → t = s.k.cur ∧ s.q.holds op.needs = false

section Inv

variable {s s' : St} {k k' : Threads.St} {p p' : Pc} {t c : ℕ} {X D : ℕ → Prop}

/-- One thread takes the unit, gives it back, or does neither. -/
theorem OneUnit.change {v v' : ℕ} {O O' : ℕ → Prop} (h : OneUnit v O)
    (hO : ∀ t, t ≠ c → (O' t ↔ O t))
    (hc : v' = v ∧ (O' c ↔ O c) ∨ v' + 1 = v ∧ O' c ∨ v' = v + 1 ∧ O c ∧ ¬ O' c) :
    OneUnit v' O' := by
  have hall : (O' c ↔ O c) → ∀ t, O' t ↔ O t := fun hcc t => by
    by_cases ht : t = c
    · rw [ht, hcc]
    · exact hO t ht
  rcases hc with ⟨rfl, hcc⟩ | ⟨hv, hc'⟩ | ⟨hv, hoc, hc'⟩
  · simpa only [OneUnit, hall hcc] using h
  · -- the unit was free
    rcases h with ⟨hv1, hno⟩ | ⟨hv0, -⟩
    · refine .inr ⟨by omega, c, fun t => ?_⟩
      by_cases ht : t = c
      · simp [ht, hc']
      · simp [hO t ht, hno t, ht]
    · omega
  · rcases h with ⟨-, hno⟩ | ⟨hv0, w, hw⟩
    · exact absurd hoc (hno c)
    · obtain rfl := (hw c).mp hoc
      refine .inl ⟨by omega, fun t hot => ?_⟩
      by_cases ht : t = c
      · exact hc' (ht ▸ hot)
      · exact ht ((hw t).mp ((hO t ht).mp hot))

theorem OneUnit.unique {v : ℕ} {O : ℕ → Prop} (h : OneUnit v O) {t u : ℕ} (ht : O t) (hu : O u) :
    t = u := by
  rcases h with ⟨-, hno⟩ | ⟨-, w, hw⟩
  · exact absurd ht (hno t)
  · rw [(hw t).mp ht, (hw u).mp hu]

/-! ### Threads that a step is not about -/

theorem At.moves (h : At k p t) (hm : Moves X D k k') (hX : ¬ X t) : At k' p t := by
  refine ⟨fun hp => hm.alive t hX (h.alive hp), fun hp => ?_, fun l hl => ?_⟩
  · rw [hm.level t hX (h.alive hp)]
    exact h.level hp
  · by_cases hp : p = .idle
    · rcases hm.born t l hX hl with hl | rfl
      · exact h.shape l hl
      · subst hp
        simp [Pc.shape, Stmt.spares]
    · rw [hm.conts t hX (h.alive hp)] at hl
      exact h.shape l hl

theorem At.has_iff (h : At k p t) (hm : Moves X D k k') (hX : ¬ X t)
    {P : Pc → List Stmt → Prop} (hP : ∀ l, ¬ P .idle l) : Has k' t (P p) ↔ Has k t (P p) := by
  by_cases hp : p = .idle
  · subst hp
    exact ⟨fun ⟨l, _, hl⟩ => absurd hl (hP l), fun ⟨l, _, hl⟩ => absurd hl (hP l)⟩
  · simp only [Has, hm.conts t hX (h.alive hp)]

theorem Pc.owns_of_holds {l : List Stmt} (h : p.holds l) : p.owns l := by
  cases p with
  | idle | test => exact h
  | waiting => trivial
  | acquiring | releasing =>
    subst h
    simp [Pc.owns]

/-- The thread on the CPU is not a recorded waiter. -/
theorem Waits.ne_cur (h : Threads.Inv s.k) {x : Cond} (hw : Waits s x t) : t ≠ s.k.cur := by
  rintro rfl
  have hb := hw.1
  rw [h.running.cur] at hb
  cases hb

theorem Waits.moves (h : Inv s) {x : Cond} (hw : Waits s x t) (hm : Moves (· = s.k.cur) D s.k s'.k)
    (hD : ¬ D t) (hpc : s'.pc t = s.pc t) : Waits s' x t := by
  have hne := hw.ne_cur h.kernel
  obtain ⟨hb, hc, op, hp, hop⟩ := hw
  refine ⟨hm.spared t hD ?_ hb (h.kernel.conts.parked t [] hc hb), ?_, op, hpc.trans hp, hop⟩
  · exact fun hi => h.kernel.idle.ne hc rfl (h.kernel.running.idle t hi).1
  · rw [hm.conts t hne ((h.threads t).alive (by simp [hp]))]
    exact hc

/-- **A step of the thread on the CPU**, which goes from its place to `p'`. The lock is left alone,
taken or released; the thread may record itself as a waiter. -/
theorem Inv.move (h : Inv s) (p' : Pc) (hpc : s'.pc = Function.update s.pc s.k.cur p')
    (hk : Threads.Inv k') (hkk : s'.k = k') (hm : Moves (· = s.k.cur) D s.k k') (hok : s'.failed = false)
    (hlog : s'.put = s'.got ++ s'.q.ring.contents) (hcur : At k' p' s.k.cur)
    (hunit : let v := (s.k.sema (.lock intqLock)).value
      let v' := (k'.sema (.lock intqLock)).value
      let own := Has s.k s.k.cur (s.pc s.k.cur).owns
      let own' := Has k' s.k.cur p'.owns
      v' = v ∧ (own' ↔ own) ∨ v' + 1 = v ∧ own' ∨ v' = v + 1 ∧ own ∧ ¬ own')
    (hholder : let hold' := Has k' s.k.cur p'.holds
      k'.holder intqLock = s.k.holder intqLock ∧
          (hold' ↔ Has s.k s.k.cur (s.pc s.k.cur).holds) ∨
        Has s.k s.k.cur (s.pc s.k.cur).owns ∧ (k'.holder intqLock = some s.k.cur ∧ hold' ∨
          k'.holder intqLock = none ∧ ¬ hold'))
    (hwaiter : ∀ c w, s'.q.waiter c = some w →
      s.q.waiter c = some w ∧ ¬ D w ∨ w = s.k.cur ∧ Waits s' c w)
    (hfresh : ∀ op, p' = .acquiring op false →
      k'.cur = s.k.cur ∧ s'.q.holds op.needs = false) : Inv s' := by
  subst hkk
  have hself : s'.pc s.k.cur = p' := by rw [hpc, Function.update_self]
  have hother : ∀ {t}, t ≠ s.k.cur → s'.pc t = s.pc t := fun ht => by
    rw [hpc, Function.update_of_ne ht]
  have howns : ∀ t, t ≠ s.k.cur → (Has s'.k t (s'.pc t).owns ↔ Has s.k t (s.pc t).owns) :=
    fun t ht => by rw [hother ht]; exact (h.threads t).has_iff hm ht fun _ => id
  have hholds : ∀ t, t ≠ s.k.cur → (Has s'.k t (s'.pc t).holds ↔ Has s.k t (s.pc t).holds) :=
    fun t ht => by rw [hother ht]; exact (h.threads t).has_iff hm ht fun _ => id
  refine ⟨hk, hok, hlog, fun t => ?_, h.unit.change howns (by rwa [hself]), fun t => ?_,
    fun c w hw => ?_, fun t op ht => ?_⟩
  · by_cases ht : t = s.k.cur
    · subst ht
      rwa [hself]
    · rw [hother ht]
      exact (h.threads t).moves hm ht
  · rcases hholder with ⟨hg, hcc⟩ | ⟨hown, hnew⟩
    · rw [hg, h.holder t]
      by_cases ht : t = s.k.cur
      · subst ht
        rw [hself, hcc]
      · rw [hholds t ht]
    · -- the thread on the CPU has the unit, so that no other thread holds the lock
      have hno : t ≠ s.k.cur → ¬ Has s'.k t (s'.pc t).holds := by
        intro ht hh
        obtain ⟨l, hl, hh⟩ := (hholds t ht).mp hh
        exact ht (h.unit.unique ⟨l, hl, Pc.owns_of_holds hh⟩ hown)
      by_cases ht : t = s.k.cur
      · subst ht
        rcases hnew with ⟨hg, hh⟩ | ⟨hg, hh⟩
        · simp only [hg, hself, hh]
        · simp only [hg, hself, hh, reduceCtorEq]
      · simp only [hno ht, iff_false]
        rcases hnew with ⟨hg, -⟩ | ⟨hg, -⟩
        · rw [hg]
          exact fun he => ht (Option.some.inj he).symm
        · simp [hg]
  · rcases hwaiter c w hw with ⟨hw, hD⟩ | ⟨-, hw⟩
    · have hold := h.waiter c w hw
      exact hold.moves h hm hD (hother (hold.ne_cur h.kernel))
    · exact hw
  · by_cases htc : t = s.k.cur
    · subst htc
      rw [hself] at ht
      obtain ⟨hc, hq⟩ := hfresh op ht
      exact ⟨hc.symm, hq⟩
    · rw [hother htc] at ht
      exact absurd (h.fresh t op ht).1 htc

theorem has_iff_of {l : List Stmt} {P : List Stmt → Prop} (hl : k.conts t = some l) :
    Has k t P ↔ P l :=
  ⟨fun ⟨_, hm, hp⟩ => Option.some.inj (hl.symm.trans hm) ▸ hp, fun hp => ⟨l, hl, hp⟩⟩

/-! ### Outside of the queue's functions -/

/-- What is done outside of the queue's functions. -/
theorem Inv.elsewhere (h : Inv s) (hidle : s.pc s.k.cur = .idle) (hk : Threads.Inv k')
    (hm : Moves (· = s.k.cur) D s.k k') (hD : ∀ c w, s.q.waiter c = some w → ¬ D w)
    (hcur : ∀ l, k'.conts s.k.cur = some l → ∀ y ∈ l, y.spares intqLock = true)
    (hv : (k'.sema (.lock intqLock)).value = (s.k.sema (.lock intqLock)).value)
    (hh : k'.holder intqLock = s.k.holder intqLock) : Inv { s with k := k' } := by
  have hno : ∀ {k : Threads.St} {P : Pc → List Stmt → Prop}, (∀ l, ¬ P .idle l) →
      ¬ Has k s.k.cur (P .idle) := fun hP ⟨l, _, hl⟩ => hP l hl
  refine h.move .idle ?_ hk rfl hm h.ok h.log ⟨?_, ?_, fun l hl => ?_⟩
    (.inl ⟨hv, ?_⟩) (.inl ⟨hh, ?_⟩) (fun c w hw => .inl ⟨hw, hD c w hw⟩) (by simp)
  · rw [← hidle, Function.update_eq_self]
  · exact fun hf => absurd rfl hf
  · exact fun hf => absurd rfl hf
  · rw [Pc.shape, if_pos rfl]
    exact hcur l hl
  · rw [hidle]
    exact iff_of_false (hno (P := Pc.owns) fun _ => id) (hno (P := Pc.owns) fun _ => id)
  · rw [hidle]
    exact iff_of_false (hno (P := Pc.holds) fun _ => id) (hno (P := Pc.holds) fun _ => id)

/-- A recorded waiter is not a thread under creation. -/
theorem Inv.waiter_not_unblocked (h : Inv s) {x : Stmt} {rest : List Stmt} {a : Cond} {w : ℕ}
    (hl : s.k.conts s.k.cur = some (x :: rest)) (hw : s.q.waiter a = some w) : x ≠ .unblock w := by
  rintro rfl
  have hn := (h.kernel.conts.newborn _ _ w hl List.mem_cons_self).cont
  rw [(h.waiter a w hw).2.1] at hn
  cases hn

/-- A statement of code outside of the queue's functions. -/
theorem Inv.exec_idle (h : Inv s) (hidle : s.pc s.k.cur = .idle) {x : Stmt} {rest : List Stmt}
    (hl : s.k.conts s.k.cur = some (x :: rest)) : Inv { s with k := Threads.exec s.k rest x } := by
  have hsp : ∀ y ∈ x :: rest, y.spares intqLock = true := by
    have hs := (h.threads s.k.cur).shape _ hl
    rwa [hidle, Pc.shape, if_pos rfl] at hs
  obtain ⟨hv, hh⟩ := Threads.exec_lock (s := s.k) (hsp x List.mem_cons_self)
  exact h.elsewhere hidle (h.kernel.exec hl) (Threads.exec_moves h.kernel hl)
    (fun a w hw => h.waiter_not_unblocked hl hw)
    (fun l hl' => Threads.exec_spares h.kernel hl hsp hl') hv hh

/-- A call of another operation. -/
theorem Inv.call_idle (h : Inv s) (hl : s.k.conts s.k.cur = some []) {r : Threads.Thread}
    {x : Threads.Call} (hc : Threads.canCall s.k r x = true) (ha : admits s (.call x) = true) :
    Inv { s with k := (Threads.enter s.k x).goOn (Threads.code s.k.mlfqs s.k.cur x) } := by
  simp only [admits, Bool.and_eq_true, decide_eq_true_eq] at ha
  obtain ⟨⟨hidle, hsp⟩, hun⟩ := ha
  obtain ⟨hv, hh⟩ := Threads.call_lock (s := s.k) (c := x) (l := intqLock)
  refine h.elsewhere hidle (h.kernel.call hl hc) (Threads.call_moves h.kernel hl hc) ?_ ?_ hv hh
  · rintro a w hw rfl
    obtain ⟨-, -, op, hp, -⟩ := h.waiter a w hw
    simp [hp] at hun
  · intro l hl' y hy
    obtain rfl := Threads.call_conts hl'
    exact List.all_eq_true.mp hsp y hy

/-- An interrupt comes in only outside of the queue's functions. -/
theorem Inv.idle_of_intrOn (h : Inv s) {r : Threads.Thread} (hr : s.k.threads s.k.cur = some r)
    (hi : Threads.intrOn r = true) : s.pc s.k.cur = .idle := by
  by_contra hp
  have hlev := (h.threads s.k.cur).level hp
  simp only [Threads.St.level, hr, Option.map_some, Option.some.injEq] at hlev
  simp [Threads.intrOn, hlev] at hi

/-- An interrupt handler that is not about the queue. -/
theorem Inv.intr_elsewhere (h : Inv s) {r : Threads.Thread} (hr : s.k.threads s.k.cur = some r)
    (hi : Threads.intrOn r = true) {a : Threads.Act} (hstep : Threads.step s.k a = some k')
    (hk : Threads.Keeps D s.k k') (hf : Threads.Frame (fun _ => True) s.k k')
    (hD : ∀ c w, s.q.waiter c = some w → ¬ D w) : Inv { s with k := k' } := by
  have hidle := h.idle_of_intrOn hr hi
  have hinv := h.kernel.step hstep
  refine h.elsewhere hidle hinv ((hk.moves hf hinv).mono fun _ => False.elim) hD ?_
    (hf.value _ trivial) (hf.holder _ trivial)
  intro l hl
  have hs := (h.threads s.k.cur).shape l (hk.conts _ l hl)
  rwa [hidle, Pc.shape, if_pos rfl] at hs

/-! ### The kernel functions that the queue's functions call -/

/-- **A statement of `lock_acquire`, `thread_block` or `lock_release`**, called by `intq_getc` or
`intq_putc`. -/
theorem Inv.statement (h : Inv s) {x : Stmt} {rest : List Stmt}
    (hl : s.k.conts s.k.cur = some (x :: rest)) (hp : s.pc s.k.cur ≠ .idle) (p' : Pc)
    (hx : x ≠ .kernelThread ∧ x ≠ .exit) (hshape : x.after s.k ++ rest ∈ p'.conts)
    (hunit : let v := (s.k.sema (.lock intqLock)).value
      let v' := ((Threads.exec s.k rest x).sema (.lock intqLock)).value
      let own := (s.pc s.k.cur).owns (x :: rest)
      let own' := p'.owns (x.after s.k ++ rest)
      v' = v ∧ (own' ↔ own) ∨ v' + 1 = v ∧ own' ∨ v' = v + 1 ∧ own ∧ ¬ own')
    (hholder : let g' := (Threads.exec s.k rest x).holder intqLock
      let hold' := p'.holds (x.after s.k ++ rest)
      g' = s.k.holder intqLock ∧ (hold' ↔ (s.pc s.k.cur).holds (x :: rest)) ∨
        (s.pc s.k.cur).owns (x :: rest) ∧ (g' = some s.k.cur ∧ hold' ∨ g' = none ∧ ¬ hold'))
    (hfresh : ∀ op, p' = .acquiring op false → s.pc s.k.cur = .acquiring op false ∧
      (Threads.exec s.k rest x).cur = s.k.cur) :
    Inv ({ s with k := Threads.exec s.k rest x }.goto s.k.cur p') := by
  have hk := h.kernel.exec hl
  have hf : Threads.Frame (fun _ => False) s.k (Threads.exec s.k rest x) :=
    Threads.exec_frame hx.1 hx.2 (by simp)
  have hat := h.threads s.k.cur
  have halive : s.k.cur ∈ (Threads.exec s.k rest x).allList := hf.allList ▸ hat.alive hp
  obtain ⟨r, hr⟩ := hk.record halive
  -- the caller lives, so that what it has to do is known
  have hl' : (Threads.exec s.k rest x).conts s.k.cur = some (x.after s.k ++ rest) := by
    have hc : (Threads.exec s.k rest x).conts s.k.cur = some r.cont := by simp [Threads.St.conts, hr]
    rw [hc, Threads.exec_conts h.kernel hl hc]
  refine h.move p' rfl hk rfl
    (Threads.exec_moves h.kernel hl) h.ok h.log ⟨fun _ => halive, fun _ => ?_, fun l hlc => ?_⟩
    (by simpa only [has_iff_of hl, has_iff_of hl'] using hunit)
    (by simpa only [has_iff_of hl, has_iff_of hl'] using hholder)
    (fun a w hw => .inl ⟨hw, h.waiter_not_unblocked hl hw⟩) fun op hop => ?_
  · have hb : (Threads.exec s.k rest x).level s.k.cur = some r.level := by
      simp [Threads.St.level, hr]
    rw [hb, ← hf.level _ _ hb]
    exact hat.level hp
  · obtain rfl := Option.some.inj (hl'.symm.trans hlc)
    rw [Pc.shape]
    split
    · rename_i hi
      simp [hi, Pc.conts] at hshape
    · exact hshape
  · obtain ⟨hpc, hcur⟩ := hfresh op hop
    exact ⟨hcur, (h.fresh _ op hpc).2⟩

/-- `sema_down` in `lock_acquire`. Who sleeps in it is noted. -/
theorem Inv.down (h : Inv s) {x : Stmt} {op : Op} {slept slept' : Bool}
    (hx : x = .down (.lock intqLock) ∨ x = .downAgain (.lock intqLock))
    (hl : s.k.conts s.k.cur = some [x, .setHolder intqLock])
    (hpc : s.pc s.k.cur = .acquiring op slept) (hslept : slept' = false → slept = false)
    (hsleep : (s.k.sema (.lock intqLock)).value = 0 → slept' = true) :
    Inv ({ s with k := Threads.exec s.k [.setHolder intqLock] x }.goto s.k.cur
      (.acquiring op slept')) := by
  have hexec : Threads.exec s.k [.setHolder intqLock] x =
      Threads.semaDown s.k (.lock intqLock) [.setHolder intqLock] := by
    rcases hx with rfl | rfl <;> rfl
  have hafter : x.after s.k = if (s.k.sema (.lock intqLock)).value = 0
      then [.downAgain (.lock intqLock)] else [] := by
    rcases hx with rfl | rfl <;> rfl
  obtain ⟨hv, hh⟩ := Threads.semaDown_lock (s := s.k) (l := intqLock) [.setHolder intqLock]
  refine h.statement hl (by simp [hpc]) _ (by rcases hx with rfl | rfl <;> simp) ?_ ?_ ?_ ?_
  · rw [hafter]
    split
    · rename_i hz
      simp [hsleep hz, Pc.conts]
    · cases slept' <;> simp [Pc.conts]
  · rw [hexec, hv, hafter, hpc]
    split
    · rename_i hz
      refine .inl ⟨by rw [hz], ?_⟩
      rcases hx with rfl | rfl <;> simp [Pc.owns]
    · exact .inr (.inl ⟨by omega, by simp [Pc.owns]⟩)
  · refine .inl ⟨by rw [hexec, hh], ?_⟩
    rw [hafter, hpc]
    split <;> simp [Pc.holds]
  · rintro op' hop
    obtain ⟨rfl, hs'⟩ := Pc.acquiring.inj hop
    refine ⟨by rw [hpc, hslept hs'], ?_⟩
    rw [hexec, Threads.semaDown, if_neg]
    · rfl
    · exact fun hz => by simp [hsleep hz] at hs'

/-- A statement that is neither about the lock nor a change of place. -/
theorem Inv.spares (h : Inv s) {x : Stmt} {rest : List Stmt}
    (hl : s.k.conts s.k.cur = some (x :: rest)) (hp : s.pc s.k.cur ≠ .idle)
    (hnew : ∀ op, s.pc s.k.cur ≠ .acquiring op false) (hsp : x.spares intqLock = true)
    (hx : x ≠ .kernelThread ∧ x ≠ .exit) (hshape : x.after s.k ++ rest ∈ (s.pc s.k.cur).conts)
    (hown : (s.pc s.k.cur).owns (x.after s.k ++ rest) ↔ (s.pc s.k.cur).owns (x :: rest))
    (hhold : (s.pc s.k.cur).holds (x.after s.k ++ rest) ↔ (s.pc s.k.cur).holds (x :: rest)) :
    Inv ({ s with k := Threads.exec s.k rest x }.goto s.k.cur (s.pc s.k.cur)) := by
  obtain ⟨hv, hh⟩ := Threads.exec_lock (s := s.k) hsp
  exact h.statement hl hp _ hx hshape (.inl ⟨hv, hown⟩) (.inl ⟨hh, hhold⟩)
    fun op hop => absurd hop (hnew op)

/-- A statement of `lock_release`. -/
theorem Inv.release (h : Inv s) {x : Stmt} {rest : List Stmt} {op : Op}
    (hl : s.k.conts s.k.cur = some (x :: rest)) (hpc : s.pc s.k.cur = .releasing op)
    (hm : x :: rest ∈ (Pc.releasing op).conts) :
    Inv ({ s with k := Threads.exec s.k rest x }.goto s.k.cur (.releasing op)) := by
  have hp : s.pc s.k.cur ≠ .idle := by simp [hpc]
  have hnew : ∀ op', s.pc s.k.cur ≠ .acquiring op' false := by simp [hpc]
  simp only [Pc.conts, Threads.lockRelease, List.mem_cons, List.cons.injEq, List.not_mem_nil,
    or_false, reduceCtorEq] at hm
  rcases hm with ⟨rfl, rfl⟩ | ⟨rfl, rfl⟩ | ⟨rfl, rfl⟩ | ⟨rfl, rfl⟩
  · -- `lock->holder = NULL`
    refine h.statement hl hp _ (by simp) ?_ (.inl ⟨rfl, ?_⟩) (.inr ⟨?_, .inr ⟨?_, ?_⟩⟩) (by simp)
    · simp [Pc.conts, Stmt.after]
    · simp [hpc, Pc.owns, Stmt.after, Threads.lockRelease]
    · simp [hpc, Pc.owns, Threads.lockRelease]
    · exact Function.update_self intqLock none s.k.holder
    · simp [Pc.holds, Stmt.after, Threads.lockRelease]
  · -- `sema_up`
    obtain ⟨hv, hh⟩ := Threads.semaUp_lock (s := s.k.goOn [.checkPreempt]) (l := intqLock)
    refine h.statement hl hp _ (by simp) ?_ (.inr (.inr ⟨hv, ?_, ?_⟩)) (.inl ⟨congrFun hh _, ?_⟩)
      (by simp)
    · simp [Pc.conts, Stmt.after]
    · simp [hpc, Pc.owns]
    · simp [Pc.owns, Stmt.after, Threads.lockRelease]
    · simp [hpc, Pc.holds, Stmt.after, Threads.lockRelease]
  · -- `thread_check_preempt`
    rw [← hpc]
    refine h.spares hl hp hnew rfl (by simp) ?_ ?_ ?_
    all_goals
      simp only [hpc, Stmt.after]
      split <;> simp [Pc.conts, Pc.owns, Pc.holds, Threads.lockRelease]
  · rw [← hpc]
    refine h.spares hl hp hnew rfl (by simp) ?_ ?_ ?_
    all_goals simp [hpc, Stmt.after, Pc.conts, Pc.owns, Pc.holds, Threads.lockRelease]

/-- **Any statement of a kernel function that a queue's function has called.** -/
theorem Inv.exec_queue (h : Inv s) {x : Stmt} {rest : List Stmt}
    (hl : s.k.conts s.k.cur = some (x :: rest)) (hp : s.pc s.k.cur ≠ .idle) :
    Inv ({ s with k := Threads.exec s.k rest x }.goto s.k.cur (note s (x :: rest))) := by
  have hm : x :: rest ∈ (s.pc s.k.cur).conts := by
    have hs := (h.threads s.k.cur).shape _ hl
    rwa [Pc.shape, if_neg hp] at hs
  cases hpc : s.pc s.k.cur with
  | idle => exact absurd hpc hp
  | test op => simp [hpc, Pc.conts] at hm
  | waiting op =>
    simp only [hpc, Pc.conts, List.mem_cons, List.cons.injEq, List.not_mem_nil, or_false,
      reduceCtorEq] at hm
    obtain ⟨rfl, rfl⟩ := hm
    rw [show note s [.unblocked] = s.pc s.k.cur by simp [note, hpc]]
    refine h.spares hl hp (by simp [hpc]) rfl (by simp) ?_ ?_ ?_
    all_goals simp [hpc, Stmt.after, Pc.conts, Pc.owns, Pc.holds]
  | releasing op =>
    rw [show note s (x :: rest) = .releasing op by simp [note, hpc]]
    exact h.release hl hpc (hpc ▸ hm)
  | acquiring op slept =>
    have hset : x :: rest = [.setHolder intqLock] →
        Inv ({ s with k := Threads.exec s.k rest x }.goto s.k.cur (.acquiring op slept)) := by
      rintro ⟨rfl, rfl⟩
      refine h.statement hl hp _ (by simp) ?_ (.inl ⟨rfl, ?_⟩) (.inr ⟨?_, .inl ⟨?_, ?_⟩⟩) ?_
      · cases slept <;> simp [Stmt.after, Pc.conts]
      · simp [hpc, Stmt.after, Pc.owns]
      · simp [hpc, Pc.owns]
      · exact Function.update_self intqLock (some s.k.cur) s.k.holder
      · simp [Stmt.after, Pc.holds]
      · rintro op' hop
        obtain ⟨rfl, rfl⟩ := Pc.acquiring.inj hop
        exact ⟨hpc, rfl⟩
    cases slept with
    | false =>
      simp only [hpc, Pc.conts, Threads.lockAcquire, List.mem_cons, List.not_mem_nil, or_false,
        reduceCtorEq] at hm
      rcases hm with hm | hm
      · obtain ⟨rfl, rfl⟩ := List.cons.inj hm
        simp only [note, hpc, List.head?_cons, true_and, Bool.false_or]
        exact h.down (.inl rfl) hl hpc (by simp) (by simp)
      · rw [show note s (x :: rest) = .acquiring op false by rw [hm]; simp [note, hpc]]
        exact hset hm
    | true =>
      rw [show note s (x :: rest) = .acquiring op true by simp [note, hpc]]
      simp only [hpc, Pc.conts, List.mem_cons, List.not_mem_nil, or_false, reduceCtorEq] at hm
      rcases hm with hm | hm
      · obtain ⟨rfl, rfl⟩ := List.cons.inj hm
        exact h.down (.inr rfl) hl hpc (by simp) (by simp)
      · exact hset hm

/-! ### The queue's functions -/

/-- After the transfer of a byte the signalled condition holds. -/
theorem holds_transfer {op : Op} (h : s.q.holds op.needs = true) :
    (transfer s op).q.holds op.signals = true := by
  cases op with
  | getc =>
    simp only [Intq.holds, Op.needs, Bool.not_eq_true'] at h
    simp [transfer, Op.signals, Intq.holds, Ring.isFull_get h]
  | putc byte =>
    simp only [Intq.holds, Op.needs, Bool.not_eq_true'] at h
    simp [transfer, Op.signals, Intq.holds, Ring.isEmpty_put h]

/-- The transfer keeps the order of the bytes. -/
theorem Inv.log_transfer (h : Inv s) {op : Op} (hq : s.q.holds op.needs = true) :
    (transfer s op).put = (transfer s op).got ++ (transfer s op).q.ring.contents := by
  have hlog := h.log
  cases op with
  | getc =>
    simp only [Intq.holds, Op.needs, Bool.not_eq_true'] at hq
    rw [Ring.contents_get hq] at hlog
    simpa [transfer] using hlog
  | putc byte =>
    simp only [Intq.holds, Op.needs, Bool.not_eq_true'] at hq
    simp [transfer, Ring.contents_put hq, hlog]

theorem transfer_waiter {op : Op} {a : Cond} :
    (transfer s op).q.waiter a = s.q.waiter a := by
  cases op <;> cases a <;> rfl

theorem waiter_setWaiter {q : Intq} {a b : Cond} {w : Option ℕ} :
    (q.setWaiter a w).waiter b = if b = a then w else q.waiter b := by
  cases a <;> cases b <;> rfl

theorem ring_setWaiter {q : Intq} {a : Cond} {w : Option ℕ} : (q.setWaiter a w).ring = q.ring := by
  cases a <;> rfl

/-- A recorded waiter is where its call of `thread_block` has left it. -/
theorem Waits.parked {a : Cond} (h : Waits s a t) : Threads.parked s.k t = true := by
  obtain ⟨hb, hc, -⟩ := h
  cases hr : s.k.threads t with
  | none => simp [Threads.St.status, hr] at hb
  | some r =>
    simp only [Threads.St.status, Threads.St.conts, hr, Option.map_some, Option.some.injEq] at hb hc
    simp [Threads.parked, hr, hb, hc]

/-- Waking the recorded waiter, in the kernel's state or in one an interrupt handler has got. -/
theorem Inv.wakes (h : Inv s) (a : Cond) {d : Threads.St} (hd : Threads.Same s.k d) :
    Threads.Running (wake (s.q.waiter a) d) ∧
      Threads.Keeps (fun t => s.q.waiter a = some t) d (wake (s.q.waiter a) d) := by
  have hrun := h.kernel.running
  cases hw : s.q.waiter a with
  | none => exact ⟨hrun.same hd, (Threads.Same.refl d).keeps.of_false (by simp)⟩
  | some w =>
    obtain ⟨hb, hu, hne, -⟩ := h.kernel.parked (h.waiter a w hw).parked
    obtain ⟨hr, hk⟩ := (hrun.same hd).threadUnblock (t := w) (hd.status ▸ hb)
      (fun q hq => hu q (by rwa [hd.queue] at hq))
      fun hi => hne (hrun.idle w (hd.idleThread ▸ hi)).1
    refine ⟨hr, hk.conts, hk.idleThread, hk.waiters, fun c hc => hk.spared c fun he => hc (by rw [he]),
      fun c hc => ⟨(hk.blocked c hc).1, fun he => (hk.blocked c hc).2 (Option.some.inj he).symm⟩,
      hk.mlfqs⟩

theorem frame_wake {w : Option ℕ} {d : Threads.St} {L : ℕ → Prop} : Threads.Frame L d (wake w d) := by
  cases w with
  | none => exact Threads.Frame.refl d
  | some t => exact Threads.neutral_frame.threadUnblock

/-- **The end of `intq_getc` and `intq_putc`**, in a thread or in an interrupt handler, which wakes
the waiter in the way of `run`. -/
theorem Inv.finish (h : Inv s) {op : Op} (hq : s.q.holds op.needs = true)
    {run : (Threads.St → Threads.St) → Threads.St → Threads.St}
    (hrun : ∀ w, (∀ d, Threads.Same s.k d → Threads.Running (wake w d) ∧
        Threads.Keeps (fun t => w = some t) d (wake w d)) →
      Threads.Running (run (wake w) s.k) ∧ Threads.Keeps (fun t => w = some t) s.k (run (wake w) s.k))
    (hframe : ∀ w, Threads.Frame (fun _ => True) s.k (run (wake w) s.k))
    (hsp : ∀ l, s.k.conts s.k.cur = some l → ∀ y ∈ l, y.spares intqLock = true)
    (hown : ∀ l, ¬ (s.pc s.k.cur).owns l) :
    Inv ((signal (transfer s op) op.signals run).goto s.k.cur .idle) := by
  have hkk : (transfer s op).k = s.k := by cases op <;> rfl
  have hpp : (transfer s op).pc = s.pc := by cases op <;> rfl
  have hff : (transfer s op).failed = s.failed := by cases op <;> rfl
  obtain ⟨hr, hkeeps⟩ := hrun (s.q.waiter op.signals) fun d hd => h.wakes op.signals hd
  have hf := hframe (s.q.waiter op.signals)
  have hinv : Threads.Inv (run (wake (s.q.waiter op.signals)) s.k) := by
    refine Threads.Inv.keeps h.kernel.conts h.kernel.idle
      (fun i hi => (h.kernel.running.idle i hi).1) hr hkeeps fun t l c hl hcl hw => ?_
    -- a recorded waiter is not a thread under creation
    have hn := (h.kernel.conts.newborn t l c hl hcl).cont
    rw [(h.waiter _ c hw).2.1] at hn
    cases hn
  have hno : ∀ {k : Threads.St} {p : Pc} {P : Pc → List Stmt → Prop}, (∀ l, ¬ P p l) →
      ¬ Has k s.k.cur (P p) := fun hP ⟨l, _, hl⟩ => hP l hl
  simp only [signal, holds_transfer hq, if_true, transfer_waiter, hkk]
  refine h.move .idle ?_ hinv rfl ((hkeeps.moves hf hinv).mono fun _ => False.elim)
    ?_ ?_ ⟨?_, ?_, fun l hl => ?_⟩ (.inl ⟨hf.value _ trivial, ?_⟩) (.inl ⟨hf.holder _ trivial, ?_⟩)
    (fun a w hw => ?_) (by simp)
  · rw [← hpp]
    rfl
  · exact hff.trans h.ok
  · change (transfer s op).put = (transfer s op).got ++ ((transfer s op).q.setWaiter _ _).ring.contents
    rw [ring_setWaiter]
    exact h.log_transfer hq
  · exact fun hf => absurd rfl hf
  · exact fun hf => absurd rfl hf
  · rw [Pc.shape, if_pos rfl]
    exact hsp l (hkeeps.conts _ l hl)
  · exact iff_of_false (hno (P := Pc.owns) fun _ => id) (hno (P := Pc.owns) hown)
  · exact iff_of_false (hno (P := Pc.holds) fun _ => id)
      (hno (P := Pc.holds) fun l hl => hown l (Pc.owns_of_holds hl))
  · -- the waiter that is left waits for the other condition, so it is another thread
    change ((transfer s op).q.setWaiter op.signals none).waiter a = some w at hw
    rw [waiter_setWaiter, transfer_waiter] at hw
    split at hw
    · cases hw
    · rename_i hne
      refine .inl ⟨hw, fun hw' => hne ?_⟩
      obtain ⟨-, -, o, hp, ho⟩ := h.waiter a w hw
      obtain ⟨-, -, o', hp', ho'⟩ := h.waiter _ w hw'
      rw [hp] at hp'
      rw [← ho, ← ho', Pc.waiting.inj hp']

/-- The thread on the CPU calls a kernel function and goes on with its code `new`. -/
theorem Inv.calls (h : Inv s) (hl : s.k.conts s.k.cur = some []) (hp : s.pc s.k.cur ≠ .idle)
    {new : List Stmt} (hk : Threads.Inv (s.k.goOn new)) (p' : Pc) (hshape : new ∈ p'.conts)
    (hown : p'.owns new ↔ (s.pc s.k.cur).owns [])
    (hhold : p'.holds new ↔ (s.pc s.k.cur).holds [])
    (hfresh : ∀ op, p' = .acquiring op false → s.q.holds op.needs = false) :
    Inv ({ s with k := s.k.goOn new }.goto s.k.cur p') := by
  have hl' : (s.k.goOn new).conts s.k.cur = some new := Threads.goOn_conts_cur hl
  have hat := h.threads s.k.cur
  refine h.move (D := fun _ => False) p' rfl hk rfl (Threads.goOn_moves hk) h.ok h.log
    ⟨fun _ => hat.alive hp, fun _ => ?_, fun l hlc => ?_⟩
    (.inl ⟨rfl, by rw [has_iff_of hl, has_iff_of hl', hown]⟩)
    (.inl ⟨rfl, by rw [has_iff_of hl, has_iff_of hl', hhold]⟩) (fun a w hw => .inl ⟨hw, id⟩)
    fun op hop => ⟨rfl, hfresh op hop⟩
  · obtain ⟨r, hr⟩ := hk.record (hat.alive hp)
    have hb : (s.k.goOn new).level s.k.cur = some r.level := by simp [Threads.St.level, hr]
    rw [hb, ← (Threads.frame_goOn (L := fun _ => False)).level _ _ hb]
    exact hat.level hp
  · obtain rfl := Option.some.inj (hl'.symm.trans hlc)
    rw [Pc.shape]
    split
    · rename_i hi
      simp [hi, Pc.conts] at hshape
    · exact hshape

/-- The thread on the CPU goes to the test of the loop. -/
theorem Inv.toTest (h : Inv s) (hl : s.k.conts s.k.cur = some []) (op : Op)
    (hlev : s.k.level s.k.cur = some false) (hown : ¬ (s.pc s.k.cur).owns []) :
    Inv (s.goto s.k.cur (.test op)) := by
  refine h.move (D := fun _ => False) (.test op) rfl h.kernel rfl (Moves.refl s.k) h.ok h.log
    ⟨fun _ => h.kernel.cur_alive, fun _ => hlev, fun l hlc => ?_⟩ (.inl ⟨rfl, ?_⟩) (.inl ⟨rfl, ?_⟩)
    (fun a w hw => .inl ⟨hw, id⟩) (by simp)
  · obtain rfl := Option.some.inj (hl.symm.trans hlc)
    simp [Pc.shape, Pc.conts]
  · rw [has_iff_of hl, has_iff_of hl]
    exact iff_of_false id hown
  · rw [has_iff_of hl, has_iff_of hl]
    exact iff_of_false id fun hh => hown (Pc.owns_of_holds hh)

/-- **`wait`**, called with the condition false. -/
theorem Inv.wait (h : Inv s) {r : Threads.Thread} (hr : s.k.threads s.k.cur = some r)
    (hc : r.cont = []) {op : Op} {slept : Bool} (hpc : s.pc s.k.cur = .acquiring op slept)
    (hq : s.q.holds op.needs = false) : Inv (wait s r op) := by
  have hl : s.k.conts s.k.cur = some [] := by simp [Threads.St.conts, hr, hc]
  have hat := h.threads s.k.cur
  have hp : s.pc s.k.cur ≠ .idle := by simp [hpc]
  have hlev := hat.level hp
  have hoff : r.level = false := by simpa [Threads.St.level, hr] using hlev
  -- `thread_block` is called, and runs to where the thread is switched out
  have hk₁ : Threads.Inv (s.k.goOn [.block]) :=
    h.kernel.call (c := .threadBlock) hl (r := r) (by simp [Threads.canCall, hoff])
  have hl₁ : (s.k.goOn [.block]).conts s.k.cur = some [.block] := Threads.goOn_conts_cur hl
  have hk := hk₁.exec hl₁
  have hf : Threads.Frame (fun _ => True) s.k (Threads.exec (s.k.goOn [.block]) [] .block) :=
    Threads.frame_goOn.trans (Threads.exec_frame (by simp) (by simp) (by simp [Stmt.spares]))
  have halive : s.k.cur ∈ (Threads.exec (s.k.goOn [.block]) [] .block).allList :=
    hf.allList ▸ hat.alive hp
  obtain ⟨r', hr'⟩ := hk.record halive
  have hl' : (Threads.exec (s.k.goOn [.block]) [] .block).conts s.k.cur = some [.unblocked] := by
    have hcc : (Threads.exec (s.k.goOn [.block]) [] .block).conts s.k.cur = some r'.cont := by
      simp [Threads.St.conts, hr']
    rw [hcc, Threads.exec_conts hk₁ hl₁ hcc]
    rfl
  simp only [Devices.wait, hoff, hq, Bool.not_false, Bool.and_self, if_true]
  refine h.move (.waiting op) rfl hk rfl (Threads.exec_moves hk₁ hl₁).of_goOn h.ok ?_
    ⟨fun _ => halive, fun _ => ?_, fun l hlc => ?_⟩ (.inl ⟨hf.value _ trivial, ?_⟩)
    (.inl ⟨hf.holder _ trivial, ?_⟩) (fun a w hw => ?_) (by simp)
  · change s.put = s.got ++ (s.q.setWaiter op.needs (some s.k.cur)).ring.contents
    rw [ring_setWaiter]
    exact h.log
  · have hb : (Threads.exec (s.k.goOn [.block]) [] .block).level s.k.cur = some r'.level := by
      simp [Threads.St.level, hr']
    rw [hb, ← hf.level _ _ hb]
    exact hlev
  · obtain rfl := Option.some.inj (hl'.symm.trans hlc)
    simp [Pc.shape, Pc.conts]
  · rw [has_iff_of hl, has_iff_of hl', hpc]
    simp [Pc.owns]
  · rw [has_iff_of hl, has_iff_of hl', hpc]
    simp [Pc.holds]
  · change (s.q.setWaiter op.needs (some s.k.cur)).waiter a = some w at hw
    rw [waiter_setWaiter] at hw
    split at hw
    · rename_i ha
      obtain rfl := Option.some.inj hw
      refine .inr ⟨rfl, Threads.exec_block_status hk₁ hl₁, hl', op, ?_, ha.symm⟩
      exact Function.update_self s.k.cur (.waiting op) s.pc
    · exact .inl ⟨hw, by simp⟩

/-- A thread enters `wait` with the condition true, after it has slept for the lock. -/
def Stale (s : St) (a : Act) : Prop :=
  a = .advance ∧ s.k.conts s.k.cur = some [] ∧
    ∃ op, s.pc s.k.cur = .acquiring op true ∧ s.q.holds op.needs = true

/-- **The thread on the CPU goes on in `intq_getc` or `intq_putc`.** -/
theorem Inv.advance (h : Inv s) {r : Threads.Thread} (hr : s.k.threads s.k.cur = some r)
    (hok : ¬ Stale s .advance) (hs : advance s r = some s') : Inv s' := by
  unfold Devices.advance at hs
  by_cases hc : r.cont = []
  swap
  · simp [hc] at hs
  rw [if_neg (by simp [hc])] at hs
  have hl : s.k.conts s.k.cur = some [] := by simp [Threads.St.conts, hr, hc]
  have hlev : s.pc s.k.cur ≠ .idle → s.k.level s.k.cur = some false :=
    (h.threads s.k.cur).level
  cases hpc : s.pc s.k.cur with
  | idle => simp [hpc] at hs
  | test op =>
    have hp : s.pc s.k.cur ≠ .idle := by simp [hpc]
    -- a thread at the test does not hold the lock
    have hfree : s.k.holder intqLock ≠ some s.k.cur := by
      intro hh
      have hold := (has_iff_of hl).mp ((h.holder s.k.cur).mp hh)
      rw [hpc] at hold
      exact hold
    simp only [hpc, hfree, if_false] at hs
    cases hq : s.q.holds op.needs with
    | true =>
      simp only [hq, if_true, Option.some.injEq] at hs
      subst hs
      refine h.finish hq (fun w hw => hw s.k (Threads.Same.refl s.k)) (fun w => frame_wake) ?_ ?_
      · intro l hlc
        obtain rfl := Option.some.inj (hl.symm.trans hlc)
        simp
      · rw [hpc]
        exact fun _ => id
    | false =>
      simp only [hq, Bool.false_eq_true, if_false, Option.some.injEq] at hs
      subst hs
      have hk : Threads.Inv (s.k.goOn (Threads.lockAcquire intqLock)) :=
        h.kernel.call (c := .lockAcquire intqLock) hl (r := r) (by simp [Threads.canCall, hfree])
      refine h.calls hl hp hk (.acquiring op false) (by simp [Pc.conts]) ?_ ?_ ?_
      · simp [hpc, Pc.owns, Threads.lockAcquire]
      · simp [hpc, Pc.holds, Threads.lockAcquire]
      · rintro op' hop
        obtain rfl := (Pc.acquiring.inj hop).1
        exact hq
  | acquiring op slept =>
    simp only [hpc, Option.some.injEq] at hs
    subst hs
    refine h.wait hr hc hpc ?_
    cases slept with
    | false => exact (h.fresh _ op hpc).2
    | true =>
      rw [Bool.eq_false_iff]
      exact fun hq => hok ⟨rfl, hl, op, hpc, hq⟩
  | waiting op =>
    have hp : s.pc s.k.cur ≠ .idle := by simp [hpc]
    -- a thread that was woken still holds the lock
    have hheld : s.k.holder intqLock = some s.k.cur := by
      rw [h.holder, has_iff_of hl, hpc]
      trivial
    simp only [hpc, hheld, if_true, Option.some.injEq] at hs
    subst hs
    have hk : Threads.Inv (s.k.goOn (Threads.lockRelease intqLock)) :=
      h.kernel.call (c := .lockRelease intqLock) hl (r := r) (by simp [Threads.canCall, hheld])
    refine h.calls hl hp hk (.releasing op) (by simp [Pc.conts]) ?_ ?_ (by simp)
    · simp [hpc, Pc.owns]
    · simp [hpc, Pc.holds]
  | releasing op =>
    simp only [hpc, Option.some.injEq] at hs
    subst hs
    refine h.toTest hl op (hlev (by simp [hpc])) ?_
    simp [hpc, Pc.owns, Threads.lockRelease]

end Inv

/-! ### Runs -/

section Run

variable {s s' : St} {k' : Threads.St}

/-- What a step of the kernel's threads is, in a state in which they agree. -/
theorem step_kernel (h : Inv s) {r : Threads.Thread} (hr : s.k.threads s.k.cur = some r)
    {a : Threads.Act} (hs : Threads.step s.k a = some k') : Threads.stepAt s.k r a = some k' := by
  have hst : r.status = .running := by
    have hc := h.kernel.running.cur
    simpa [Threads.St.status, hr] using hc
  simpa [Threads.step, h.kernel.running.ok, hr, hst] using hs

/-- **A step of the kernel that is not one of the queue's functions.** -/
theorem Inv.kernelAct (h : Inv s) {r : Threads.Thread} (hr : s.k.threads s.k.cur = some r)
    {a : Threads.Act} (hrun : a ≠ .run) (ha : admits s a = true)
    (hs : Threads.step s.k a = some k') : Inv { s with k := k' } := by
  have hat := step_kernel h hr hs
  have hnow := h.kernel.running
  cases a with
  | run => exact absurd rfl hrun
  | call x =>
    simp only [Threads.stepAt] at hat
    split at hat
    · rename_i hg
      cases hat
      have hl : s.k.conts s.k.cur = some [] := by simp [Threads.St.conts, hr, hg.1]
      exact h.call_idle hl hg.2 ha
    · cases hat
  | tick =>
    simp only [Threads.stepAt] at hat
    split at hat
    · rename_i hi
      cases hat
      obtain ⟨-, hk⟩ := Threads.Running.intrHandler (s := s.k) fun d hd =>
        (hnow.same hd).timerInterrupt
      exact h.intr_elsewhere hr hi hs hk (Threads.neutral_frame.intrHandler fun _ =>
        Threads.frame_timerInterrupt) fun _ _ _ => id
    · cases hat
  | intrSemaUp n =>
    simp only [Threads.stepAt] at hat
    split at hat
    · rename_i hi
      cases hat
      obtain ⟨-, hk⟩ := Threads.Running.intrHandler (s := s.k) (D := fun _ => False)
        (f := fun d => Threads.checkPreemptIntr (Threads.semaUp d (.plain n))) fun d hd => by
          obtain ⟨hd', hk⟩ := (hnow.same hd).semaUp (.plain n)
          exact ⟨hd'.same Threads.same_checkPreemptIntr, hk.trans Threads.same_checkPreemptIntr.keeps⟩
      exact h.intr_elsewhere hr hi hs hk (Threads.neutral_frame.intrHandler fun _ =>
        (Threads.frame_semaUp (by simp)).trans Threads.neutral_frame.checkPreemptIntr) fun _ _ _ => id
    · cases hat
  | intrUnblock u =>
    simp only [Threads.stepAt] at hat
    split at hat
    · rename_i hg
      cases hat
      obtain ⟨hb, hu, hne, -⟩ := h.kernel.parked hg.2
      obtain ⟨-, hk⟩ := Threads.Running.intrHandler (s := s.k) (D := (· = u))
        (f := fun d => Threads.threadUnblock d u) fun d hd =>
          (hnow.same hd).threadUnblock (hd.status ▸ hb)
            (fun q hq => hu q (by rwa [hd.queue] at hq))
            fun hi => hne (hnow.idle u (hd.idleThread ▸ hi)).1
      refine h.intr_elsewhere hr hg.1 hs hk (Threads.neutral_frame.intrHandler fun _ =>
        Threads.neutral_frame.threadUnblock) ?_
      rintro a w hw rfl
      obtain ⟨-, -, op, hp, -⟩ := h.waiter a w hw
      simp [admits, hp] at ha
    · cases hat

/-- **Every step keeps the invariant**, unless a stale thread enters `wait`. -/
theorem Inv.step (h : Inv s) {a : Act} (hok : ¬ Stale s a) (hs : step s a = some s') : Inv s' := by
  obtain ⟨r, hr⟩ := h.kernel.record h.kernel.cur_alive
  simp only [Devices.step, h.ok, h.kernel.running.ok, hr, Bool.or_self, Bool.false_eq_true,
    if_false] at hs
  cases a with
  | kernel a =>
    by_cases ha : a = .run
    · subst ha
      simp only [stepAt, Option.map_eq_some_iff] at hs
      obtain ⟨k', hk', rfl⟩ := hs
      have hat := step_kernel h hr hk'
      simp only [Threads.stepAt] at hat
      cases hc : r.cont with
      | nil => simp [hc] at hat
      | cons x rest =>
        simp only [hc, Option.some.injEq] at hat
        subst hat
        have hl : s.k.conts s.k.cur = some (x :: rest) := by simp [Threads.St.conts, hr, hc]
        by_cases hp : s.pc s.k.cur = .idle
        · have hstay : { s with k := Threads.exec s.k rest x }.goto s.k.cur (note s (x :: rest)) =
              { s with k := Threads.exec s.k rest x } := by
            have hnote : note s (x :: rest) = s.pc s.k.cur := by simp [note, hp]
            rw [St.goto, hnote, Function.update_eq_self]
          rw [hstay]
          exact h.exec_idle hp hl
        · exact h.exec_queue hl hp
    · have hs' : (if admits s a then (Threads.step s.k a).map fun k => { s with k := k }
          else none) = some s' := by
        cases a <;> first | exact hs | exact absurd rfl ha
      split at hs'
      · rename_i had
        simp only [Option.map_eq_some_iff] at hs'
        obtain ⟨k', hk', rfl⟩ := hs'
        exact h.kernelAct hr ha had hk'
      · cases hs'
  | start op =>
    simp only [stepAt] at hs
    split at hs
    · rename_i hg
      obtain ⟨hp, hc, hlev⟩ := hg
      cases hs
      refine h.toTest (by simp [Threads.St.conts, hr, hc]) op (by simp [Threads.St.level, hr, hlev]) ?_
      rw [hp]
      exact id
    · cases hs
  | advance => exact h.advance hr hok hs
  | intr op =>
    simp only [stepAt] at hs
    split at hs
    · rename_i hg
      cases hs
      have hp := h.idle_of_intrOn hr hg.1
      have hpc : (signal (transfer s op) op.signals Threads.intrHandler).pc = s.pc := by
        unfold signal
        split <;> cases op <;> rfl
      have hstay : (signal (transfer s op) op.signals Threads.intrHandler).goto s.k.cur .idle =
          signal (transfer s op) op.signals Threads.intrHandler := by
        rw [St.goto, hpc, ← hp, Function.update_eq_self, ← hpc]
      rw [← hstay]
      refine h.finish hg.2 (fun w hw => Threads.Running.intrHandler hw) (fun w =>
        Threads.neutral_frame.intrHandler fun _ => frame_wake) (fun l hl => ?_) ?_
      · have hsh := (h.threads s.k.cur).shape l hl
        rwa [hp, Pc.shape, if_pos rfl] at hsh
      · rw [hp]
        exact fun _ => id
    · cases hs

theorem Inv.initial {aging mlfqs : Bool} {value : ℕ → ℕ} : Inv (initial aging mlfqs value) := by
  have hno : ∀ {P : Pc → List Stmt → Prop}, (∀ l, ¬ P .idle l) → ∀ t,
      ¬ Has (Threads.initial aging mlfqs value) t (P .idle) := fun hP t ⟨l, _, hl⟩ => hP l hl
  refine ⟨Threads.Inv.initial, rfl, ?_, fun t => ⟨?_, ?_, fun l hl => ?_⟩, .inl ⟨rfl, ?_⟩,
    fun t => ?_, fun c w hw => ?_, fun t op ht => ?_⟩
  · simp [Devices.initial, Ring.contents, Ring.count]
  · exact fun hf => absurd rfl hf
  · exact fun hf => absurd rfl hf
  · -- the two threads of the kernel that has just started do not use the queue
    change (Threads.initial aging mlfqs value).conts t = some l at hl
    change Pc.shape .idle l
    rw [Threads.initial_conts] at hl
    rcases hl with ⟨-, rfl⟩ | ⟨-, rfl⟩ <;> simp [Pc.shape, Threads.idleCode, Threads.idleStarted,
      Stmt.spares]
  · exact hno (P := Pc.owns) fun _ => id
  · exact iff_of_false (by simp [Devices.initial, Threads.initial])
      (hno (P := Pc.holds) (fun _ => id) t)
  · cases c <;> cases hw
  · cases ht

theorem Inv.reachable (h : sys.ReachableVia (fun s a => ¬ Stale s a) s) : Inv s := by
  refine h.invariant ?_ fun s a s' hi hok hs => hi.step hok hs
  rintro s ⟨aging, mlfqs, value, rfl⟩
  exact Inv.initial

end Run

/-- The queue is a correct monitor. -/
structure Monitor (s : St) : Prop where
  /-- No assertion of `wait`, `signal`, the lock or the threads has failed. -/
  asserts : s.failed = false ∧ s.k.panicked = false
  /-- The bytes returned are those that were stored, in their order, and the rest is in the queue. -/
  fifo : s.put = s.got ++ s.q.ring.contents
  bounded : s.q.ring.contents.length ≤ intqBufsize - 1
  /-- A thread that is recorded as a waiter has not been woken. -/
  waiter : ∀ c w, s.q.waiter c = some w → Waits s c w

theorem Inv.monitor {s : St} (h : Inv s) : Monitor s :=
  ⟨⟨h.ok, h.kernel.running.ok⟩, h.log, Nat.le_sub_one_of_lt Ring.length_contents_lt, h.waiter⟩

/-- A stale call of `wait` fails its assertion. -/
theorem Stale.failed {s s' : St} {a : Act} (h : Stale s a) (hs : step s a = some s') :
    s'.failed = true := by
  obtain ⟨rfl, hl, op, hpc, hq⟩ := h
  unfold step at hs
  split at hs
  · cases hs
  · cases hr : s.k.threads s.k.cur with
    | none => simp [hr] at hs
    | some r =>
      have hc : r.cont = [] := by simpa [Threads.St.conts, hr] using hl
      simp only [hr, stepAt, advance, hc, ne_eq, not_true_eq_false, if_false, hpc, wait, hq,
        Bool.not_true, Bool.and_false, Bool.false_eq_true, Option.some.injEq] at hs
      subst hs
      rfl

/-- The initial thread creates the thread `t`, which preempts it and calls `intq_getc`. -/
def createReader (t : ℕ) (priority : ℤ) : List Act :=
  .kernel (.call (.threadCreate t priority)) :: List.replicate 11 (.kernel .run) ++
    [.kernel (.call .intrDisable), .start .getc, .advance]

/-- The idle thread runs once. Then the reader 2 waits, and a byte arrives. The initial thread lets the
reader run, up to where it has released the lock. -/
def readByte (others : List Act) : List Act :=
  List.replicate 7 (Act.kernel .run) ++ createReader 2 40 ++
    [Act.kernel .run, Act.kernel .run, Act.advance] ++ others ++
    [Act.intr (.putc 7), Act.kernel (.call .threadYield), Act.kernel .run, Act.kernel .run, Act.advance] ++
    List.replicate 3 (Act.kernel .run)

/-- The thread on the CPU has not slept for the lock. -/
def awake (s : St) (_ : Act) : Bool :=
  match s.pc s.k.cur with
  | .acquiring _ true => false
  | _ => true

end Devices
end Pintos

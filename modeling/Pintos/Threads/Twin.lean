import Pintos.Threads.Alike

/-!
# Threads and their own priority under `-mlfqs`

Under `-mlfqs` the scheduler computes the priorities, and what a thread asks for should not matter. Two runs are
compared (`Twin`): the second one makes the steps of the first one, but it leaves out the calls of
`thread_set_priority` and calls `thread_create` with other priorities.

`thread_create` computes the priority of the child before it unblocks it, so its argument does not matter.
`thread_set_priority` however sets the priority of the caller in this mode too. So the two runs agree if the calls that
are left out set the priority that the caller has anyway (`priority_not_chosen`), and not in general
(`priority_chosen`).
-/

namespace Pintos
namespace Threads

/-- What the second run does when the first one does `a`: it leaves out the calls of `thread_set_priority`, and
it calls `thread_create` with any other priority. A thread that is in no call in the second run and goes on in the
first one is in a call that was left out. -/
def Edit (d : St) : Act → Option Act → Prop
  | .call (.setPriority _), e => e = none
  | .call (.threadCreate c _), e => ∃ p, (priMin ≤ p ∧ p ≤ priMax) ∧ e = some (.call (.threadCreate c p))
  | .run, e => e = if d.conts d.cur = some [] then none else some .run
  | a, e => e = some a

/-- Two runs side by side. -/
inductive Twin (ok : St → St → Act → Prop) : St → St → Prop
  | start (aging : Bool) (value : ℕ → ℕ) : Twin ok (initial aging true value) (initial aging true value)
  | both {s s' d d' : St} {a b : Act} (h : Twin ok s d) (hok : ok s d a) (hs : sys.step s a = some s')
      (he : Edit d a (some b)) (hd : sys.step d b = some d') : Twin ok s' d'
  | left {s s' d : St} {a : Act} (h : Twin ok s d) (hok : ok s d a) (hs : sys.step s a = some s')
      (he : Edit d a none) : Twin ok s' d

/-- What the thread on the CPU does next leaves its priority as it is and does not make it yield. -/
def moot (s : St) : Bool :=
  match s.conts s.cur with
  | some (.setPriority p :: _) => p = s.prio s.cur
  | some (.checkPreempt :: _) => !needYield s
  | _ => true

/-- The call that is left out does nothing: it sets the priority that the caller has, and no ready thread has a
higher one. -/
def Moot (s d : St) (a : Act) : Prop := a = .run → d.conts d.cur = some [] → moot s = true

instance (s d : St) (a : Act) : Decidable (Moot s d a) :=
  inferInstanceAs (Decidable (a = .run → d.conts d.cur = some [] → moot s = true))

/-- What is known of the fresh threads. -/
structure Due (F : ℕ → Prop) (s : St) : Prop where
  cont : ∀ t l, F t → s.conts t = some l → l = [.kernelThread]
  inherit : ∀ t u l, F t → s.conts u = some l → .unblock t ∈ l → .inherit t ∈ l

section Due

variable {F F' : ℕ → Prop} {s s' d d' : St} {t c : ℕ} {a : Act} {x : Stmt} {rest l : List Stmt}

theorem mem_pending : c ∈ pending l ↔ .unblock c ∈ l := by
  unfold pending
  rw [List.mem_filterMap]
  constructor
  · rintro ⟨y, hy, he⟩
    cases y <;> simp_all [Stmt.creates]
  · exact fun h => ⟨_, h, rfl⟩

/-- The child is unblocked after it has its priority. -/
theorem unblock_of_inherit {m : Bool} (hg : Guarded m l) (h : .inherit c ∈ l) : .unblock c ∈ l := by
  induction l with
  | nil => cases h
  | cons y l ih =>
    obtain ⟨hy, hl⟩ := hg
    obtain rfl | h := List.mem_cons.1 h
    · exact List.mem_cons_of_mem _ (List.mem_of_mem_head? (hy _ rfl))
    · exact List.mem_cons_of_mem _ (ih hl h)

theorem Due.not_unblock (h : Due F s) (hi : Inv s) (hl : s.conts s.cur = some (.unblock c :: rest)) : ¬ F c := by
  intro hF
  have hin := h.inherit c _ _ hF hl List.mem_cons_self
  have hrest : .inherit c ∈ rest := (List.mem_cons.1 hin).resolve_left nofun
  have hnd := hi.conts.nodup _ _ hl
  have hguard := (hi.conts.guarded _ _ hl).2
  have hpend : pending (.unblock c :: rest) = c :: pending rest := rfl
  rw [hpend, List.nodup_cons] at hnd
  exact hnd.1 (mem_pending.2 (unblock_of_inherit hguard hrest))

theorem Due.not_parked (h : Due F s) (hF : F t) (hp : parked s t = true) : False := by
  unfold parked at hp
  split at hp
  · next r hr =>
    have hcont := h.cont t r.cont hF (by simp [St.conts, hr])
    simp [hcont] at hp
  · cases hp

theorem after_unblock (h : .unblock c ∈ x.after s) : False := by
  cases x with
  | checkPreempt | sleepTest start n | down z | downAgain z | tryAcquire z | condSignal z | condBroadcast z =>
    simp only [Stmt.after] at h; split at h <;> simp at h
  | _ => simp [Stmt.after] at h

theorem code_unblock {m : Bool} {q : Call} (h : .unblock c ∈ code m t q) : ∃ p, q = .threadCreate c p := by
  cases q with
  | threadCreate v p =>
    simp [code, lockAcquire, lockRelease] at h
    exact ⟨p, by rw [h]⟩
  | setNice n => cases m <;> simp [code] at h
  | _ => simp [code, lockAcquire, lockRelease] at h

/-- **One step**: no thread becomes fresh, and the one that gets its priority is fresh no more. -/
theorem Due.step (h : Due F s) (hi : Inv s) (hs : step s a = some s') (hcur : ¬ F s.cur)
    (hF : ∀ t, F' t → F t ∧ s.cause a ≠ .stmt (.inherit t)) : Due F' s' := by
  refine ⟨fun t l hF' hl => ?_, fun t u l hF' hl hm => ?_⟩
  · obtain hold | ⟨rfl, -⟩ | ⟨rfl, -⟩ := step_conts hi hs hl
    · exact h.cont t l (hF t hF').1 hold
    · rfl
    · exact absurd (hF _ hF').1 hcur
  · obtain ⟨hFt, hcause⟩ := hF t hF'
    obtain hold | ⟨rfl, -⟩ | ⟨rfl, ⟨q, rfl, rfl⟩ | ⟨x, rest, rfl, hx, rfl⟩⟩ := step_conts hi hs hl
    · exact h.inherit t u l hFt hold hm
    · simp at hm
    · obtain ⟨p, rfl⟩ := code_unblock hm
      simp [code]
    · have hrest := (List.mem_append.1 hm).resolve_left fun ha => after_unblock ha
      have hin := h.inherit t _ _ hFt hx (List.mem_cons_of_mem x hrest)
      refine List.mem_append_right _ ((List.mem_cons.1 hin).resolve_left ?_)
      rintro rfl
      exact hcause (by simp [St.cause, hx])

/-- `thread_create`: the child is fresh. -/
theorem Due.create (h : Due F s) (hi : Inv s) {p : ℤ} (hs : Threads.step s (.call (.threadCreate c p)) = some s')
    (hcur : ¬ F s.cur) (hc : s.threads c = none) : Due (fun u => F u ∨ u = c) s' := by
  have hold : Due F s' := h.step hi hs hcur fun t hF => ⟨hF, nofun⟩
  have hcc : s.conts c = none := by simp [St.conts, hc]
  obtain ⟨r, hr⟩ := hi.record hi.cur_alive
  refine ⟨fun t l hF hl => ?_, fun t u l hF hl hm => ?_⟩
  · obtain hF | rfl := hF
    · exact hold.cont t l hF hl
    · obtain ho | ⟨rfl, -⟩ | ⟨rfl, -⟩ := step_conts hi hs hl
      · cases hcc.symm.trans ho
      · rfl
      · cases hc.symm.trans hr
  · obtain hF | rfl := hF
    · exact hold.inherit t u l hF hl hm
    · obtain ho | ⟨rfl, -⟩ | ⟨-, ⟨q, hq, rfl⟩ | ⟨x, rest, hq, -⟩⟩ := step_conts hi hs hl
      · have hborn := (hi.conts.newborn u l t ho (mem_pending.2 hm)).blocked
        simp [St.status, hc] at hborn
      · simp at hm
      · cases hq
        simp [code]
      · cases hq

end Due

section Twin

variable {F : ℕ → Prop} {s s' d d' : St} {t c : ℕ} {a b : Act} {x : Stmt} {rest l : List Stmt} {r r' : Thread}

theorem step_eq (h : Inv s) (hr : s.threads s.cur = some r) : step s a = stepAt s r a := by
  have hst : r.status = .running := by
    have hc := h.running.cur
    simpa [St.status, hr] using hc
  simp [step, h.running.ok, hr, hst]

theorem Akin.cont_nil {p : Prop} (h : Akin p r r') (hr : r.cont = []) : r'.cont = [] := by
  obtain he | ⟨-, he⟩ := h.cont
  · exact he.trans hr
  · exact he

/-- Where two runs are. -/
structure Paired (F : ℕ → Prop) (s d : St) : Prop where
  alike : Alike F s d
  due : Due F s
  left : Inv s
  right : Inv d
  mlfqs : s.mlfqs = true

theorem Paired.records (h : Paired F s d) :
    ∃ r r', s.threads s.cur = some r ∧ d.threads d.cur = some r' ∧ Akin (F s.cur) r r' := by
  obtain ⟨r, hr⟩ := h.left.record h.left.cur_alive
  obtain ⟨hs, -⟩ | ⟨r, r', hs, hd, hk⟩ := h.alike.record s.cur
  · cases hs.symm.trans hr
  · exact ⟨r, r', hs, h.alike.cur_eq ▸ hd, hk⟩

theorem Paired.mlfqs_step (h : Paired F s d) (hs : step s a = some s') : s'.mlfqs = true :=
  (step_of_change (P := fun d => d.mlfqs = s.mlfqs) h.left hs rfl fun _ _ h hc => hc.mlfqs.trans h).trans h.mlfqs

/-- A step that both runs make. -/
theorem Paired.both (h : Paired F s d) {F' : ℕ → Prop} (hs : step s a = some s') (hd : step d b = some d')
    (halike : Alike F' s' d') (hdue : Due F' s') : Paired F' s' d' :=
  ⟨halike, hdue, h.left.step hs, h.right.step hd, h.mlfqs_step hs⟩

/-- **A call.** -/
theorem Paired.call (h : Paired F s d) {q : Call} (hs : step s (.call q) = some s') (hq : ∀ p, q ≠ .setPriority p)
    (hq' : ∀ c p, q ≠ .threadCreate c p) : ∃ d', step d (.call q) = some d' ∧ Paired F s' d' := by
  obtain ⟨r, r', hr, hr', hk⟩ := h.records
  have hs₀ := hs
  rw [step_eq h.left hr] at hs
  simp only [stepAt] at hs
  split at hs
  · next hg =>
    obtain rfl := Option.some.inj hs
    have hnil := hk.cont_nil hg.1
    have hcan : canCall d r' q = true := (h.alike.canCall hk hq').trans hg.2
    have hd : step d (.call q) = some ((enter d q).goOn (code d.mlfqs d.cur q)) := by
      rw [step_eq h.right hr']
      simp only [stepAt, hnil, hcan, and_self, if_true]
    refine ⟨_, hd, h.both hs₀ hd ?_ (h.due.step h.left hs₀ h.alike.cur fun t hF => ⟨hF, by simp [St.cause]⟩)⟩
    rw [h.alike.mlfqs_eq, h.alike.cur_eq]
    refine (h.alike.enter hq' fun u hu hF => ?_).goOn _
    subst hu
    exact h.due.not_parked hF hg.2
  · cases hs

/-- **`thread_create`**, with another priority. -/
theorem Paired.create (h : Paired F s d) {p p' : ℤ} (hs : step s (.call (.threadCreate c p)) = some s')
    (hp : priMin ≤ p' ∧ p' ≤ priMax) :
    ∃ d', step d (.call (.threadCreate c p')) = some d' ∧ Paired (fun u => F u ∨ u = c) s' d' := by
  obtain ⟨r, r', hr, hr', hk⟩ := h.records
  have hs₀ := hs
  rw [step_eq h.left hr] at hs
  simp only [stepAt] at hs
  split at hs
  · next hg =>
    obtain rfl := Option.some.inj hs
    have hnil := hk.cont_nil hg.1
    have hnone : s.threads c = none := by
      have hc := hg.2
      simp only [canCall, Bool.and_eq_true, Option.isNone_iff_eq_none] at hc
      exact hc.1.1
    have hnone' : d.threads c = none := h.alike.threads_eq_none.2 hnone
    have hd : step d (.call (.threadCreate c p')) =
        some ((enter d (.threadCreate c p')).goOn (code d.mlfqs d.cur (.threadCreate c p'))) := by
      rw [step_eq h.right hr']
      simp [stepAt, hnil, canCall, hnone', hp]
    have hun : Unlisted s c := h.left.running.core.unlisted (by simp [St.status, hnone])
      (by simp [St.status, hnone])
    refine ⟨_, hd, h.both hs₀ hd ?_ (h.due.create h.left hs₀ h.alike.cur hnone)⟩
    rw [h.alike.mlfqs_eq, h.alike.cur_eq]
    refine Alike.goOn (h.alike.initThread hun ?_ ?_ p p') _
    · rintro rfl
      cases hnone.symm.trans hr
    · intro hidle
      obtain ⟨y, hy, -⟩ := h.left.running.idle_alive
      rw [← (h.left.running.idle c hidle).1, St.status, hnone] at hy
      cases hy
  · cases hs

/-- **A statement that both runs make.** -/
theorem Paired.run (h : Paired F s d) (hs : step s .run = some s') (hd : d.conts d.cur ≠ some []) :
    ∃ d', step d .run = some d' ∧ ∃ F', Paired F' s' d' := by
  obtain ⟨r, r', hr, hr', hk⟩ := h.records
  have hs₀ := hs
  rw [step_eq h.left hr] at hs
  simp only [stepAt] at hs
  have hcont : r'.cont = r.cont := by
    obtain he | ⟨-, he⟩ := hk.cont
    · exact he
    · exact absurd (by simp [St.conts, hr', he]) hd
  cases hx : r.cont with
  | nil => simp [hx] at hs
  | cons x rest =>
    simp only [hx, Option.some.injEq] at hs
    subst hs
    have hl : s.conts s.cur = some (x :: rest) := by simp [St.conts, hr, hx]
    have hd' : step d .run = some (exec d rest x) := by
      rw [step_eq h.right hr']
      simp only [stepAt, hcont, hx]
    have hunblock : ∀ c, x = .unblock c → ¬ F c := by
      rintro c rfl
      exact h.due.not_unblock h.left hl
    refine ⟨_, hd', _, h.both hs₀ hd' (h.alike.exec h.mlfqs hunblock) ?_⟩
    refine h.due.step h.left hs₀ h.alike.cur fun t hF => ⟨hF.1, fun hc => hF.2 ?_⟩
    simpa [St.cause, hl] using hc

/-- **An interrupt.** -/
theorem Paired.intr (h : Paired F s d) (hs : step s a = some s') (ha : ∀ q, a ≠ .call q) (ha' : a ≠ .run) :
    ∃ d', step d a = some d' ∧ Paired F s' d' := by
  obtain ⟨r, r', hr, hr', hk⟩ := h.records
  have hdue : Due F s' := h.due.step h.left hs h.alike.cur fun t hF => ⟨hF, by cases a <;> simp_all [St.cause]⟩
  have hs₀ := hs
  rw [step_eq h.left hr] at hs
  have hon := hk.intrOn
  cases a with
  | call q => exact absurd rfl (ha q)
  | run => exact absurd rfl ha'
  | tick =>
    simp only [stepAt] at hs
    split at hs
    · next hg =>
      obtain rfl := Option.some.inj hs
      have hd : step d .tick = some (intrHandler timerInterrupt d) := by
        rw [step_eq h.right hr']
        simp only [stepAt, hon, hg, if_true]
      exact ⟨_, hd, h.both hs₀ hd h.alike.tick hdue⟩
    · cases hs
  | intrSemaUp n =>
    simp only [stepAt] at hs
    split at hs
    · next hg =>
      obtain rfl := Option.some.inj hs
      have hd : step d (.intrSemaUp n) =
          some (intrHandler (fun s => checkPreemptIntr (semaUp s (.plain n))) d) := by
        rw [step_eq h.right hr']
        simp only [stepAt, hon, hg, if_true]
      exact ⟨_, hd, h.both hs₀ hd (h.alike.intrHandler fun _ _ hk => hk.semaUp.checkPreemptIntr) hdue⟩
    · cases hs
  | intrUnblock u =>
    simp only [stepAt] at hs
    split at hs
    · next hg =>
      obtain rfl := Option.some.inj hs
      have hd : step d (.intrUnblock u) = some (intrHandler (fun s => threadUnblock s u) d) := by
        rw [step_eq h.right hr']
        simp only [stepAt, hon, h.alike.parked, hg, and_self, if_true]
      have hF : ¬ F u := fun hF => h.due.not_parked hF hg.2
      exact ⟨_, hd, h.both hs₀ hd (h.alike.intrHandler fun _ _ hk => hk.threadUnblock hF) hdue⟩
    · cases hs

/-- A step that the first run makes alone. -/
theorem Paired.alone (h : Paired F s d) (hs : step s a = some s') (halike : Alike F s' d)
    (ha : ∀ t, s.cause a ≠ .stmt (.inherit t)) : Paired F s' d :=
  ⟨halike, h.due.step h.left hs h.alike.cur fun t hF => ⟨hF, ha t⟩, h.left.step hs, h.right, h.mlfqs_step hs⟩

/-- The thread on the CPU goes on with a call of `thread_set_priority`, or comes back from it. -/
theorem Alike.goOn_left (h : Alike F s d) (hd : d.conts d.cur = some []) (hl : InCall l ∨ l = []) :
    Alike F (s.goOn l) d := by
  refine h.upd_left fun r r' _ hr' hk => ⟨blank_eq.2 (blank_eq.1 hk.blank), hk.priority, ?_⟩
  have hnil : r'.cont = [] := by
    rw [h.cur_eq] at hd
    simpa [St.conts, hr'] using hd
  obtain hl | rfl := hl
  · exact .inr ⟨hl, hnil⟩
  · exact .inl hnil

/-- **A call that is left out.** -/
theorem Paired.setPriority (h : Paired F s d) {p : ℤ} (hs : step s (.call (.setPriority p)) = some s') :
    Paired F s' d := by
  obtain ⟨r, r', hr, hr', hk⟩ := h.records
  have hs₀ := hs
  rw [step_eq h.left hr] at hs
  simp only [stepAt] at hs
  split at hs
  · next hg =>
    obtain rfl := Option.some.inj hs
    have hd : d.conts d.cur = some [] := by simp [St.conts, hr', hk.cont_nil hg.1]
    exact h.alone hs₀ (h.alike.goOn_left hd (.inl (.inl ⟨p, rfl⟩))) (by simp [St.cause])
  · cases hs

/-- **A step of a call that is left out.** -/
theorem Paired.skip (h : Paired F s d) (hs : step s .run = some s') (hd : d.conts d.cur = some [])
    (hok : Moot s d .run) : Paired F s' d := by
  obtain ⟨r, r', hr, hr', hk⟩ := h.records
  have hs₀ := hs
  rw [step_eq h.left hr] at hs
  simp only [stepAt] at hs
  have hnil : r'.cont = [] := by simpa [St.conts, hr'] using hd
  have hcall : InCall r.cont := by
    obtain he | ⟨hc, -⟩ := hk.cont
    · rw [← he, hnil] at hs
      cases hs
    · exact hc
  have hmoot := hok rfl hd
  obtain ⟨p, hc⟩ | hc := hcall
  · have hl : s.conts s.cur = some [.setPriority p, .checkPreempt] := by simp [St.conts, hr, hc]
    simp only [hc, exec, Option.some.injEq] at hs
    have hp : p = s.prio s.cur := by simpa [moot, hl] using hmoot
    subst hs
    have hset : Alike F (s.setPrio s.cur p) d := by
      refine h.alike.upd_left fun q q' hq _ hk => ⟨blank_eq.2 (blank_eq.1 hk.blank), fun hn => ?_, hk.cont⟩
      rw [hk.priority hn, hp]
      simp [St.prio, hq]
    exact h.alone hs₀ (hset.goOn_left hd (.inl (.inr rfl))) (by simp [St.cause, hl])
  · have hl : s.conts s.cur = some [.checkPreempt] := by simp [St.conts, hr, hc]
    simp only [hc, exec, Option.some.injEq] at hs
    have hno : needYield s = false := by simpa [moot, hl] using hmoot
    rw [hno] at hs
    subst hs
    exact h.alone hs₀ (h.alike.goOn_left hd (.inr rfl)) (by simp [St.cause, hl])

/-- **The second run can follow.** -/
theorem Paired.follow (h : Paired F s d) (hok : Moot s d a) (hs : step s a = some s') {e : Option Act}
    (he : Edit d a e) : (e = none → ∃ F', Paired F' s' d) ∧
      ∀ b, e = some b → ∃ d', step d b = some d' ∧ ∃ F', Paired F' s' d' := by
  cases a with
  | call q =>
    cases q with
    | setPriority p =>
      obtain rfl : e = none := he
      exact ⟨fun _ => ⟨F, h.setPriority hs⟩, nofun⟩
    | threadCreate c p =>
      obtain ⟨p', hp', rfl⟩ := he
      obtain ⟨d', hd', hpair⟩ := h.create hs hp'
      exact ⟨nofun, fun b hb => Option.some.inj hb ▸ ⟨d', hd', _, hpair⟩⟩
    | _ =>
      obtain rfl := he
      obtain ⟨d', hd', hpair⟩ := h.call hs nofun nofun
      exact ⟨nofun, fun b hb => Option.some.inj hb ▸ ⟨d', hd', F, hpair⟩⟩
  | run =>
    have he : e = if d.conts d.cur = some [] then none else some .run := he
    by_cases hd : d.conts d.cur = some []
    · rw [if_pos hd] at he
      exact ⟨fun _ => ⟨F, h.skip hs hd hok⟩, fun b hb => (by cases he.symm.trans hb)⟩
    · rw [if_neg hd] at he
      refine ⟨fun hn => (by cases he.symm.trans hn), fun b hb => ?_⟩
      obtain rfl := Option.some.inj (he.symm.trans hb)
      exact h.run hs hd
  | _ =>
    obtain rfl := he
    obtain ⟨d', hd', hpair⟩ := h.intr hs nofun nofun
    exact ⟨nofun, fun b hb => Option.some.inj hb ▸ ⟨d', hd', F, hpair⟩⟩

theorem paired_start (aging : Bool) (value : ℕ → ℕ) :
    Paired (fun _ => False) (initial aging true value) (initial aging true value) where
  alike := by
    refine ⟨rfl, fun t => ?_, nofun, not_false, fun _ _ => not_false, nofun⟩
    cases (initial aging true value).threads t with
    | none => exact .none
    | some r => exact .some (.refl r)
  due := ⟨nofun, nofun⟩
  left := Inv.initial
  right := Inv.initial
  mlfqs := rfl

theorem paired_of_twin (h : Twin Moot s d) : ∃ F, Paired F s d := by
  induction h with
  | start aging value => exact ⟨_, paired_start aging value⟩
  | both _ hok hs he hd ih =>
    obtain ⟨F, hpair⟩ := ih
    obtain ⟨d', hd', F', hpair'⟩ := (hpair.follow hok hs he).2 _ rfl
    obtain rfl := Option.some.inj (hd'.symm.trans hd)
    exact ⟨F', hpair'⟩
  | left _ hok hs he ih =>
    obtain ⟨F, hpair⟩ := ih
    exact (hpair.follow hok hs he).1 rfl

/-- **Priorities that threads ask for change nothing**, as long as `thread_set_priority` sets the priority that the
caller has. At any time the two runs have the same thread on the CPU, after the same number of dispatches, with the
same priority, and the same `ready_list`; and whatever the first run does next, the second one can follow. -/
theorem priority_not_chosen (h : Twin Moot s d) :
    d.cur = s.cur ∧ d.dispatches = s.dispatches ∧ d.prio d.cur = s.prio s.cur ∧ d.readyList = s.readyList ∧
      ∀ a s' b, Moot s d a → sys.step s a = some s' → Edit d a (some b) → ∃ d', sys.step d b = some d' := by
  obtain ⟨F, hpair⟩ := paired_of_twin h
  have hk := hpair.alike
  refine ⟨hk.cur_eq, (congrArg St.dispatches hk.rest).symm, ?_, hk.readyList_eq, fun a s' b hok hs he => ?_⟩
  · rw [hk.cur_eq, hk.prio hk.cur]
  · obtain ⟨d', hd', -⟩ := (hpair.follow hok hs he).2 b rfl
    exact ⟨d', hd'⟩

end Twin

/-! ### Computed runs -/

/-- The action of the second run, which calls `thread_create` with the priority `p`. -/
def edit (p : ℤ) (d : St) : Act → Option Act
  | .call (.setPriority _) => none
  | .call (.threadCreate c _) => some (.call (.threadCreate c p))
  | .run => if d.conts d.cur = some [] then none else some .run
  | a => some a

def twinRun (okb : St → St → Act → Bool) (p : ℤ) : St → St → List Act → Option (St × St)
  | s, d, [] => some (s, d)
  | s, d, a :: as =>
    if okb s d a then (sys.step s a).bind fun s' =>
      match edit p d a with
      | none => twinRun okb p s' d as
      | some b => (sys.step d b).bind fun d' => twinRun okb p s' d' as
    else none

theorem edit_edit {p : ℤ} (hp : priMin ≤ p ∧ p ≤ priMax) (d : St) (a : Act) : Edit d a (edit p d a) := by
  cases a with
  | call q =>
    cases q with
    | threadCreate c p' => exact ⟨p, hp, rfl⟩
    | _ => rfl
  | _ => rfl

theorem Twin.run {ok : St → St → Act → Prop} {okb : St → St → Act → Bool} {p : ℤ} {as : List Act}
    {s d : St} {e : St × St} (h : Twin ok s d) (himp : ∀ s d a, okb s d a = true → ok s d a)
    (hp : priMin ≤ p ∧ p ≤ priMax) (hr : twinRun okb p s d as = some e) : Twin ok e.1 e.2 := by
  induction as generalizing s d with
  | nil =>
    obtain rfl := Option.some.inj hr
    exact h
  | cons a as ih =>
    rw [twinRun] at hr
    split at hr
    · next hok =>
      obtain ⟨s', hs, hr⟩ := Option.bind_eq_some_iff.mp hr
      have hedit := edit_edit hp d a
      split at hr
      · next he => exact ih (.left h (himp _ _ _ hok) hs (he ▸ hedit)) hr
      · next b he =>
        obtain ⟨d', hd, hr⟩ := Option.bind_eq_some_iff.mp hr
        exact ih (.both h (himp _ _ _ hok) hs (he ▸ hedit) hd) hr
    · cases hr

/-- The initial thread creates a thread, which runs at once and sets its priority to `p`. -/
def lower (p : ℤ) : List Act :=
  List.replicate 7 Act.run ++ Act.call (.threadCreate 2 31) :: List.replicate 11 Act.run ++
    Act.call (.setPriority p) :: List.replicate 2 Act.run

theorem exists_of_twinRun {okb : St → St → Act → Bool} {p : ℤ} {as : List Act} {s d : St} (P : St × St → Prop)
    [DecidablePred P] (h : (twinRun okb p s d as).any (fun e => decide (P e)) = true) :
    ∃ e, twinRun okb p s d as = some e ∧ P e := by
  cases hr : twinRun okb p s d as with
  | none => simp [hr] at h
  | some e => exact ⟨e, rfl, by simpa [hr] using h⟩

/-- **A thread chooses its priority**: a call of `thread_set_priority` decides who runs. -/
theorem priority_chosen : ∃ s d, Twin (fun _ _ _ => True) s d ∧ d.cur = 2 ∧ s.cur = initialThread := by
  obtain ⟨e, hrun, hd, hs⟩ := exists_of_twinRun (fun e => e.2.cur = 2 ∧ e.1.cur = initialThread)
    (show (twinRun (fun _ _ _ => true) 0 (initial false true fun _ => 0) (initial false true fun _ => 0)
      (lower 0 ++ [Act.run])).any _ = true by decide +kernel)
  exact ⟨e.1, e.2, (Twin.start false _).run (fun _ _ _ _ => trivial) (by decide) hrun, hd, hs⟩

/-- The thread sets the priority it has, and it was created with another one. -/
theorem priority_not_chosen_lower : ∃ s d, Twin Moot s d ∧ s.cur = 2 ∧ s.prio 2 = 63 ∧ d.prio 2 = 63 := by
  obtain ⟨e, hrun, hcur, hs⟩ := exists_of_twinRun (fun e => e.1.cur = 2 ∧ e.1.prio 2 = 63)
    (show (twinRun (fun s d a => decide (Moot s d a)) 0 (initial false true fun _ => 0)
      (initial false true fun _ => 0) (lower 63)).any _ = true by decide +kernel)
  have ht : Twin Moot e.1 e.2 := (Twin.start false _).run (fun _ _ _ => of_decide_eq_true) (by decide) hrun
  obtain ⟨hcur', -, hprio, -⟩ := priority_not_chosen ht
  rw [hcur', hcur] at hprio
  exact ⟨e.1, e.2, ht, hcur, hs, hprio.trans hs⟩

end Threads
end Pintos

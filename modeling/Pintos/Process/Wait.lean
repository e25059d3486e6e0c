import Pintos.Process.Safety

/-!
# What `process_wait` returns

The log of a run says who created whom, how each process ended, when it raised its `Exit_sema`, and
what each `process_wait` returned. `WaitSpec` states the contract of `wait` over it:

* `WaitOK` — a `process_wait` for a child not yet waited for returns after that child's
  `sema_up (&cur->Exit_sema)`, with the status the child ended with; any other returns -1;
* no process's status is returned twice (`deliveries`);
* `process_wait` blocks for a child not yet waited for only, and returns -1 by the caller's own
  steps otherwise.

`LogInv` ties the log to the records: the children in a process's hands are the children the log
has as not yet waited for, and a record's `exit_status` is what the log says. It rests on the
lifetime invariant `Inv`, so the contract is proved for runs of careful steps (`waitSpec`). The
walk of `process_exit` breaks it otherwise: `wrongRecord` is a run in which `process_wait` returns
the status of another process's child.
-/

namespace Pintos
namespace Process

/-! ### The contract of `wait` -/

/-- The process an event is about. -/
def Event.subject : Event → ℤ
  | .spawned p _ => p
  | .exitCall c _ => c
  | .killed c => c
  | .loadFailed c => c
  | .exitUp c => c
  | .waited p _ _ _ => p

/-- `c` is a child of `p`, and no `process_wait (c)` of `p` has returned since its creation. -/
def unwaited : List Event → ℤ → ℤ → Bool
  | [], _, _ => false
  | .spawned p' c' :: log, p, c => (p' = p ∧ c' = c) || unwaited log p c
  | .waited p' c' _ _ :: log, p, c => !decide (p' = p ∧ c' = c) && unwaited log p c
  | _ :: log, p, c => unwaited log p c

/-- The status `c` ended with: what it passed to `exit`, and -1 if it was killed or failed to
load. -/
def statusOf : List Event → ℤ → ℤ
  | [], _ => -1
  | .exitCall c' status :: log, c => if c' = c then status else statusOf log c
  | .killed c' :: log, c => if c' = c then -1 else statusOf log c
  | .loadFailed c' :: log, c => if c' = c then -1 else statusOf log c
  | _ :: log, c => statusOf log c

/-- What a `process_wait (c)` of `p` that returns now has to have read and to return. -/
def ReturnOK (log : List Event) (p c : ℤ) (src : Option ℤ) (status : ℤ) : Prop :=
  if unwaited log p c then src = some c ∧ .exitUp c ∈ log ∧ status = statusOf log c
  else src = none ∧ status = -1

instance (log : List Event) (p c : ℤ) (src : Option ℤ) (status : ℤ) :
    Decidable (ReturnOK log p c src status) := by
  unfold ReturnOK
  infer_instance

/-- Every `process_wait` of the log returned what it had to. -/
def WaitOK : List Event → Prop
  | [] => True
  | .waited p c src status :: log => ReturnOK log p c src status ∧ WaitOK log
  | _ :: log => WaitOK log

/-- The processes whose status was read by a `process_wait` that returned. -/
def deliveries (log : List Event) : List ℤ :=
  log.filterMap fun
    | .waited _ _ src _ => src
    | _ => none

/-- `get_child_process` is looking for `tid` on behalf of `process_wait`. -/
def Scanning (pc : Pc) (tid : ℤ) : Prop :=
  (∃ e, pc = .find .wait tid e) ∨ ∃ r, pc = .findNext .wait tid r

/-- The contract of `wait`. -/
structure WaitSpec (s : St) : Prop where
  returns : WaitOK s.log
  once : (deliveries s.log).Nodup
  /-- `sema_down (&Child->Exit_sema)` is reached for a child not yet waited for only. -/
  blocks : ∀ a t tid r, s.mem a = some t → t.pc = .waitDown tid r →
    unwaited s.log t.tid tid = true
  /-- Otherwise the caller's own steps, none of which blocks, return -1. -/
  prompt : ∀ a t tid, s.mem a = some t → Scanning t.pc tid → unwaited s.log t.tid tid = false →
    ∃ n s', sys.run s (List.replicate n ⟨a, .next⟩) = some s' ∧
      s'.log = .waited t.tid tid none tidError :: s.log

/-! ### Reading the log -/

section Log

variable {log : List Event} {e : Event} {p c : ℤ}

/-- The status of a process depends on its own events only. -/
theorem statusOf_cons (h : e.subject ≠ c) : statusOf (e :: log) c = statusOf log c := by
  cases e <;> simp_all [statusOf, Event.subject]

/-- Whom a process has to wait for depends on its own events only. -/
theorem unwaited_cons (h : e.subject ≠ p) : unwaited (e :: log) p c = unwaited log p c := by
  cases e <;> simp_all [unwaited, Event.subject]

theorem statusOf_of_silent (h : ∀ e ∈ log, e.subject ≠ c) : statusOf log c = -1 := by
  induction log with
  | nil => rfl
  | cons e log ih =>
    rw [statusOf_cons (h e List.mem_cons_self)]
    exact ih fun e' he' => h e' (List.mem_cons_of_mem _ he')

theorem spawned_of_unwaited (h : unwaited log p c = true) : .spawned p c ∈ log := by
  induction log with
  | nil => simp [unwaited] at h
  | cons e log ih =>
    cases e with
    | spawned p' c' =>
      simp only [unwaited, Bool.or_eq_true, decide_eq_true_eq] at h
      rcases h with ⟨rfl, rfl⟩ | h
      · exact List.mem_cons_self
      · exact List.mem_cons_of_mem _ (ih h)
    | waited p' c' src status =>
      simp only [unwaited, Bool.and_eq_true] at h
      exact List.mem_cons_of_mem _ (ih h.2)
    | _ => exact List.mem_cons_of_mem _ (ih h)

theorem unwaited_of_silent (h : ∀ e ∈ log, e.subject ≠ p) : unwaited log p c = false := by
  rw [Bool.eq_false_iff]
  intro hu
  exact h _ (spawned_of_unwaited hu) rfl

end Log

/-! ### The invariant -/

/-- `process_exit` has begun to walk the `Child_list`. -/
def Pc.exiting : Pc → Bool
  | .exitLoop _ _ => true
  | .exitNext _ _ => true
  | .exitRest _ => true
  | .exitUp _ => true
  | .exitDown => true
  | .dying => true
  | _ => false

/-- `exit_status` is -1 until the process ends, and then what the log says. -/
def StatusOK (log : List Event) (t : Thread) : Prop :=
  match t.pc with
  | .idle => True
  | .start => statusOf log t.tid = -1
  | .exitBegin => t.exitStatus = statusOf log t.tid
  | .exitLoop _ _ => t.exitStatus = statusOf log t.tid
  | .exitNext _ _ => t.exitStatus = statusOf log t.tid
  | .exitRest _ => t.exitStatus = statusOf log t.tid
  | .exitUp _ => t.exitStatus = statusOf log t.tid
  | .exitDown => t.exitStatus = statusOf log t.tid
  | .dying => t.exitStatus = statusOf log t.tid
  | _ => t.exitStatus = -1 ∧ statusOf log t.tid = -1

/-- The child a wait has found, and what it has read. -/
def FoundOK (log : List Event) (tid : ℤ) (r : Ref) (src : ℤ) (status : ℤ) : Prop :=
  r.tid = tid ∧ src = tid ∧ .exitUp tid ∈ log ∧ status = statusOf log tid

/-- What a search and a wait know of the children. -/
def ScanOK (log : List Event) (t : Thread) : Prop :=
  match t.pc with
  | .find _ tid (.child r) => ∃ pre, t.childList = pre ++ r :: listAfter r.addr t.childList ∧
      ∀ x ∈ pre, x.tid ≠ tid
  | .find _ tid (.tail _) => ∀ x ∈ t.childList, x.tid ≠ tid
  | .findNext _ tid r => ∃ pre, t.childList = pre ++ r :: listAfter r.addr t.childList ∧
      ∀ x ∈ pre ++ [r], x.tid ≠ tid
  | .waitDown tid r => r.tid = tid
  | .waitRead tid r => r.tid = tid ∧ .exitUp tid ∈ log
  | .waitRemove tid r src status => FoundOK log tid r src status
  | .waitUp tid r src status => FoundOK log tid r src status
  | _ => True

/-- What ties a record to the log. -/
structure RecOK (log : List Event) (a : Addr) (t : Thread) : Prop where
  status : a ≠ initialThread → StatusOK log t
  /-- After its `sema_up (&cur->Exit_sema)` a thread only waits and dies. -/
  exited : .exitUp t.tid ∈ log → t.pc = .exitDown ∨ t.pc = .dying
  raised : t.exitSema ≠ 0 → .exitUp t.tid ∈ log
  /-- The children in its hands are the ones it has not waited for. -/
  children : t.pc.exiting = false → ∀ c, unwaited log t.tid c = true ↔ ∃ r ∈ owned t, r.tid = c
  scan : ScanOK log t

/-- The invariant that ties the log to the records. -/
structure LogInv (s : St) : Prop where
  tid_lt : ∀ a t, s.mem a = some t → t.tid < s.nextTid
  tid_inj : ∀ a b t t', s.mem a = some t → s.mem b = some t' → t.tid = t'.tid → a = b
  subject_lt : ∀ e ∈ s.log, e.subject < s.nextTid
  child_lt : ∀ p c, .spawned p c ∈ s.log → c < s.nextTid
  parent_unique : ∀ p p' c, .spawned p c ∈ s.log → .spawned p' c ∈ s.log → p = p'
  record : ∀ a t, s.mem a = some t → RecOK s.log a t
  returns : WaitOK s.log
  once : (deliveries s.log).Nodup
  /-- A status that was read is that of a child, which is then waited for. -/
  delivered : ∀ p c src status, .waited p c (some src) status ∈ s.log →
    src = c ∧ .spawned p c ∈ s.log ∧ unwaited s.log p c = false

theorem LogInv.initial : LogInv initial where
  tid_lt := by
    intro a t ht
    simp only [Process.initial] at ht ⊢
    split at ht
    · cases ht; simp [newThread]
    · split at ht
      · cases ht; simp [newThread]
      · cases ht
  tid_inj := by
    intro a b t t' ht ht' htid
    simp only [Process.initial] at ht ht'
    split at ht <;> split at ht'
    · next ha hb => rw [ha, hb]
    · split at ht'
      · cases ht; cases ht'; simp [newThread] at htid
      · cases ht'
    · split at ht
      · cases ht; cases ht'; simp [newThread] at htid
      · cases ht
    · split at ht <;> split at ht'
      · next ha hb => rw [ha, hb]
      · cases ht'
      · cases ht
      · cases ht
  subject_lt := by simp [Process.initial, Event.subject]
  child_lt := by simp [Process.initial]
  parent_unique := by
    intro p p' c h h'
    simp only [Process.initial, List.mem_singleton, Event.spawned.injEq] at h h'
    rw [h.1, h'.1]
  record := by
    intro a t ht
    simp only [Process.initial] at ht ⊢
    split at ht
    · next ha =>
      cases ht
      refine ⟨fun h => absurd ha h, by simp, by simp [newThread], fun _ c => ?_, trivial⟩
      simp [unwaited, owned, newThread, eq_comm]
    · split at ht
      · cases ht
        exact ⟨fun _ => trivial, by simp, by simp [newThread], by simp [unwaited, owned, newThread],
          trivial⟩
      · cases ht
  returns := trivial
  once := List.nodup_nil
  delivered := by simp [Process.initial]

/-! ### Records the step does not touch -/

/-- `c'` is `c` up to `Load_sema`, `Destroy_sema` and a lowered `Exit_sema`. -/
structure SameRec (c c' : Thread) : Prop where
  tid : c'.tid = c.tid
  childList : c'.childList = c.childList
  exitStatus : c'.exitStatus = c.exitStatus
  pc : c'.pc = c.pc
  exitSema : c'.exitSema ≠ 0 → c.exitSema ≠ 0

theorem SameRec.refl (c : Thread) : SameRec c c := ⟨rfl, rfl, rfl, rfl, fun h => h⟩

section Records

variable {log : List Event} {a : Addr} {t t' : Thread}

theorem RecOK.same (h : RecOK log a t) (hs : SameRec t t') : RecOK log a t' := by
  refine ⟨fun ha => ?_, fun he => ?_, fun he => ?_, fun hpc c => ?_, ?_⟩
  · have hst := h.status ha
    unfold StatusOK at hst ⊢
    rw [hs.pc, hs.tid, hs.exitStatus]
    exact hst
  · rw [hs.pc]
    exact h.exited (hs.tid ▸ he)
  · rw [hs.tid]
    exact h.raised (hs.exitSema he)
  · have howned : owned t' = owned t := by unfold owned; rw [hs.pc, hs.childList]
    rw [hs.tid, howned]
    exact h.children (hs.pc ▸ hpc) c
  · have hsc := h.scan
    unfold ScanOK at hsc ⊢
    rw [hs.pc, hs.childList]
    exact hsc

/-- **Frame rule for the log.** An event of another process does not concern a record, provided
that it changes no status that a wait has already read. -/
theorem RecOK.cons (h : RecOK log a t) {e : Event} (hsub : e.subject ≠ t.tid)
    (hquiet : ∀ c, .exitUp c ∈ log → statusOf (e :: log) c = statusOf log c) :
    RecOK (e :: log) a t := by
  have hfound : ∀ {tid r src status}, FoundOK log tid r src status →
      FoundOK (e :: log) tid r src status := by
    rintro tid r src status ⟨hr, hsrc, hup, hst⟩
    exact ⟨hr, hsrc, List.mem_cons_of_mem _ hup, hst.trans (hquiet tid hup).symm⟩
  refine ⟨fun ha => ?_, fun he => ?_, fun he => ?_, fun hpc c => ?_, ?_⟩
  · have hst := h.status ha
    unfold StatusOK at hst ⊢
    rw [statusOf_cons hsub]
    exact hst
  · rcases List.mem_cons.mp he with heq | he
    · exact absurd (by rw [← heq]; rfl) hsub
    · exact h.exited he
  · exact List.mem_cons_of_mem _ (h.raised he)
  · rw [unwaited_cons hsub]
    exact h.children hpc c
  · have hsc := h.scan
    unfold ScanOK at hsc ⊢
    split at hsc
    · exact hsc
    · exact hsc
    · exact hsc
    · exact hsc
    · exact ⟨hsc.1, List.mem_cons_of_mem _ hsc.2⟩
    · exact hfound hsc
    · exact hfound hsc
    · trivial

/-- A thread that still has its children has not raised its `Exit_sema`. -/
theorem RecOK.not_exited (h : RecOK log a t) (hpc : t.pc.exiting = false) :
    .exitUp t.tid ∉ log := by
  intro he
  rcases h.exited he with hd | hd
  · simp [hd, Pc.exiting] at hpc
  · simp [hd, Pc.exiting] at hpc

/-- The thread moves on with the same children in its hands. -/
theorem RecOK.goto (h : RecOK log a t) {pc : Pc} (hup : .exitUp t.tid ∉ log)
    (hstatus : a ≠ initialThread → StatusOK log { t with pc := pc })
    (howned : pc.exiting = false → t.pc.exiting = false ∧ owned { t with pc := pc } = owned t)
    (hscan : ScanOK log { t with pc := pc }) : RecOK log a { t with pc := pc } := by
  refine ⟨hstatus, fun he => absurd he hup, h.raised, fun hpc c => ?_, hscan⟩
  obtain ⟨hpc', ho⟩ := howned hpc
  rw [ho]
  exact h.children hpc' c

end Records

/-! ### Preservation -/

section Preservation

variable {s s' : St} {a : Addr} {t : Thread}

/-- A step after which all other records are what they were, and the log as well. -/
theorem LogInv.silent (h : LogInv s) (ht : s.mem a = some t) (hnext : s'.nextTid = s.nextTid)
    (hlog : s'.log = s.log)
    (hothers : ∀ b tb', b ≠ a → s'.mem b = some tb' → ∃ tb, s.mem b = some tb ∧ SameRec tb tb')
    (hactor : ∀ t', s'.mem a = some t' → t'.tid = t.tid ∧ RecOK s.log a t') : LogInv s' := by
  have hold : ∀ {b tb'}, s'.mem b = some tb' → ∃ tb, s.mem b = some tb ∧ tb'.tid = tb.tid := by
    intro b tb' htb'
    by_cases hb : b = a
    · subst hb
      exact ⟨t, ht, (hactor tb' htb').1⟩
    · obtain ⟨tb, htb, hs⟩ := hothers b tb' hb htb'
      exact ⟨tb, htb, hs.tid⟩
  refine ⟨?_, ?_, ?_, ?_, ?_, ?_, ?_, ?_, ?_⟩
  · intro b tb' htb'
    obtain ⟨tb, htb, htid⟩ := hold htb'
    rw [htid, hnext]
    exact h.tid_lt b tb htb
  · intro b b' tb tb' htb htb' htid
    obtain ⟨t₁, ht₁, hid₁⟩ := hold htb
    obtain ⟨t₂, ht₂, hid₂⟩ := hold htb'
    exact h.tid_inj b b' t₁ t₂ ht₁ ht₂ (by rw [← hid₁, ← hid₂, htid])
  · rw [hlog, hnext]; exact h.subject_lt
  · rw [hlog, hnext]; exact h.child_lt
  · rw [hlog]; exact h.parent_unique
  · intro b tb' htb'
    rw [hlog]
    by_cases hb : b = a
    · subst hb
      exact (hactor tb' htb').2
    · obtain ⟨tb, htb, hs⟩ := hothers b tb' hb htb'
      exact (h.record b tb htb).same hs
  · rw [hlog]; exact h.returns
  · rw [hlog]; exact h.once
  · rw [hlog]; exact h.delivered

/-- The log-only part of the invariant after one more event. -/
theorem LogInv.returns_cons (h : LogInv s) {e : Event} (hnew : ∀ p c, e ≠ .spawned p c)
    (hret : ∀ p c src status, e = .waited p c src status → ReturnOK s.log p c src status) :
    WaitOK (e :: s.log) ∧ (deliveries (e :: s.log)).Nodup ∧
      ∀ p c src status, .waited p c (some src) status ∈ e :: s.log →
        src = c ∧ .spawned p c ∈ e :: s.log ∧ unwaited (e :: s.log) p c = false := by
  have hmono : ∀ {p c}, unwaited s.log p c = false → unwaited (e :: s.log) p c = false := by
    intro p c hu
    cases e with
    | spawned p' c' => exact absurd rfl (hnew p' c')
    | waited p' c' src' status' => simp [unwaited, hu]
    | _ => exact hu
  have hdel : ∀ p c src status, .waited p c (some src) status ∈ s.log →
      src = c ∧ .spawned p c ∈ e :: s.log ∧ unwaited (e :: s.log) p c = false := by
    intro p c src status hm
    obtain ⟨hsrc, hsp, hu⟩ := h.delivered p c src status hm
    exact ⟨hsrc, List.mem_cons_of_mem _ hsp, hmono hu⟩
  cases e with
  | spawned p' c' => exact absurd rfl (hnew p' c')
  | waited p' c' src' status' =>
    have hr := hret p' c' src' status' rfl
    refine ⟨⟨hr, h.returns⟩, ?_, ?_⟩
    · cases src' with
      | none => exact h.once
      | some d =>
        unfold ReturnOK at hr
        split at hr
        · next hu =>
          obtain rfl : d = c' := Option.some.inj hr.1
          refine List.nodup_cons.mpr ⟨fun hmem => ?_, h.once⟩
          -- an earlier delivery of `d` came from the same parent, and left it waited for
          obtain ⟨e', he', hd⟩ := List.mem_filterMap.mp hmem
          cases e' with
          | waited p₀ c₀ src₀ status₀ =>
            obtain rfl : src₀ = some d := hd
            obtain ⟨rfl, hsp, hu₀⟩ := h.delivered p₀ c₀ d status₀ he'
            obtain rfl := h.parent_unique _ _ _ hsp (spawned_of_unwaited hu)
            rw [hu] at hu₀
            cases hu₀
          | _ => cases hd
        · cases hr.1
    · intro p c src status hm
      rcases List.mem_cons.mp hm with heq | hm
      · cases heq
        unfold ReturnOK at hr
        split at hr
        · next hu =>
          refine ⟨Option.some.inj hr.1, List.mem_cons_of_mem _ (spawned_of_unwaited hu), ?_⟩
          simp [unwaited]
        · cases hr.1
      · exact hdel p c src status hm
  | _ =>
    refine ⟨h.returns, h.once, fun p c src status hm => ?_⟩
    rcases List.mem_cons.mp hm with heq | hm
    · cases heq
    · exact hdel p c src status hm

/-- A step that records one event of the acting thread. -/
theorem LogInv.noted (h : LogInv s) (ht : s.mem a = some t) {e : Event}
    (hnext : s'.nextTid = s.nextTid) (hlog : s'.log = e :: s.log) (hsub : e.subject = t.tid)
    (hnew : ∀ p c, e ≠ .spawned p c)
    (hquiet : .exitUp t.tid ∈ s.log → statusOf (e :: s.log) t.tid = statusOf s.log t.tid)
    (hret : ∀ p c src status, e = .waited p c src status → ReturnOK s.log p c src status)
    (hothers : ∀ b tb', b ≠ a → s'.mem b = some tb' → ∃ tb, s.mem b = some tb ∧ SameRec tb tb')
    (hactor : ∀ t', s'.mem a = some t' → t'.tid = t.tid ∧ RecOK (e :: s.log) a t') :
    LogInv s' := by
  have hquiet' : ∀ c, .exitUp c ∈ s.log → statusOf (e :: s.log) c = statusOf s.log c := by
    intro c hc
    by_cases hct : e.subject = c
    · subst hct
      rw [hsub] at hc ⊢
      exact hquiet hc
    · exact statusOf_cons hct
  have hold : ∀ {b tb'}, s'.mem b = some tb' → ∃ tb, s.mem b = some tb ∧ tb'.tid = tb.tid := by
    intro b tb' htb'
    by_cases hb : b = a
    · subst hb
      exact ⟨t, ht, (hactor tb' htb').1⟩
    · obtain ⟨tb, htb, hs⟩ := hothers b tb' hb htb'
      exact ⟨tb, htb, hs.tid⟩
  have hspawned : ∀ {p c}, .spawned p c ∈ e :: s.log → .spawned p c ∈ s.log := by
    intro p c hm
    rcases List.mem_cons.mp hm with heq | hm
    · exact absurd heq.symm (hnew p c)
    · exact hm
  obtain ⟨hreturns, honce, hdelivered⟩ := h.returns_cons hnew hret
  refine ⟨?_, ?_, ?_, ?_, ?_, ?_, by rw [hlog]; exact hreturns, by rw [hlog]; exact honce,
    by rw [hlog]; exact hdelivered⟩
  · intro b tb' htb'
    obtain ⟨tb, htb, htid⟩ := hold htb'
    rw [htid, hnext]
    exact h.tid_lt b tb htb
  · intro b b' tb tb' htb htb' htid
    obtain ⟨t₁, ht₁, hid₁⟩ := hold htb
    obtain ⟨t₂, ht₂, hid₂⟩ := hold htb'
    exact h.tid_inj b b' t₁ t₂ ht₁ ht₂ (by rw [← hid₁, ← hid₂, htid])
  · rw [hlog, hnext]
    intro e' he'
    rcases List.mem_cons.mp he' with rfl | he'
    · rw [hsub]
      exact h.tid_lt a t ht
    · exact h.subject_lt e' he'
  · rw [hlog, hnext]
    exact fun p c hm => h.child_lt p c (hspawned hm)
  · rw [hlog]
    exact fun p p' c hm hm' => h.parent_unique p p' c (hspawned hm) (hspawned hm')
  · intro b tb' htb'
    rw [hlog]
    by_cases hb : b = a
    · subst hb
      exact (hactor tb' htb').2
    · obtain ⟨tb, htb, hs⟩ := hothers b tb' hb htb'
      refine ((h.record b tb htb).cons ?_ hquiet').same hs
      rw [hsub]
      exact fun heq => hb (h.tid_inj a b t tb ht htb heq).symm

/-- The record the acting thread has after a change of its own. -/
theorem actor_of_upd (ht : s.mem a = some t) {f : Thread → Thread} {log : List Event}
    (htid : (f t).tid = t.tid) (hrec : RecOK log a (f t)) :
    ∀ t', (s.upd a f).mem a = some t' → t'.tid = t.tid ∧ RecOK log a t' := by
  intro t' ht'
  rw [St.upd_mem_self ht] at ht'
  obtain rfl := Option.some.inj ht'
  exact ⟨htid, hrec⟩

theorem others_of_upd {f : Thread → Thread} : ∀ b tb', b ≠ a → (s.upd a f).mem b = some tb' →
    ∃ tb, s.mem b = some tb ∧ SameRec tb tb' := by
  intro b tb' hb htb'
  rw [St.upd_mem_of_ne hb] at htb'
  exact ⟨tb', htb', SameRec.refl tb'⟩

/-- The acting thread moves on and changes a semaphore of its child `r`. -/
theorem actor_of_sema (ht : s.mem a = some t) {pc : Pc} {r : Ref} (hne : r.addr ≠ a)
    {f : Thread → Thread} {log : List Event} (hrec : RecOK log a { t with pc := pc }) :
    ∀ t', ((s.goto a pc).upd r.addr f).mem a = some t' → t'.tid = t.tid ∧ RecOK log a t' := by
  intro t' ht'
  rw [St.upd_mem_of_ne hne.symm] at ht'
  exact actor_of_upd ht rfl hrec t' ht'

theorem others_of_sema {pc : Pc} {r : Ref} {c : Thread} {f : Thread → Thread}
    (hne : r.addr ≠ a) (hc : s.mem r.addr = some c) (hf : SameRec c (f c)) :
    ∀ b tb', b ≠ a → ((s.goto a pc).upd r.addr f).mem b = some tb' →
      ∃ tb, s.mem b = some tb ∧ SameRec tb tb' := by
  intro b tb' hb htb'
  have hc' : (s.goto a pc).mem r.addr = some c := (St.upd_mem_of_ne hne).trans hc
  rcases St.upd_mem_cases hc' htb' with ⟨rfl, rfl⟩ | ⟨-, htb'⟩
  · exact ⟨c, hc, hf⟩
  · exact others_of_upd b tb' hb htb'

/-- `thread_create` keeps the invariant. -/
theorem LogInv.exec (h : LogInv s) (ht : s.mem a = some t) (hpc : t.pc = .user)
    {page : Addr} (hfree : s.mem page = none) : LogInv (threadCreate s a t page) := by
  have hap : a ≠ page := by rintro rfl; simp [ht] at hfree
  have htlt := h.tid_lt a t ht
  have ht' : (s.alloc page (newThread s.nextTid a)).mem a = some t := by
    simpa [St.alloc, Function.update_of_ne hap] using ht
  have hcases : ∀ {b tb}, (threadCreate s a t page).mem b = some tb →
      (b = page ∧ tb = newThread s.nextTid a) ∨
      (b = a ∧ tb.tid = t.tid ∧ RecOK (.spawned t.tid s.nextTid :: s.log) a tb) ∨
      (b ≠ a ∧ s.mem b = some tb) := by
    intro b tb htb
    rcases St.upd_mem_cases ht' htb with ⟨rfl, rfl⟩ | ⟨hba, htb⟩
    · refine .inr (.inl ⟨rfl, rfl, ?_⟩)
      have hrec := h.record b t ht
      have hup : .exitUp t.tid ∉ s.log := hrec.not_exited (by rw [hpc]; rfl)
      refine ⟨fun hb => ?_, fun he => ?_, fun he => List.mem_cons_of_mem _ (hrec.raised he),
        fun _ c => ?_, ?_⟩
      · have hst := hrec.status hb
        simpa [StatusOK, hpc, statusOf] using hst
      · exact absurd (List.mem_of_ne_of_mem (by simp) he) hup
      · have hch := hrec.children (by rw [hpc]; rfl) c
        simp only [owned, hpc] at hch
        have hnew : unwaited (.spawned t.tid s.nextTid :: s.log) t.tid c = true ↔
            s.nextTid = c ∨ unwaited s.log t.tid c = true := by simp [unwaited]
        rw [hnew, hch]
        simp only [owned, List.mem_append, List.mem_singleton]
        constructor
        · rintro (rfl | ⟨r, hr, hrc⟩)
          · exact ⟨⟨page, s.nextTid⟩, .inr rfl, rfl⟩
          · exact ⟨r, .inl hr, hrc⟩
        · rintro ⟨r, hr | rfl, hrc⟩
          · exact .inr ⟨r, hr, hrc⟩
          · exact .inl hrc
      · cases hk : t.childList with
        | nil | cons r l => exact ⟨[], by simp [listAfter], by simp⟩
    · by_cases hbp : b = page
      · subst hbp
        simp only [St.alloc, Function.update_self] at htb
        exact .inl ⟨rfl, (Option.some.inj htb).symm⟩
      · simp only [St.alloc, Function.update_of_ne hbp] at htb
        exact .inr (.inr ⟨hba, htb⟩)
  have hsilent : ∀ e ∈ (.spawned t.tid s.nextTid :: s.log : List Event), e.subject ≠ s.nextTid := by
    intro e he
    rcases List.mem_cons.mp he with rfl | he
    · exact Int.ne_of_lt htlt
    · exact Int.ne_of_lt (h.subject_lt e he)
  have hspawned : ∀ {p c}, .spawned p c ∈ (.spawned t.tid s.nextTid :: s.log : List Event) →
      (p = t.tid ∧ c = s.nextTid) ∨ .spawned p c ∈ s.log := by
    intro p c hm
    simpa using hm
  have htids : ∀ {b tb}, (threadCreate s a t page).mem b = some tb →
      tb.tid = s.nextTid ∧ b = page ∨ ∃ tb', s.mem b = some tb' ∧ tb.tid = tb'.tid := by
    intro b tb htb
    rcases hcases htb with ⟨hb, rfl⟩ | ⟨rfl, htid, -⟩ | ⟨-, htb⟩
    · exact .inl ⟨rfl, hb⟩
    · exact .inr ⟨t, ht, htid⟩
    · exact .inr ⟨tb, htb, rfl⟩
  have hnext : (threadCreate s a t page).nextTid = s.nextTid + 1 := rfl
  refine ⟨?_, ?_, ?_, ?_, ?_, ?_, h.returns, h.once, ?_⟩
  · intro b tb htb
    rw [hnext]
    rcases htids htb with ⟨htid, -⟩ | ⟨tb', htb', htid⟩
    · omega
    · have := h.tid_lt b tb' htb'
      omega
  · intro b b' tb tb' htb htb' heq
    rcases htids htb with ⟨h₁, hb⟩ | ⟨t₁, ht₁, h₁⟩ <;>
      rcases htids htb' with ⟨h₂, hb'⟩ | ⟨t₂, ht₂, h₂⟩
    · rw [hb, hb']
    · have := h.tid_lt b' t₂ ht₂
      omega
    · have := h.tid_lt b t₁ ht₁
      omega
    · exact h.tid_inj b b' t₁ t₂ ht₁ ht₂ (by rw [← h₁, ← h₂, heq])
  · intro e he
    rw [hnext]
    rcases List.mem_cons.mp he with rfl | he
    · exact Int.lt_trans htlt (Int.lt_succ _)
    · exact Int.lt_trans (h.subject_lt e he) (Int.lt_succ _)
  · intro p c hm
    rw [hnext]
    rcases hspawned hm with ⟨-, rfl⟩ | hm
    · omega
    · have := h.child_lt p c hm
      omega
  · intro p p' c hm hm'
    rcases hspawned hm with ⟨rfl, hc⟩ | hm <;> rcases hspawned hm' with ⟨rfl, hc'⟩ | hm'
    · rfl
    · have := h.child_lt p' c hm'
      omega
    · have := h.child_lt p c hm
      omega
    · exact h.parent_unique p p' c hm hm'
  · intro b tb htb
    rcases hcases htb with ⟨rfl, rfl⟩ | ⟨rfl, -, hrec⟩ | ⟨hba, htb⟩
    · refine ⟨fun _ => statusOf_of_silent hsilent, fun he => ?_, by simp [newThread], fun _ c => ?_,
        trivial⟩
      · exact absurd rfl (hsilent _ he)
      · have hu : unwaited (.spawned t.tid s.nextTid :: s.log) s.nextTid c = false :=
          unwaited_of_silent hsilent
        simpa [owned, newThread, threadCreate, St.note, St.upd, St.alloc] using hu
    · exact hrec
    · refine (h.record b tb htb).cons ?_ (fun c _ => rfl)
      exact fun heq => hba (h.tid_inj a b t tb ht htb heq).symm
  · intro p c src status hm
    have hm' : .waited p c (some src) status ∈ s.log := List.mem_of_ne_of_mem (by simp) hm
    obtain ⟨hsrc, hsp, hu⟩ := h.delivered p c src status hm'
    refine ⟨hsrc, List.mem_cons_of_mem _ hsp, ?_⟩
    have hc := h.child_lt p c hsp
    have hne : s.nextTid ≠ c := by omega
    simpa [threadCreate, St.note, St.upd, St.alloc, unwaited, hne] using hu

/-- A child in the hands of the process at `a` is the one with its `tid`. -/
theorem Inv.kept (hi : Inv s) (ht : s.mem a = some t) {r : Ref} {c : Thread} (hr : r ∈ owned t)
    (hc : s.mem r.addr = some c) : r.addr ≠ initialThread ∧ r.addr ≠ a ∧ c.tid = r.tid ∧
      c.parent = a ∧ c.pc ≠ .dying := by
  obtain ⟨hinit, hne, c', hc', htid, hpar, -, hpc⟩ := hi.held a t ht r hr
  obtain rfl : c = c' := Option.some.inj (hc.symm.trans hc')
  exact ⟨hinit, hne, htid, hpar, hpc⟩

/-- A walk that stops at the first element, if there is one, has passed none. -/
theorem scan_begin {log : List Event} {k : Caller} {tid : ℤ} :
    ScanOK log { t with pc := .find k tid (listBegin a t.childList) } := by
  cases hk : t.childList with
  | nil => simp [ScanOK, listBegin]
  | cons r l => exact ⟨[], by simp [listAfter], by simp⟩

theorem length_listAfter_le (x : Addr) (l : List Ref) : (listAfter x l).length ≤ l.length := by
  induction l with
  | nil => exact Nat.le_refl _
  | cons r l ih =>
    rw [listAfter]
    split
    · exact Nat.le_succ _
    · exact Nat.le_succ_of_le ih

/-- One `list_next` further, one more element is passed. -/
theorem scan_next {log : List Event} {k : Caller} {tid : ℤ} {r : Ref}
    (hnd : (t.childList.map Ref.addr).Nodup) (hscan : ScanOK log { t with pc := .findNext k tid r }) :
    ScanOK log { t with pc := .find k tid (listBegin a (listAfter r.addr t.childList)) } := by
  obtain ⟨pre, hsplit, hpre⟩ := hscan
  replace hsplit : t.childList = pre ++ r :: listAfter r.addr t.childList := hsplit
  cases hl : listAfter r.addr t.childList with
  | nil =>
    intro x hx
    rw [hl] at hsplit
    exact hpre x (hsplit ▸ hx)
  | cons r' l =>
    refine ⟨pre ++ [r], ?_, hpre⟩
    change t.childList = pre ++ [r] ++ r' :: listAfter r'.addr t.childList
    rw [listAfter_listAfter hnd hl, List.append_assoc, List.singleton_append, ← hl]
    exact hsplit

/-- Taking an element off the list and holding it keeps the children in hand. -/
theorem exists_mem_listRemove {l : List Ref} {r : Ref} (hr : r ∈ l)
    (hnd : (l.map Ref.addr).Nodup) (c : ℤ) :
    (∃ x ∈ l, x.tid = c) ↔ ∃ x ∈ r :: listRemove r.addr l, x.tid = c := by
  constructor
  · rintro ⟨x, hx, rfl⟩
    by_cases hxr : x = r
    · exact ⟨x, hxr ▸ List.mem_cons_self, rfl⟩
    · refine ⟨x, List.mem_cons_of_mem _ ?_, rfl⟩
      have hne : x.addr ≠ r.addr := fun heq => hxr (List.inj_on_of_nodup_map hnd hx hr heq)
      exact (List.mem_eraseP_of_neg (by simpa using hne)).mpr hx
  · rintro ⟨x, hx, rfl⟩
    rcases List.mem_cons.mp hx with rfl | hx
    · exact ⟨x, hr, rfl⟩
    · exact ⟨x, List.mem_of_mem_eraseP hx, rfl⟩

/-- **Invariant preservation.** Every careful step keeps the log in line with the records. -/
theorem LogInv.trans (h : LogInv s) (hi : Inv s) (ht : s.mem a = some t) {op : Op}
    (hi' : Inv s') (htr : Trans s a t op s') : LogInv s' := by
  have hrec := h.record a t ht
  have hok := hi.thread a t ht
  have hcur := hok.cursor
  have hstatus := hrec.status
  have hscan := hrec.scan
  have hup := hrec.not_exited
  unfold CursorOK at hcur
  unfold StatusOK at hstatus
  unfold ScanOK at hscan
  -- the thread moves to a place that says nothing about the log
  have hmove : ∀ pc : Pc, t.pc.exiting = false → (a ≠ initialThread → StatusOK s.log
      { t with pc := pc }) → (pc.exiting = false → owned { t with pc := pc } = owned t) →
      ScanOK s.log { t with pc := pc } → LogInv (s.goto a pc) := by
    intro pc hpc hst howned hsc
    exact h.silent ht rfl rfl others_of_upd (actor_of_upd ht rfl
      (hrec.goto (hup hpc) hst (fun he => ⟨hpc, howned he⟩) hsc))
  cases htr with
  | startFd hpc =>
    rw [hpc] at hstatus hup
    refine h.silent ht rfl rfl others_of_upd (actor_of_upd ht rfl
      ⟨fun ha => ⟨rfl, hstatus ha⟩, fun he => absurd he (hup rfl), hrec.raised, fun _ c => ?_,
        trivial⟩)
    simpa [owned, hpc] using hrec.children (by rw [hpc]; rfl) c
  | loadOk hpc hl | upLoad hpc =>
    rw [hpc] at hstatus hup
    refine h.silent ht rfl rfl others_of_upd (actor_of_upd ht rfl
      ⟨hstatus, fun he => absurd he (hup rfl), hrec.raised, fun _ c => ?_, trivial⟩)
    simpa [owned, hpc] using hrec.children (by rw [hpc]; rfl) c
  | loadFail hpc hl =>
    rw [hpc] at hstatus hup
    refine h.noted ht rfl rfl rfl (by simp) (fun he => absurd he (hup rfl)) (by simp) others_of_upd
      (actor_of_upd ht rfl ⟨fun ha => ⟨(hstatus ha).1, by simp [statusOf]⟩, fun he => ?_,
        fun he => List.mem_cons_of_mem _ (hrec.raised he), fun _ c => ?_, trivial⟩)
    · exact absurd (List.mem_of_ne_of_mem (by simp) he) (hup rfl)
    · simpa [owned, hpc, unwaited] using hrec.children (by rw [hpc]; rfl) c
  | execRefused hpc => exact h
  | exec hpc hfree => exact h.exec ht hpc hfree
  | wait hpc =>
    rw [hpc] at hstatus
    exact hmove _ (by rw [hpc]; rfl) hstatus (fun _ => by simp [owned, hpc]) scan_begin
  | @exit status hpc =>
    rw [hpc] at hup
    refine h.noted ht rfl rfl rfl (by simp) (fun he => absurd he (hup rfl)) (by simp) others_of_upd
      (actor_of_upd ht rfl ⟨fun _ => by simp [StatusOK, statusOf], fun he => ?_,
        fun he => List.mem_cons_of_mem _ (hrec.raised he), fun _ c => ?_, trivial⟩)
    · exact absurd (List.mem_of_ne_of_mem (by simp) he) (hup rfl)
    · simpa [owned, hpc, unwaited] using hrec.children (by rw [hpc]; rfl) c
  | kill hpc =>
    rw [hpc] at hstatus hup
    refine h.noted ht rfl rfl rfl (by simp) (fun he => absurd he (hup rfl)) (by simp) others_of_upd
      (actor_of_upd ht rfl ⟨fun ha => ?_, fun he => ?_,
        fun he => List.mem_cons_of_mem _ (hrec.raised he), fun _ c => ?_, trivial⟩)
    · simpa [StatusOK, statusOf] using (hstatus ha).1
    · exact absurd (List.mem_of_ne_of_mem (by simp) he) (hup rfl)
    · simpa [owned, hpc, unwaited] using hrec.children (by rw [hpc]; rfl) c
  | @loaded ok hpc =>
    rw [hpc] at hstatus
    cases ok with
    | true =>
      exact hmove .user (by rw [hpc]; rfl) hstatus (fun _ => by simp [owned, hpc]) trivial
    | false =>
      exact hmove .exitBegin (by rw [hpc]; rfl) (fun ha => (hstatus ha).1.trans (hstatus ha).2.symm)
        (fun _ => by simp [owned, hpc]) trivial
  | notFoundExecute hpc | execRead hpc hc =>
    rw [hpc] at hstatus
    exact hmove _ (by rw [hpc]; rfl) hstatus (fun _ => by simp [owned, hpc]) trivial
  | @notFoundWait tid hpc =>
    rw [hpc] at hstatus hup hscan
    -- the whole list was walked, so `tid` is not a child still to be waited for
    have hchildren := hrec.children (by rw [hpc]; rfl)
    simp only [owned, hpc] at hchildren
    have hnone : unwaited s.log t.tid tid = false := by
      rw [Bool.eq_false_iff]
      intro hu
      obtain ⟨r, hr, hrt⟩ := (hchildren tid).mp hu
      exact hscan r hr hrt
    refine h.noted ht rfl rfl rfl (by simp) (fun _ => rfl) ?_ others_of_upd (actor_of_upd ht rfl
      ⟨hstatus, fun he => ?_, fun he => List.mem_cons_of_mem _ (hrec.raised he), fun _ c => ?_,
        trivial⟩)
    · rintro p c src status heq
      cases heq
      simp [ReturnOK, hnone, tidError]
    · exact absurd (List.mem_of_ne_of_mem (by simp) he) (hup rfl)
    · by_cases hc : tid = c
      · subst hc
        simpa [unwaited, hnone, owned] using hscan
      · simpa [unwaited, hc, owned] using hchildren c
  | @find k tid r c hpc hc =>
    rw [hpc] at hstatus hscan hcur
    obtain ⟨-, -, htid, -, -⟩ := hi.kept ht (r := r) (by simpa [owned, hpc] using hcur) hc
    by_cases hct : c.tid = tid
    · rw [if_pos hct]
      cases k with
      | execute =>
        exact hmove (.execDown r) (by rw [hpc]; rfl) hstatus (fun _ => by simp [owned, hpc]) trivial
      | wait =>
        exact hmove (.waitDown tid r) (by rw [hpc]; rfl) hstatus (fun _ => by simp [owned, hpc])
          (htid.symm.trans hct)
    · rw [if_neg hct]
      refine hmove _ (by rw [hpc]; rfl) hstatus (fun _ => by simp [owned, hpc]) ?_
      obtain ⟨pre, hsplit, hpre⟩ := hscan
      refine ⟨pre, hsplit, fun x hx => ?_⟩
      rcases List.mem_append.mp hx with hx | hx
      · exact hpre x hx
      · rw [List.mem_singleton.mp hx, ← htid]
        exact hct
  | @findNext k tid r c hpc hc =>
    rw [hpc] at hstatus hscan hcur
    obtain ⟨-, -, -, hpar, -⟩ := hi.kept ht (r := r) (by simpa [owned, hpc] using hcur) hc
    rw [listNext_eq ht hpar]
    exact hmove _ (by rw [hpc]; rfl) hstatus (fun _ => by simp [owned, hpc])
      (scan_next hok.nodup hscan)
  | @execDown r c hpc hc hl =>
    rw [hpc] at hstatus hcur hup
    obtain ⟨-, hne, -⟩ := hi.kept ht (r := r) (by simpa [owned, hpc] using hcur) hc
    exact h.silent ht rfl rfl (others_of_sema hne hc ⟨rfl, rfl, rfl, rfl, fun he => he⟩)
      (actor_of_sema ht hne (hrec.goto (hup rfl) hstatus
        (fun _ => ⟨by rw [hpc]; rfl, by simp [owned, hpc]⟩) trivial))
  | @waitDown tid r c hpc hc hx =>
    rw [hpc] at hstatus hcur hup hscan
    obtain ⟨-, hne, htid, -⟩ := hi.kept ht (r := r) (by simpa [owned, hpc] using hcur) hc
    -- `Exit_sema` was raised by the child itself
    have hraised : .exitUp tid ∈ s.log := by
      rw [← hscan, ← htid]
      exact (h.record r.addr c hc).raised hx
    refine h.silent ht rfl rfl (others_of_sema hne hc ⟨rfl, rfl, rfl, rfl, fun he => ?_⟩)
      (actor_of_sema ht hne (hrec.goto (hup rfl) hstatus
        (fun _ => ⟨by rw [hpc]; rfl, by simp [owned, hpc]⟩) ⟨hscan, hraised⟩))
    exact hx
  | @waitRead tid r c hpc hc =>
    rw [hpc] at hstatus hcur hscan
    obtain ⟨hinit, -, htid, -, hdy⟩ := hi.kept ht (r := r) (by simpa [owned, hpc] using hcur) hc
    obtain ⟨hrt, hraised⟩ := hscan
    have hctid : c.tid = tid := htid.trans hrt
    -- past its `sema_up (&cur->Exit_sema)`, the child's status is final
    have hcrec := h.record r.addr c hc
    have hcpc : c.pc = .exitDown := (hcrec.exited (hctid ▸ hraised)).resolve_right hdy
    have hcst := hcrec.status hinit
    simp only [StatusOK, hcpc, hctid] at hcst
    exact hmove _ (by rw [hpc]; rfl) hstatus (fun _ => by simp [owned, hpc])
      ⟨hrt, hctid, hraised, hcst⟩
  | @waitRemove tid src r status c p hpc hc hp =>
    rw [hpc] at hstatus hcur hscan hup
    obtain ⟨-, -, -, hpar, -⟩ := hi.kept ht (r := r) (by simpa [owned, hpc] using hcur) hc
    have hchildren := hrec.children (by rw [hpc]; rfl)
    simp only [owned, hpc] at hchildren
    rw [hpar, St.goto, St.upd_upd_self]
    exact h.silent ht rfl rfl others_of_upd (actor_of_upd ht rfl
      ⟨hstatus, fun he => absurd he (hup rfl), hrec.raised,
        fun _ c => (hchildren c).trans (exists_mem_listRemove hcur hok.nodup c), hscan⟩)
  | @waitUp tid src r status c hpc hc =>
    have hr : r ∈ owned t := by simp [owned, hpc]
    have hchildren := hrec.children (by rw [hpc]; rfl)
    rw [hpc] at hstatus hcur hscan hup
    obtain ⟨-, hne, htid, -, -⟩ := hi.kept ht hr hc
    obtain ⟨hrt, hsrc, hraised, hst⟩ := hscan
    have hunw : unwaited s.log t.tid tid = true := (hchildren tid).mpr ⟨r, hr, hrt⟩
    -- no other child in hand has this `tid`
    have hother : ∀ x ∈ t.childList, x.tid ≠ tid := by
      intro x hx hxt
      obtain ⟨-, -, d, hd, hdt, -⟩ := hi.held a t ht x (by simp [owned, hpc, hx])
      have heq : x.addr = r.addr := h.tid_inj _ _ d c hd hc (by rw [hdt, hxt, htid, hrt])
      exact hcur (heq ▸ List.mem_map_of_mem hx)
    refine h.noted ht rfl rfl rfl (by simp) (fun _ => rfl) ?_
      (others_of_sema hne hc ⟨rfl, rfl, rfl, rfl, fun he => he⟩) (actor_of_sema ht hne
      ⟨hstatus, fun he => ?_, fun he => List.mem_cons_of_mem _ (hrec.raised he), fun _ c => ?_,
        trivial⟩)
    · rintro p' c' src' status' heq
      cases heq
      simp [ReturnOK, hunw, hsrc, hraised, hst]
    · exact absurd (List.mem_of_ne_of_mem (by simp) he) (hup rfl)
    · by_cases hct : tid = c
      · subst hct
        simpa [unwaited, owned] using hother
      · have hcc := hchildren c
        simp only [owned, hpc, List.mem_cons, exists_eq_or_imp] at hcc
        have hrc : r.tid ≠ c := by rw [hrt]; exact hct
        simpa [unwaited, hct, owned, hrc] using hcc
  | exitBegin hpc =>
    rw [hpc] at hstatus
    exact hmove _ (by rw [hpc]; rfl) hstatus (fun he => by simp [Pc.exiting] at he)
      (by simp [ScanOK])
  | exitEnd hpc =>
    rw [hpc] at hstatus
    refine h.silent ht rfl rfl others_of_upd (actor_of_upd ht rfl (hrec.goto ?_ hstatus
      (fun he => by simp [Pc.exiting] at he) trivial))
    intro he
    simpa [hpc] using hrec.exited he
  | @exitRelease u r c hpc hc =>
    rw [hpc] at hstatus
    obtain ⟨-, hne, -⟩ := hi.kept ht (r := r) (by simp [owned, hpc]) hc
    refine h.silent ht rfl rfl (others_of_sema hne hc ⟨rfl, rfl, rfl, rfl, fun he => he⟩)
      (actor_of_sema ht hne (hrec.goto ?_ hstatus (fun he => by simp [Pc.exiting] at he) trivial))
    intro he
    simpa [hpc] using hrec.exited he
  | exitNext hpc hc =>
    rw [hpc] at hstatus
    refine h.silent ht rfl rfl others_of_upd (actor_of_upd ht rfl (hrec.goto ?_ hstatus
      (fun he => by simp [Pc.exiting] at he) (by simp [ScanOK])))
    intro he
    simpa [hpc] using hrec.exited he
  | exitRest hpc =>
    rw [hpc] at hstatus
    refine h.silent ht rfl rfl others_of_upd (actor_of_upd ht rfl ⟨hstatus, fun he => ?_,
      hrec.raised, fun he => by simp [Pc.exiting] at he, trivial⟩)
    simpa [hpc] using hrec.exited he
  | exitUpUser hpc =>
    rw [hpc] at hstatus
    exact h.noted ht rfl rfl rfl (by simp) (fun _ => rfl) (by simp) others_of_upd
      (actor_of_upd ht rfl ⟨hstatus, fun _ => .inl rfl, fun _ => List.mem_cons_self,
        fun he => by simp [Pc.exiting] at he, trivial⟩)
  | exitUpKernel hpc | exitDown hpc hup =>
    rw [hpc] at hstatus
    exact h.silent ht rfl rfl others_of_upd (actor_of_upd ht rfl ⟨hstatus, fun _ => .inr rfl,
      hrec.raised, fun he => by simp [Pc.exiting] at he, trivial⟩)
  | free hpc ha =>
    refine h.silent ht rfl rfl ?_ ?_
    · intro b tb' hb htb'
      simp only [St.free, Function.update_of_ne hb] at htb'
      exact ⟨tb', htb', SameRec.refl tb'⟩
    · intro t' ht'
      simp [St.free] at ht'
  | dangling hr hm | foreignTail ho hpc | orphan hpc hc hp => exact absurd hi'.running (by simp [St.panic])

end Preservation

/-! ### The contract holds -/

theorem LogInv.step {s s' : St} {x : Act} (h : LogInv s) (hi : Inv s) (hcare : Careful s x)
    (hs : Process.step s x = some s') : LogInv s' := by
  obtain ⟨-, t, ht, htr⟩ := step_trans hs
  exact h.trans hi ht (hi.step hcare hs) htr

theorem LogInv.reachable {s : St} (h : sys.ReachableVia Careful s) : Inv s ∧ LogInv s := by
  have hstep : ∀ s x s', Inv s ∧ LogInv s → Careful s x → sys.step s x = some s' →
      Inv s' ∧ LogInv s' := by
    rintro s x s' ⟨hi, hl⟩ hok hs
    exact ⟨hi.step hok hs, hl.step hi hok hs⟩
  refine System.ReachableVia.invariant (fun s hs => ?_) hstep h
  rw [show s = Process.initial from hs]
  exact ⟨Inv.initial, LogInv.initial⟩

section Prompt

variable {s : St} {a : Addr} {t : Thread} {tid : ℤ}

theorem run_cons {x : Act} {xs : List Act} {s₁ s' : St} (hs : step s x = some s₁)
    (hr : sys.run s₁ xs = some s') : sys.run s (x :: xs) = some s' := by
  have hs' : sys.step s x = some s₁ := hs
  simpa [System.run, System.runWith, hs'] using hr

/-- The step of a thread that is not about to be freed is careful. -/
theorem careful_next (ht : s.mem a = some t) (hpc : t.pc ≠ .dying) : Careful s ⟨a, .next⟩ := by
  refine ⟨rfl, fun t' ht' hd => ?_⟩
  obtain rfl : t = t' := Option.some.inj (ht.symm.trans ht')
  exact absurd hd hpc

theorem St.goto_mem_self (ht : s.mem a = some t) (pc : Pc) :
    (s.goto a pc).mem a = some { t with pc := pc } :=
  St.upd_mem_self ht

/-- At the end of the list the search returns. -/
theorem find_tail_returns (hi : Inv s) (ht : s.mem a = some t) {o : Addr}
    (hpc : t.pc = .find .wait tid (.tail o)) :
    ∃ k s', sys.run s (List.replicate k ⟨a, .next⟩) = some s' ∧
      s'.log = .waited t.tid tid none tidError :: s.log := by
  obtain rfl : o = a := by
    have hcur := (hi.thread a t ht).cursor
    simpa [CursorOK, hpc] using hcur
  have hs : step s ⟨o, .next⟩ = some (notFound s o t .wait tid) := by
    simp [step, hi.running, ht, stepAt, next, hpc]
  exact ⟨1, _, run_cons hs rfl, rfl⟩

/-- `list_next` on behalf of `get_child_process` is always enabled. -/
theorem findNext_step (hi : Inv s) (ht : s.mem a = some t) {r : Ref}
    (hpc : t.pc = .findNext .wait tid r) : step s ⟨a, .next⟩ =
      some (s.goto a (.find .wait tid (listBegin a (listAfter r.addr t.childList)))) := by
  have hr : r ∈ owned t := by
    have hcur := (hi.thread a t ht).cursor
    simpa [CursorOK, owned, hpc] using hcur
  obtain ⟨-, -, c, hc, -, hpar, -⟩ := hi.held a t ht r hr
  rw [← listNext_eq ht hpar r.addr]
  simp [step, hi.running, ht, stepAt, next, hpc, St.deref, hc]

/-- An element that is not the `tid` looked for is passed. -/
theorem find_step (hi : Inv s) (hl : LogInv s) (ht : s.mem a = some t) {r : Ref}
    (hpc : t.pc = .find .wait tid (.child r)) (hu : unwaited s.log t.tid tid = false) :
    step s ⟨a, .next⟩ = some (s.goto a (.findNext .wait tid r)) := by
  have hr : r ∈ owned t := by
    have hcur := (hi.thread a t ht).cursor
    simpa [CursorOK, owned, hpc] using hcur
  obtain ⟨-, -, c, hc, htid, -⟩ := hi.held a t ht r hr
  have hct : c.tid ≠ tid := by
    intro heq
    have hut := ((hl.record a t ht).children (by rw [hpc]; rfl) tid).mpr
      ⟨r, hr, by rw [← htid, heq]⟩
    rw [hu] at hut
    cases hut
  simp [step, hi.running, ht, stepAt, next, hpc, St.deref, hc, hct]

/-- **The search for a `tid` that is no child to be waited for comes to the end of the list.** The
induction is on a bound of the number of elements ahead of the search. -/
theorem find_returns (n : ℕ) : ∀ {s : St} {t : Thread} {e : Elem}, Inv s → LogInv s →
    s.mem a = some t → t.pc = .find .wait tid e → unwaited s.log t.tid tid = false →
    (∀ r, e = .child r → (listAfter r.addr t.childList).length < n) →
    ∃ k s', sys.run s (List.replicate k ⟨a, .next⟩) = some s' ∧
      s'.log = .waited t.tid tid none tidError :: s.log := by
  induction n with
  | zero =>
    intro s t e hi hl ht hpc hu hlen
    cases e with
    | child r => exact absurd (hlen r rfl) (Nat.not_lt_zero _)
    | tail o => exact find_tail_returns hi ht hpc
  | succ n ih =>
    intro s t e hi hl ht hpc hu hlen
    cases e with
    | tail o => exact find_tail_returns hi ht hpc
    | child r =>
      -- the test and the `list_next` of one turn of the loop
      have hs₁ := find_step hi hl ht hpc hu
      have hcare₁ := careful_next ht (by rw [hpc]; simp)
      have hi₁ := hi.step hcare₁ hs₁
      have hl₁ := hl.step hi hcare₁ hs₁
      have ht₁ := St.goto_mem_self ht (.findNext .wait tid r)
      have hs₂ := findNext_step hi₁ ht₁ rfl
      have hcare₂ := careful_next ht₁ (by simp)
      have hi₂ := hi₁.step hcare₂ hs₂
      have hl₂ := hl₁.step hi₁ hcare₂ hs₂
      have ht₂ := St.goto_mem_self ht₁
        (.find .wait tid (listBegin a (listAfter r.addr t.childList)))
      have hahead : ∀ r', listBegin a (listAfter r.addr t.childList) = .child r' →
          (listAfter r'.addr t.childList).length < n := by
        intro r' hr'
        have hlen' := hlen r rfl
        cases hk : listAfter r.addr t.childList with
        | nil => simp [hk, listBegin] at hr'
        | cons r₁ l =>
          obtain rfl : r₁ = r' := by simpa [hk, listBegin] using hr'
          rw [hk] at hlen'
          rw [listAfter_listAfter (hi.thread a t ht).nodup hk]
          simpa using hlen'
      obtain ⟨k, s', hrun, hlog⟩ := ih hi₂ hl₂ ht₂ rfl hu hahead
      exact ⟨k + 2, s', run_cons hs₁ (run_cons hs₂ hrun), hlog⟩

end Prompt

/-- **`wait` delivers each exit status exactly once.** The contract of `wait` holds in every state
that a run of careful steps reaches. -/
theorem waitSpec {s : St} (h : sys.ReachableVia Careful s) : WaitSpec s := by
  obtain ⟨hi, hl⟩ := LogInv.reachable h
  refine ⟨hl.returns, hl.once, ?_, ?_⟩
  · intro a t tid r ht hpc
    have hrec := hl.record a t ht
    have hcur := (hi.thread a t ht).cursor
    have hscan := hrec.scan
    simp only [CursorOK, hpc] at hcur
    simp only [ScanOK, hpc] at hscan
    exact (hrec.children (by rw [hpc]; rfl) tid).mpr ⟨r, by simpa [owned, hpc] using hcur, hscan⟩
  · rintro a t tid ht (⟨e, hpc⟩ | ⟨r, hpc⟩) hu
    · refine find_returns (t.childList.length + 1) hi hl ht hpc hu fun r _ => ?_
      exact Nat.lt_succ_of_le (length_listAfter_le _ _)
    · -- one `list_next` brings the search back to the test of the loop
      have hs := findNext_step hi ht hpc
      have hcare := careful_next ht (by rw [hpc]; simp)
      obtain ⟨k, s', hrun, hlog⟩ := find_returns (t.childList.length + 1) (hi.step hcare hs)
        (hl.step hi hcare hs) (St.goto_mem_self ht _) rfl hu
        (fun r' _ => Nat.lt_succ_of_le (length_listAfter_le r'.addr t.childList))
      exact ⟨k + 1, s', run_cons hs hrun, hlog⟩

/-- The child of `tid` 4 calls `exit (5)`, and its parent of `tid` 3 waits for it twice. -/
def waitTwice : List Act :=
  family ++ exitUser 3 5 ++ ⟨2, .wait 4⟩ :: List.replicate 5 ⟨2, .next⟩ ++ [⟨2, .wait 4⟩, ⟨2, .next⟩]

theorem waitSpec_waitTwice : ∃ s, sys.runWith calm initial waitTwice = some s ∧
    s.log.take 2 = [.waited 3 4 none (-1), .waited 3 4 (some 4) 5] ∧ WaitSpec s := by
  obtain ⟨s, hs, hlog⟩ := System.exists_of_runWith
    (fun s => s.log.take 2 = [.waited 3 4 none (-1), .waited 3 4 (some 4) 5])
    (show (sys.runWith calm initial waitTwice).any _ = true by decide)
  exact ⟨s, hs, hlog, waitSpec (System.reachableVia_of_runWith careful_of_calm rfl hs)⟩

/-- `process_execute` of the thread at `p`, with `n` children before, for a child in page `a`. -/
def execUser (p a : Addr) (n : ℕ) : List Act :=
  ⟨p, .exec (some a)⟩ :: startUser a ++ List.replicate (2 * n + 3) ⟨p, .next⟩

/-- A run in which all allocations succeed. The process of page 3 exits and stands on its child in
page 5, which dies; the process of page 4 gets pages 5 and 6 for its children 7 and 8, and waits for
8. The walk of page 3 goes on in the list of page 4 and releases 8, which calls `exit (7)` and dies.
Its page goes to the child 9 of 7, which calls `exit (9)`. -/
def wrongRecord : List Act :=
  ⟨0, .exec (some 2)⟩ :: startUser 2 ++ execUser 2 3 0 ++ execUser 2 4 1 ++ execUser 3 5 0 ++
    [⟨3, .exit 0⟩, ⟨3, .next⟩, ⟨3, .next⟩] ++ exitUser 5 0 ++ [⟨5, .next⟩, ⟨5, .next⟩] ++
    execUser 4 5 0 ++ execUser 4 6 1 ++ ⟨4, .wait 8⟩ :: List.replicate 3 ⟨4, .next⟩ ++
    [⟨3, .next⟩, ⟨3, .next⟩] ++ exitUser 6 7 ++ [⟨6, .next⟩, ⟨6, .next⟩] ++
    execUser 5 6 0 ++ exitUser 6 9 ++ List.replicate 4 ⟨4, .next⟩

/-- **`process_wait` can return another process's status.** With every allocation granted, the wait
for 8, which called `exit (7)`, returns 9, read from the record of 9. -/
theorem wait_returns_wrong_status : ∃ s,
    sys.ReachableVia (fun _ x => x.op.allocated = true) s ∧
      (∃ log, s.log = .waited 5 8 (some 9) 9 :: log ∧ unwaited log 5 8 = true ∧
        statusOf log 8 = 7) ∧ ¬ WaitSpec s := by
  obtain ⟨s, hs, hhead, hu, hst⟩ := System.exists_of_runWith
    (fun s => s.log.head? = some (.waited 5 8 (some 9) 9) ∧ unwaited s.log.tail 5 8 = true ∧
      statusOf s.log.tail 8 = 7)
    (show (sys.runWith (fun _ x => x.op.allocated) initial wrongRecord).any _ = true by decide)
  obtain ⟨log, hlog⟩ := List.head?_eq_some_iff.mp hhead
  rw [hlog, List.tail_cons] at hu hst
  refine ⟨s, System.reachableVia_of_runWith (fun _ _ h => h) rfl hs, ⟨log, hlog, hu, hst⟩, ?_⟩
  intro hspec
  have hret := hspec.returns
  rw [hlog] at hret
  have hok : ReturnOK log 5 8 (some 9) 9 := hret.1
  rw [ReturnOK, if_pos hu] at hok
  simp at hok

end Process
end Pintos

import Pintos.Process.Safety

/-!
# Calls of `process_execute` that fail

`process_execute` returns `TID_ERROR` if it gets no page for the command line or no thread, and if the
new thread could not load its program. In the second case the thread is already on the caller's
`Child_list`, and nobody takes it off: it stays there, and after `process_exit` it waits for a
`sema_up (&cur->Destroy_sema)` that only `process_wait` and `process_exit` of the caller make.

* `Fails` — a call that returns `TID_ERROR`, with everything that other threads do meanwhile;
* `Restored` — the call has left nothing behind;
* `restored_iff` — this is so if and only if no thread was created.
-/

namespace Pintos
namespace Process

variable {s s' : St} {a b : Addr} {t : Thread}

/-! ### A call and its return -/

/-- The thread at `a` is about to return `TID_ERROR` from `process_execute`. -/
def returnsError (s : St) (a : Addr) : Bool :=
  match s.mem a with
  | none => false
  | some t =>
    match t.pc with
    | .find .execute _ (.tail o) => o = a
    | .execRead r => (s.mem r.addr).any fun c => !c.isLoaded
    | _ => false

/-- Another thread takes a child off the `Child_list` of the process at `a`. This needs a pointer to a
record that was freed and handed out again. -/
def foreign (a : Addr) (s : St) (x : Act) : Bool :=
  x.actor ≠ a &&
    match s.mem x.actor with
    | none => false
    | some t =>
      match t.pc with
      | .waitRemove _ r _ _ => (s.mem r.addr).any fun c => c.parent = a
      | _ => false

/-- The thread at `a` goes on in its call, and the others do what they like with their own children. -/
def InCall (a : Addr) (s : St) (x : Act) : Prop :=
  (x.actor = a → x.op = .next) ∧ foreign a s x = false

instance (a : Addr) (s : St) (x : Act) : Decidable (InCall a s x) := inferInstanceAs (Decidable (_ ∧ _))

/-- A call of `process_execute` by the thread at `a`, which returns `TID_ERROR`. `page` is the page of
the new thread, if there is one. -/
inductive Fails (a : Addr) : Option Addr → St → St → Prop
  | refused {s s' : St} (hs : step s ⟨a, .exec none⟩ = some s') : Fails a none s s'
  | created {page : Addr} {s x y s' : St} (hcall : step s ⟨a, .exec (some page)⟩ = some x)
      (hrun : sys.Steps (InCall a) x y) (herror : returnsError y a = true)
      (hreturn : step y ⟨a, .next⟩ = some s') : Fails a (some page) s s'

/-- The thread that has `tid` waits in `process_exit` for the `sema_up` of its parent. -/
def Blocked (s : St) (tid : ℤ) : Prop :=
  ∃ b c, s.mem b = some c ∧ c.tid = tid ∧ c.pc = .exitDown ∧ c.destroySema = 0

/-- The call from `s` to `s'` has left nothing behind: the children of the caller are those it had, and
the new thread, if there is one, never waits for the caller. -/
structure Restored (a : Addr) (page : Option Addr) (s s' : St) : Prop where
  children : s'.kids a = s.kids a
  unblocked : page ≠ none → ∀ x, sys.Steps (fun _ act => act.actor ≠ a) s' x → ¬ Blocked x s.nextTid

/-! ### What happens to the caller meanwhile -/

/-- Where a thread is, and its children. -/
def St.view (s : St) (a : Addr) : Option (Pc × List Ref) := (s.mem a).map fun t => (t.pc, t.childList)

theorem St.view_upd_of_ne {f : Thread → Thread} (h : a ≠ b) : (s.upd b f).view a = s.view a := by
  rw [St.view, St.upd_mem_of_ne h, St.view]

/-- A change of other fields. -/
theorem St.view_upd {f : Thread → Thread} (hf : ∀ t, (f t).pc = t.pc ∧ (f t).childList = t.childList) :
    (s.upd b f).view a = s.view a := by
  by_cases h : a = b
  · subst h
    cases ht : s.mem a with
    | none => simp [St.view, St.upd, ht]
    | some t => simp [St.view, St.upd_mem_self ht, ht, hf t]
  · exact St.view_upd_of_ne h

@[simp] theorem St.view_note (e : Event) : (s.note e).view a = s.view a := rfl

theorem St.view_goto (ht : s.mem a = some t) (pc : Pc) :
    (s.goto a pc).view a = some (pc, t.childList) := by
  rw [St.view, St.goto, St.upd_mem_self ht, Option.map_some]

theorem St.mem_alloc_of_ne (h : a ≠ b) : (s.alloc b t).mem a = s.mem a := Function.update_of_ne h _ _

theorem St.view_alloc_of_ne (h : a ≠ b) : (s.alloc b t).view a = s.view a := by
  rw [St.view, St.mem_alloc_of_ne h, St.view]

theorem St.view_free_of_ne (h : a ≠ b) : (s.free b).view a = s.view a := by
  rw [St.view, St.view]
  exact congrArg _ (Function.update_of_ne h _ _)

theorem St.kids_eq_of_view {pc : Pc} {l : List Ref} (h : s.view a = some (pc, l)) : s.kids a = l := by
  obtain ⟨t, ht, heq⟩ := Option.map_eq_some_iff.mp h
  rw [St.kids, ht]
  exact (Prod.mk.inj heq).2

/-- **The others** leave the thread where it is, with its children. -/
theorem Trans.view_eq {op : Op} (h : Trans s b t op s') (ht : s.mem b = some t) (hne : a ≠ b)
    (hf : foreign a s ⟨b, op⟩ = false) (ha : s.mem a ≠ none) : s'.view a = s.view a := by
  have hmove : ∀ f, (s.upd b f).view a = s.view a := fun f => St.view_upd_of_ne hne
  cases h with
  | exec hpc hfree =>
    -- the page of the new record was free
    have hpage : a ≠ _ := fun h => ha (h ▸ hfree)
    rw [threadCreate, St.view_note, St.view_upd_of_ne hne, St.view_alloc_of_ne hpage]
  | @waitRemove _ _ _ _ c _ hpc hc hp =>
    -- the list is that of another process
    have hparent : c.parent ≠ a := by
      simpa [foreign, ht, hpc, hc, Ne.symm hne] using hf
    exact (St.view_upd_of_ne (Ne.symm hparent)).trans (hmove _)
  | execDown | waitDown | waitUp | exitRelease =>
    refine (St.view_upd ?_).trans (hmove _)
    exact fun _ => ⟨rfl, rfl⟩
  | free => exact St.view_free_of_ne hne
  | execRefused | dangling | foreignTail | orphan => rfl
  | startFd | loadOk | loadFail | wait | exit | kill | upLoad | loaded | notFoundExecute | notFoundWait
  | find | findNext | execRead | waitRead | exitBegin | exitEnd | exitNext | exitRest | exitUpUser
  | exitUpKernel | exitDown => exact hmove _

/-- The thread is in `process_execute` after `thread_create`, or back from it. -/
def Pc.executing : Pc → Bool
  | .find .execute _ _ | .findNext .execute _ _ | .execDown _ | .execRead _ | .user => true
  | _ => false

/-- **The caller itself** leaves its children alone. -/
theorem Trans.view_executing (h : Trans s a t .next s') (ht : s.mem a = some t)
    (hpc : t.pc.executing = true) : ∃ pc, pc.executing = true ∧ s'.view a = some (pc, t.childList) := by
  have hmove : ∀ pc, pc.executing = true →
      ∃ pc', pc'.executing = true ∧ (s.goto a pc).view a = some (pc', t.childList) :=
    fun pc hpc' => ⟨pc, hpc', St.view_goto ht pc⟩
  have hstay : ∃ pc', pc'.executing = true ∧ s.view a = some (pc', t.childList) :=
    ⟨t.pc, hpc, by rw [St.view, ht, Option.map_some]⟩
  cases h with
  | notFoundExecute | execRead => exact hmove _ rfl
  | @find k tid r c hp hc =>
    obtain rfl : k = .execute := by
      cases k with
      | execute => rfl
      | wait => simp [hp, Pc.executing] at hpc
    refine hmove _ ?_
    split <;> rfl
  | @findNext k tid r c hp hc =>
    obtain rfl : k = .execute := by
      cases k with
      | execute => rfl
      | wait => simp [hp, Pc.executing] at hpc
    exact hmove _ rfl
  | execDown =>
    rw [St.view_upd]
    · exact hmove _ rfl
    · exact fun _ => ⟨rfl, rfl⟩
  | dangling | foreignTail | orphan => exact hstay
  | upLoad hp | loaded hp | notFoundWait hp | waitDown hp | waitRead hp | waitRemove hp | waitUp hp
  | exitBegin hp | exitEnd hp | exitRelease hp | exitNext hp | exitRest hp | exitUpUser hp
  | exitUpKernel hp | exitDown hp | free hp => simp [hp, Pc.executing] at hpc

/-- The caller is in its call, and its children are `l`. -/
def Executing (a : Addr) (l : List Ref) (s : St) : Prop :=
  ∃ pc, pc.executing = true ∧ s.view a = some (pc, l)

theorem Executing.step {l : List Ref} {x : Act} (h : Executing a l s) (hok : InCall a s x)
    (hs : Process.step s x = some s') : Executing a l s' := by
  obtain ⟨-, t, ht, htr⟩ := step_trans hs
  obtain ⟨pc, hpc, hview⟩ := h
  by_cases hx : x.actor = a
  · have hop := hok.1 hx
    subst hx
    rw [hop] at htr
    have hmem : (t.pc, t.childList) = (pc, l) := by
      simpa [St.view, ht] using hview
    obtain ⟨rfl, rfl⟩ := Prod.mk.inj hmem
    exact htr.view_executing ht hpc
  · have hne : s.mem a ≠ none := by
      intro hnone
      simp [St.view, hnone] at hview
    exact ⟨pc, hpc, (htr.view_eq ht (Ne.symm hx) hok.2 hne).trans hview⟩

/-- After `thread_create` the new thread is the caller's last child. -/
theorem executing_of_created {page : Addr} (hs : Process.step s ⟨a, .exec (some page)⟩ = some s') :
    Executing a (s.kids a ++ [⟨page, s.nextTid⟩]) s' := by
  obtain ⟨-, t, ht, htr⟩ := step_trans hs
  cases htr with
  | exec hpc hfree =>
    have hpage : a ≠ page := fun h => by simp [← h, ht] at hfree
    have hmem : (s.alloc page (newThread s.nextTid a)).mem a = some t := by
      rw [St.mem_alloc_of_ne hpage, ht]
    have hkids : s.kids a = t.childList := by rw [St.kids, ht]
    refine ⟨.find .execute s.nextTid (listBegin a (t.childList ++ [⟨page, s.nextTid⟩])), rfl, ?_⟩
    rw [threadCreate, St.view_note, St.view, St.upd_mem_self hmem, hkids]
    rfl

/-- **A failed call leaves nothing behind** if and only if it has created no thread. -/
theorem restored_iff {page : Option Addr} (h : Fails a page s s') :
    Restored a page s s' ↔ page = none := by
  cases h with
  | refused hs =>
    obtain ⟨-, t, ht, htr⟩ := step_trans hs
    cases htr with
    | execRefused hpc => exact ⟨fun _ => rfl, fun _ => ⟨rfl, fun h => absurd rfl h⟩⟩
  | created hcall hrun herror hreturn =>
    refine ⟨fun hrestored => ?_, fun h => absurd h (Option.some_ne_none _)⟩
    have hreturned : Executing a _ s' :=
      (hrun.invariant (fun _ _ _ hx hok hs => hx.step hok hs) (executing_of_created hcall)).step
        ⟨fun _ => rfl, by simp [foreign]⟩ hreturn
    obtain ⟨pc, -, hview⟩ := hreturned
    have hkids := hrestored.children
    rw [St.kids_eq_of_view hview] at hkids
    simp at hkids

/-- The initial thread asks for a program when there is no memory for a thread. -/
theorem restored_refused : Fails 0 none initial initial ∧ Restored 0 none initial initial :=
  have h : Fails 0 none initial initial := .refused rfl
  ⟨h, (restored_iff h).mpr rfl⟩

/-- A process at page 2, in user code. -/
def oneProcess : St := (sys.run initial (⟨0, .exec (some 2)⟩ :: startUser 2)).getD initial

/-- It asks for a program that does not exist: after `thread_create`, -/
def missingProgram : St := (step oneProcess ⟨2, .exec (some 3)⟩).getD initial

/-- up to the return from `process_execute`, -/
def missingLoad : List Act :=
  [⟨3, .startFd true⟩, ⟨3, .load true false⟩, ⟨3, .next⟩, ⟨2, .next⟩, ⟨2, .next⟩]

/-- and the new thread, up to the end of `process_exit`. -/
def missingExit : List Act := List.replicate 5 ⟨3, .next⟩

/-- Its thread waits for the caller, which does not know it. -/
theorem not_restored_missingProgram : sys.Reachable oneProcess ∧
    ∃ s', Fails 2 (some 3) oneProcess s' ∧
      (∃ x, sys.Steps (fun _ act => act.actor ≠ 2) s' x ∧ Blocked x oneProcess.nextTid) ∧
      ¬ Restored 2 (some 3) oneProcess s' := by
  have hstart : sys.run initial (⟨0, .exec (some 2)⟩ :: startUser 2) = some oneProcess := rfl
  refine ⟨System.reachable_of_run rfl hstart, ?_⟩
  obtain ⟨y, hy, herror, hrest⟩ := System.exists_of_runWith
    (fun y => returnsError y 2 = true ∧ ((step y ⟨2, .next⟩).bind fun s' =>
      sys.runWith (fun _ act => act.actor ≠ 2) s' missingExit).any (fun x => (x.mem 3).any fun c =>
        c.tid = oneProcess.nextTid ∧ c.pc = .exitDown ∧ c.destroySema = 0) = true)
    (show (sys.runWith (fun s x => decide (InCall 2 s x)) missingProgram missingLoad).any _ = true by
      decide +kernel)
  obtain ⟨x, hx, hblocked⟩ := (Option.any_eq_true ..).mp hrest
  obtain ⟨s', hreturn, hrun⟩ := Option.bind_eq_some_iff.mp hx
  obtain ⟨c, hc, hlast⟩ := (Option.any_eq_true ..).mp hblocked
  have hsteps : sys.Steps (fun _ act => act.actor ≠ 2) s' x :=
    System.Steps.refl.runWith (fun _ _ => of_decide_eq_true) hrun
  have hwaits : Blocked x oneProcess.nextTid := ⟨3, c, hc, of_decide_eq_true hlast⟩
  refine ⟨s', ?_, ⟨x, hsteps, hwaits⟩, fun h => h.unblocked (Option.some_ne_none 3) x hsteps hwaits⟩
  exact .created (x := missingProgram) rfl
    (System.Steps.refl.runWith (fun _ _ => of_decide_eq_true) hy) herror hreturn

end Process
end Pintos

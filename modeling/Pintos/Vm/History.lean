import Pintos.Vm.Reachable

/-!
# What happens to the contents of pages and files

`Effect` lists what an action can do to the entries of the supplemental page tables, to the history of
their pages and to the files; all the rest of the paging code leaves these as they are
(`effect_step`).
-/

namespace Pintos
namespace Vm

variable {s s' x : St} {t u k : ℕ} {κ : Key} {c : Caller} {e : Entry} {p : Pc} {ok : Bool} {a : Act}

/-- The same entries, as far as their creators have filled them, with the same history, and the same
files. -/
structure Alike (s s' : St) : Prop where
  origin : ∀ κ, s'.origin κ = s.origin κ
  ghost : s'.ghost = s.ghost
  files : s'.files = s.files

theorem Alike.trans (h : Alike s x) (h' : Alike x s') : Alike s s' where
  origin κ := (h'.origin κ).trans (h.origin κ)
  ghost := h'.ghost.trans h.ghost
  files := h'.files.trans h.files

theorem Still.alike (h : Still s s') : Alike s s' := ⟨h.origin, h.ghost, h.files⟩

theorem Alike.of_eq (hspt : s'.spt = s.spt) (hghost : s'.ghost = s.ghost) (hfiles : s'.files = s.files) :
    Alike s s' :=
  ⟨fun κ => by rw [St.origin, St.origin, hspt], hghost, hfiles⟩

theorem addEntry_origin (s : St) (κ : Key) (e : Entry) :
    (addEntry s κ e).origin = Function.update s.origin κ (some e.origin) := by
  funext κ'
  by_cases h : κ' = κ
  · subst h
    simp [St.origin, addEntry]
  · simp [St.origin, addEntry, Function.update_of_ne h]

theorem deleteEntry_origin (s : St) (κ : Key) :
    St.origin { s with spt := Function.update s.spt κ none } = Function.update s.origin κ none := by
  funext κ'
  by_cases h : κ' = κ
  · subst h
    simp [St.origin]
  · simp [St.origin, Function.update_of_ne h]

/-- The action reads or writes user memory. -/
def Act.access : Act → Bool
  | .load _ _ _ _ | .store _ _ _ _ => true
  | _ => false

/-- The history of a page after a store. -/
def Ghost.store (g : Ghost) (b : ℕ) (v : UInt8) : Ghost :=
  { g with flat := Function.update g.flat b v, touched := true }

/-- `page_unmap` writes `n` bytes of the page `κ` back to the file `f`. -/
structure WritesBack (s : St) (t : ℕ) (κ : Key) (f n : ℕ) (e : Entry) (k : ℕ) (ok : Bool) : Prop where
  at_write : ∃ why m i, s.pc t = .unmap why m i .write ∧ κ = (t, m.addr + i) ∧ f = m.file
  lock : s.lock .filesys = some t
  entry : s.spt κ = some e
  kpage : e.kpage = some k
  count : n = if needsBounce e.ofs e.readBytes && !ok then e.readBytes / sectorSize * sectorSize
    else e.readBytes

/-- What an action does to the entries, to their history and to the files. -/
inductive Effect (s : St) : Act → St → Prop
  | none {a : Act} {s' : St} (ha : ∀ t u b v, a ≠ .store t u b v) (h : Alike s s') : Effect s a s'
  -- A new entry.
  | create {a : Act} {s' : St} (κ : Key) (e : Entry) (ha : a.access = false)
      (hactor : a.actor = some κ.1) (hn : s.spt κ = none) (h : Alike (addEntry s κ e) s') :
      Effect s a s'
  | destroy {a : Act} {s' : St} (κ : Key) (ha : a.access = false) (hactor : a.actor = some κ.1)
      (h : Alike { s with spt := Function.update s.spt κ Option.none } s') : Effect s a s'
  | store {s' : St} (t u b : ℕ) (v : UInt8) (horigin : ∀ κ, s'.origin κ = s.origin κ)
      (hghost : s'.ghost = Function.update s.ghost (t, u) ((s.ghost (t, u)).store b v))
      (hfiles : s'.files = s.files) : Effect s (.store t u b v) s'
  | write {s' : St} (t f pos : ℕ) (v : UInt8)
      (h : Alike (writeFile s f pos 1 (fun _ => v) Option.none) s') : Effect s (.write t f pos v) s'
  | writeBack {s' : St} (t : ℕ) (κ : Key) (f n : ℕ) (e : Entry) (k : ℕ) (ok : Bool)
      (hw : WritesBack s t κ f n e k ok) (h : Alike (writeFile s f e.ofs n (s.mem k) (some κ)) s') :
      Effect s (.go t ok) s'
  | deny {s' : St} (f : ℕ) (b : Bool) (horigin : ∀ κ, s'.origin κ = s.origin κ)
      (hghost : s'.ghost = s.ghost)
      (hfiles : s'.files = Function.update s.files f { s.files f with denied := b }) :
      Effect s (.deny f b) s'

theorem Effect.trans (h : Effect s a x) (h' : Alike x s') : Effect s a s' := by
  cases h with
  | none ha h => exact .none ha (h.trans h')
  | create κ e ha hactor hn h => exact .create κ e ha hactor hn (h.trans h')
  | destroy κ ha hactor h => exact .destroy κ ha hactor (h.trans h')
  | store t u b v horigin hghost hfiles =>
    exact .store t u b v (fun κ => (h'.origin κ).trans (horigin κ)) (h'.ghost.trans hghost)
      (h'.files.trans hfiles)
  | write t f pos v h => exact .write t f pos v (h.trans h')
  | writeBack t κ f n e k ok hw h => exact .writeBack t κ f n e k ok hw (h.trans h')
  | deny f b horigin hghost hfiles =>
    exact .deny f b (fun κ => (h'.origin κ).trans (horigin κ)) (h'.ghost.trans hghost)
      (h'.files.trans hfiles)

theorem alike_setPc (s : St) (t : ℕ) (p : Pc) : Alike s (s.setPc t p) := .of_eq rfl rfl rfl

theorem alike_setLock (s : St) (L : Lock) (o : Option ℕ) : Alike s (s.setLock L o) :=
  .of_eq rfl rfl rfl

/-! ### The code of `go` -/

theorem effect_body (hn : s.Unmapped) (hb : body s t ok = some s')
    (hlock : ∀ L, (s.pc t).section = some L → s.lock L = some t) : Effect s (.go t ok) s' := by
  have hd := does_body hb
  generalize hp : s.pc t = p at hd hlock
  cases hd with
  | work h => exact .none nofun h.still.alike
  | mapPage m hlt =>
    exact .create (t, m.addr + m.pageCnt) _ rfl rfl (hn t m hp hlt).1 (.of_eq rfl rfl rfl)
  | write why m i e k n he hk hcount =>
    exact .writeBack t (t, m.addr + i) m.file n e k ok
      ⟨⟨why, m, i, hp, rfl, rfl⟩, hlock .filesys rfl, he, hk, hcount⟩ (alike_setPc ..)
  | delete why m i => exact .destroy (t, m.addr + i) rfl rfl (.of_eq rfl rfl rfl)
  | exitSlot u => exact .destroy (t, u) rfl rfl (.of_eq rfl rfl rfl)
  | _ => exact .none nofun (.of_eq rfl rfl rfl)

/-- A process without tables has no entries. -/
theorem Inv.spt_of_dead (h : Inv s) (hp : (s.pc κ.1).phase κ.2 = .dead) : s.spt κ = none := by
  have ha := (h.shape κ).agree
  have hp' : (s.view κ).phase = .dead := hp
  simp only [View.Agree, hp'] at ha
  exact ha.2.1

theorem effect_go (h : Good s) (hg : go s t ok = some s') : Effect s (.go t ok) s' := by
  obtain ⟨hp, -, rfl⟩ | ⟨c, u, -, -, rfl⟩ | ⟨hsec, hb⟩ | ⟨L, x, hsec, hl, hb, rfl⟩ | ⟨L, -, -, rfl⟩ :=
    go_cases hg
  · split
    · -- `page_table_init` finds no entries
      refine .none nofun ⟨fun κ => ?_, rfl, rfl⟩
      simp only [St.origin, makeDir, St.setPc]
      split
      · next hκ =>
        rw [h.inv.spt_of_dead (κ := κ) (by rw [hκ, hp]; rfl)]
      · rfl
    · exact .none nofun (.of_eq rfl rfl rfl)
  · exact .none nofun (.of_eq rfl rfl rfl)
  · refine effect_body h.unmapped hb fun L hL => ?_
    rw [hsec] at hL
    cases hL
  · refine Effect.trans (effect_body h.unmapped hb fun L' hL => ?_) (alike_setLock ..)
    rw [hsec] at hL
    cases hL
    exact hl
  · exact .none nofun (alike_setLock ..)

/-! ### The other actions -/

theorem effect_growStack {b esp : ℕ} (ha : a.access = false) (hactor : a.actor = some t)
    (hn : s.spt (t, u) = none) : Effect s a (growStack s t u b esp ok c) := by
  unfold growStack
  split
  · exact .create (t, u) _ ha hactor hn (alike_setPc ..)
  · refine .none ?_ (still_finish ..).alike
    rintro t u b v rfl
    cases ha

/-- **What an action does to the entries, to their history and to the files.** -/
theorem effect_step (h : Good s) (hs : step s a = some s') : Effect s a s' := by
  cases step_cases hs with
  | go t ok hg => exact effect_go h hg
  | addFile t u f ofs n w _ _ hn => exact .create (t, u) _ rfl rfl hn (.of_eq rfl rfl rfl)
  | setupStack t _ _ hn => exact .create (t, s.userPages - 1) _ rfl rfl hn (alike_setPc ..)
  | store t u b v => exact .store t u b v (fun _ => rfl) rfl rfl
  | kill => exact .none nofun (still_finish ..).alike
  | faultGrow _ _ _ _ _ _ _ _ _ _ hn | pinGrow _ _ _ _ _ _ _ _ hn => exact effect_growStack rfl rfl hn
  | write t f pos v => exact .write t f pos v (.of_eq rfl rfl rfl)
  | deny f b => exact .deny f b (fun _ => rfl) rfl rfl
  | destroy t u => exact .destroy (t, u) rfl rfl (.of_eq rfl rfl rfl)
  | _ => exact .none nofun (.of_eq rfl rfl rfl)

end Vm
end Pintos

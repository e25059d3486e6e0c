import Pintos.Vm.Reachable

/-!
# Pages that a system call has checked

`check_address` loads and pins the pages of a buffer one by one. `Passes` says that it has let pass a
list of pages; meanwhile, and until the end of the system call, all other processes may run, fault and
evict. A page that has passed stays resident and pinned until its own process unpins or unmaps it
(`check_resident`).
-/

namespace Pintos
namespace Vm

variable {s s' x y : St} {t u w : ℕ} {κ : Key} {c : Caller} {e : Entry} {p q : Pc} {ok : Bool} {a : Act}

/-! ### `check_address` and `check_writable` -/

/-- The pages that the loop of `check_address` goes through. -/
def rangePages (addr size : ℕ) : List ℕ :=
  if size = 0 then [] else
    List.range' (addr / pgSize) ((addr + size - 1) / pgSize + 1 - addr / pgSize)

/-- They are the pages that the buffer touches. -/
theorem mem_rangePages {addr size : ℕ} :
    u ∈ rangePages addr size ↔
      0 < size ∧ u * pgSize < addr + size ∧ addr < (u + 1) * pgSize := by
  unfold rangePages pgSize
  split
  · simp_all
  · rw [List.mem_range'_1]
    constructor
    · rintro ⟨h1, h2⟩
      refine ⟨by omega, by omega, by omega⟩
    · rintro ⟨h1, h2, h3⟩
      refine ⟨by omega, by omega⟩

/-- The process is in the kernel: it only goes on. -/
def Own (t : ℕ) (_ : St) (a : Act) : Prop := a.actor = some t → ∃ ok, a = .go t ok

/-- The loop of `check_address` has let pass the pages `us`. The others may have run at any time. -/
inductive Passes (t : ℕ) : List ℕ → St → St → Prop
  | nil (s : St) : Passes t [] s s
  | cons {s x y z : St} {u : ℕ} {us : List ℕ} (b esp : ℕ) (ok : Bool)
      (hpin : step s (.pin t u b esp ok) = some x) (hgo : sys.Steps (Own t) x y)
      (hret : y.pc t = .run) (h : Passes t us y z) : Passes t (u :: us) s z

/-- The loop of `check_writable` has let pass the pages `us`. -/
inductive PassesWritable (t : ℕ) : List ℕ → St → St → Prop
  | nil (s : St) : PassesWritable t [] s s
  | cons {s x y z : St} {u : ℕ} {us : List ℕ} (hcheck : step s (.checkWritable t u) = some x)
      (hgo : sys.Steps (Own t) x y) (hret : y.pc t = .run) (h : PassesWritable t us y z) :
      PassesWritable t (u :: us) s z

/-- The action unpins or unmaps the page `κ` in the course of its process: `frame_unpin_owner`,
`frame_remove_owner`, or the loop of `page_unmap` at this page. -/
def St.releases (s : St) (a : Act) (κ : Key) : Bool :=
  match a with
  | .go t _ => t = κ.1 &&
    match s.pc t with
    | .unpin | .exitFrames => s.lock .frame = some t
    | .unmap _ m i .clearPte => m.addr + i = κ.2
    | _ => false
  | _ => false

/-! ### A page that was checked is held -/

/-- The page is resident and pinned, and nobody evicts it. -/
structure Resident (s : St) (κ : Key) : Prop where
  tables : ∃ e k f, s.spt κ = some e ∧ e.kpage = some k ∧ f ∈ s.frameList ∧ f.kpage = k ∧
    f.owner = κ.1 ∧ f.upage = κ.2 ∧ f.page = some κ ∧ f.pinned = true ∧
    (s.pte κ).present = true ∧ (s.pte κ).kpage = k
  victim : ∀ t v st, (s.pc t).victim = some (v, st) → v.page ≠ κ

/-- The page may be written. -/
def WritablePage (s : St) (κ : Key) : Prop :=
  (∀ e, s.spt κ = some e → e.writable = true) ∧ (s.pte κ).writable = true

theorem Inv.resident (h : Inv s) (hc : s.checked κ ≠ none) :
    Resident s κ ∧ (s.checked κ = some true → WritablePage s κ) := by
  obtain ⟨-, hl, ⟨e, k, he, hk, -, ⟨hp, hpk, hw⟩, hf⟩, hwr⟩ := (h.shape κ).held hc
  have he' : s.spt κ = some e := he
  have hmem : frameOf κ k (some κ) true ∈ s.frames κ := by
    rw [show s.frames κ = _ from hf]
    exact List.mem_singleton_self _
  refine ⟨⟨⟨e, k, _, he', hk, (St.mem_frames.1 hmem).1, rfl, rfl, rfl, rfl, rfl, hp, hpk⟩, ?_⟩, ?_⟩
  · rintro t v st hv rfl
    have hev : (s.pc t).evicts = true := by
      by_contra hne
      rw [Pc.not_evicts_of (by simpa using hne)] at hv
      cases hv
    have hl' : s.leaving v.page = none := hl
    simp [St.leaving, St.evicting, h.evicts t hev, hv] at hl'
  · intro hc'
    refine ⟨hwr hc', ?_⟩
    rw [show (s.pte κ).writable = e.writable from hw, hwr hc' e he]

/-! ### A page stays checked -/

/-- What was checked stays so, and what may be written, too. -/
def StaysChecked (s s' : St) (κ : Key) : Prop :=
  ∀ w, s.checked κ = some w → ∃ w', s'.checked κ = some w' ∧ (w = true → w' = true)

theorem StaysChecked.of_eq (h : s'.checked κ = s.checked κ) : StaysChecked s s' κ :=
  fun w hw => ⟨w, by rw [h, hw], id⟩

theorem Calm.staysChecked (h : Calm s s') : StaysChecked s s' κ := .of_eq (by rw [h.checked])

theorem staysChecked_growStack (s : St) (t u b esp : ℕ) (ok : Bool) (c : Caller) (κ : Key) :
    StaysChecked s (growStack s t u b esp ok c) κ := by
  unfold growStack
  split
  · exact .of_eq rfl
  · exact (still_finish ..).toCalm.staysChecked

theorem staysChecked_body (hb : body s t ok = some s') (hl : (s.pc t).section = some .frame →
    s.lock .frame = some t) (hrel : s.releases (.go t ok) (t, u) = false) :
    StaysChecked s s' (t, u) := by
  have hd := does_body hb
  generalize hp : s.pc t = p at hd hl
  cases hd with
  | work h => exact h.still.toCalm.staysChecked
  | check v l =>
    intro w hw
    by_cases hv : v = u
    · subst hv
      exact ⟨w, by simp [St.setPc, hw], id⟩
    · have hne : (t, u) ≠ (t, v) := fun h => hv (congrArg Prod.snd h).symm
      exact ⟨w, by simp [St.setPc, Function.update_of_ne hne, hw], id⟩
  | endCall l hand _ hq => obtain rfl | rfl := hq <;> simp [St.releases, hp, hl rfl] at hrel
  | write => exact ((calm_writeFile ..).setPc ..).staysChecked
  | clearPte why m i k =>
    have hrel : ¬ m.addr + i = u := by simpa [St.releases, hp] using hrel
    have hne : (t, u) ≠ (t, m.addr + i) := fun h => hrel (congrArg Prod.snd h).symm
    exact .of_eq (Function.update_of_ne hne ..)
  | _ => exact .of_eq rfl

theorem staysChecked_go (hg : go s t ok = some s') (hrel : s.releases (.go t ok) (t, u) = false) :
    StaysChecked s s' (t, u) := by
  obtain ⟨-, -, rfl⟩ | ⟨c, v, -, -, rfl⟩ | ⟨hsec, hb⟩ | ⟨L, x, hsec, hl, hb, rfl⟩ | ⟨L, -, -, rfl⟩ :=
    go_cases hg
  · refine .of_eq ?_
    split <;> rfl
  · exact .of_eq rfl
  · refine staysChecked_body hb ?_ hrel
    rw [hsec]
    exact nofun
  · show StaysChecked s x (t, u)
    refine staysChecked_body hb ?_ hrel
    rw [hsec]
    rintro ⟨⟩
    exact hl
  · exact .of_eq rfl

/-- **Only the process itself releases a page** that it has checked, where it unpins or unmaps it. -/
theorem staysChecked_step (hs : step s a = some s') (hrel : s.releases a κ = false) :
    StaysChecked s s' κ := by
  by_cases hκ : a.actor = some κ.1
  · obtain ⟨t, u⟩ := κ
    cases step_cases hs with cases hκ
    | go _ ok hg => exact staysChecked_go hg hrel
    | kill => exact (still_finish ..).toCalm.staysChecked
    | faultGrow | pinGrow => exact staysChecked_growStack _ _ _ _ _ _ _ _
    | checkWritable _ v =>
      intro w hw
      by_cases hv : v = u
      · subst hv
        exact ⟨true, by simp, fun _ => rfl⟩
      · have hne : (t, u) ≠ (t, v) := fun h => hv (congrArg Prod.snd h).symm
        exact ⟨w, by simp [Function.update_of_ne hne, hw], id⟩
    | write => exact (calm_writeFile ..).staysChecked
    | _ => exact .of_eq rfl
  · cases hactor : a.actor with
    | none =>
      exact .of_eq ((aside_step (t := κ.1 + 1) hs (.inr hactor)).checked κ (by omega))
    | some t =>
      refine .of_eq ((aside_step hs (.inl hactor)).checked κ fun h => hκ ?_)
      rw [hactor, h]

/-! ### What `check_address` has let pass is checked -/

/-- The process is in `check_address`, at the page `u`. -/
def Pc.pinning (p : Pc) (u : ℕ) : Prop := p = .pin u ∨ p.caller = some .pin ∧ p.about = some u

/-- The process is in `process_exit`, or it has exited. -/
def Pc.ending : Pc → Bool
  | .threadExit | .exitFiles | .exitExec | .exitUnmap | .exitFrames | .exitEntries | .exitSlot _ _
  | .exitDir | .exitPages | .absent => true
  | .unmap why _ _ _ => why = .exit
  | p => match p.caller with
    | some (.unmap why _ _) => why = .exit
    | _ => false

/-- From the loop of `page_pin` the process comes back to `check_address`, or it is killed. -/
theorem Next.pinning (h : Next p q) (hp : p.pinning u) :
    q.pinning u ∨ q = .run ∧ p = .pin u ∨ q.ending = true := by
  obtain rfl | ⟨hc, hu⟩ := hp
  · cases h with
    | same => exact .inl (.inl rfl)
    | pinned => exact .inr (.inl ⟨rfl, rfl⟩)
    | notPinned => exact .inl (.inr ⟨rfl, rfl⟩)
  · cases h with
    | same => exact .inl (.inr ⟨hc, hu⟩)
    | noFrame c v k | freePage c v k => cases hc; exact .inr (.inr rfl)
    | loaded c v k => cases hc; cases hu; exact .inl (.inl rfl)
    | _ => first | exact .inl (.inr ⟨hc, hu⟩) | cases hc

theorem Next.ending (h : Next p q) (hp : p.ending = true) : q.ending = true := by
  cases h with
  | noFrame c u k | loaded c u k | freePage c u k => cases c <;> simp_all [Pc.ending, Pc.caller, Caller.back]
  | loadDone b => cases hp
  | unmapped why m i =>
    have : why = .exit := by simpa [Pc.ending] using hp
    rw [this]
    rfl
  | _ => first | rfl | exact hp

/-- An action of another process, or the process goes on. -/
theorem Own.cases (ha : Own t s a) (hs : step s a = some s') :
    (s'.pc t = s.pc t ∧ ∀ u, s'.checked (t, u) = s.checked (t, u)) ∨
      ∃ ok, a = .go t ok ∧ go s t ok = some s' := by
  by_cases hactor : a.actor = some t
  · obtain ⟨ok, rfl⟩ := ha hactor
    exact .inr ⟨ok, rfl, go_of_step hs⟩
  · refine .inl ?_
    cases h : a.actor with
    | none =>
      have haside := aside_step (t := t + 1) hs (.inr h)
      exact ⟨haside.pc t (by omega), fun u => haside.checked (t, u) (by simp)⟩
    | some t' =>
      have hne : t ≠ t' := fun he => hactor (by rw [h, he])
      have haside := aside_step hs (.inl h)
      exact ⟨haside.pc t hne, fun u => haside.checked (t, u) hne⟩

/-- An exiting process does not come back. -/
theorem ending_go (hg : go s t ok = some s') (hp : (s.pc t).ending = true) :
    (s'.pc t).ending = true := by
  obtain ⟨h, -, -⟩ | ⟨c, u, h, -, rfl⟩ | ⟨-, hb⟩ | ⟨L, x, -, -, hb, rfl⟩ | ⟨L, -, -, rfl⟩ := go_cases hg
  · rw [h] at hp
    cases hp
  · rw [h] at hp
    rw [St.setPc_self]
    exact hp
  · exact (body_goes hb).self.ending hp
  · exact (body_goes hb).self.ending hp
  · exact hp

theorem not_go_of_run (hp : s.pc t = .run) : go s t ok = none := by
  simp [go, hp, Pc.section, body]

/-- The process is in `check_address` at the page `u`, or is through with it, and has checked the pages
`us` before; or it has been killed. -/
def Checking (t u : ℕ) (us : List ℕ) (s : St) : Prop :=
  (∀ v ∈ us, s.checked (t, v) ≠ none) ∧
      ((s.pc t).pinning u ∨ s.pc t = .run ∧ s.checked (t, u) ≠ none) ∨
    (s.pc t).ending = true

theorem StaysChecked.ne_none (h : StaysChecked s s' κ) (hc : s.checked κ ≠ none) :
    s'.checked κ ≠ none := by
  obtain ⟨w, hw⟩ := Option.ne_none_iff_exists'.1 hc
  obtain ⟨w', hw', -⟩ := h w hw
  rw [hw']
  exact nofun

/-- In `check_address` nothing is released. -/
theorem not_releases_of_pinning (hp : (s.pc t).pinning u) (v : ℕ) :
    s.releases (.go t ok) (t, v) = false := by
  obtain h | ⟨hc, -⟩ := hp
  · simp [St.releases, h]
  · cases hpc : s.pc t <;> simp_all [St.releases, Pc.caller]

theorem pinning_go (hg : go s t ok = some s') (hp : (s.pc t).pinning u) :
    (s'.pc t).pinning u ∨ s'.pc t = .run ∧ s'.checked (t, u) ≠ none ∨ (s'.pc t).ending = true := by
  by_cases hpin : s.pc t = .pin u
  · -- only here does the process come back, with the page checked
    have hL : ∀ x, body s t ok = some x →
        (x.pc t).pinning u ∨ x.pc t = .run ∧ x.checked (t, u) ≠ none ∨ (x.pc t).ending = true := by
      intro x hb
      simp only [body, hpin] at hb
      split at hb
      · cases hb
        refine .inr (.inl ⟨St.setPc_self .., ?_⟩)
        simp [St.setPc]
      · cases hb
        rw [St.setPc_self]
        exact .inl (.inr ⟨rfl, rfl⟩)
    obtain ⟨h, -, -⟩ | ⟨c, v, h, -, rfl⟩ | ⟨-, hb⟩ | ⟨L, x, -, -, hb, rfl⟩ | ⟨L, -, -, rfl⟩ := go_cases hg
    · rw [h] at hpin
      cases hpin
    · rw [h] at hpin
      cases hpin
    · exact hL s' hb
    · exact hL x hb
    · exact .inl (.inl hpin)
  · have hnext : ∀ q, Next (s.pc t) q → q.pinning u ∨ q.ending = true := by
      intro q hq
      obtain h | ⟨-, h⟩ | h := hq.pinning hp
      · exact .inl h
      · exact absurd h hpin
      · exact .inr h
    suffices h : (s'.pc t).pinning u ∨ (s'.pc t).ending = true from h.imp id .inr
    obtain ⟨h, -, -⟩ | ⟨c, v, h, -, rfl⟩ | ⟨-, hb⟩ | ⟨L, x, -, -, hb, rfl⟩ | ⟨L, -, -, rfl⟩ := go_cases hg
    · rw [h] at hp
      obtain h | ⟨h, -⟩ := hp <;> cases h
    · rw [h] at hp
      rw [St.setPc_self]
      obtain h | h := hp
      · cases h
      · exact .inl (.inr h)
    · exact hnext _ (body_goes hb).self
    · exact hnext _ (body_goes hb).self
    · exact .inl hp

theorem Checking.step {us : List ℕ} (h : Checking t u us s) (ha : Own t s a)
    (hs : Vm.step s a = some s') : Checking t u us s' := by
  obtain ⟨hpc, hc⟩ | ⟨ok, rfl, hg⟩ := ha.cases hs
  · simp only [Checking, hpc, hc]
    exact h
  · obtain ⟨hold, hp | ⟨hp, -⟩⟩ | hp := h
    · have hstay : ∀ v ∈ us, s'.checked (t, v) ≠ none := fun v hv =>
        (staysChecked_go hg (not_releases_of_pinning hp v)).ne_none (hold v hv)
      obtain h | h | h := pinning_go hg hp
      · exact .inl ⟨hstay, .inl h⟩
      · exact .inl ⟨hstay, .inr h⟩
      · exact .inr h
    · rw [not_go_of_run hp] at hg
      cases hg
    · exact .inr (ending_go hg hp)

/-- `check_address` comes to a page. -/
theorem checking_pin {us : List ℕ} {b esp : ℕ} (hs : step s (.pin t u b esp ok) = some s')
    (hold : ∀ v ∈ us, s.checked (t, v) ≠ none) : Checking t u us s' := by
  have hstay : ∀ v ∈ us, s'.checked (t, v) ≠ none := fun v hv =>
    (staysChecked_step hs rfl).ne_none (hold v hv)
  cases step_cases hs with
  | pinGrow =>
    unfold growStack at hstay ⊢
    split
    · next hgrow =>
      rw [if_pos hgrow] at hstay
      exact .inl ⟨hstay, .inl (.inr (by rw [St.setPc_self]; exact ⟨rfl, rfl⟩))⟩
    · refine .inr ?_
      simp [St.finish, Pc.ending]
  | pin =>
    refine .inl ⟨hstay, .inl ?_⟩
    rw [St.setPc_self]
    split
    · exact .inr ⟨rfl, rfl⟩
    · exact .inl rfl

/-- **`check_address` checks every page** that it lets pass, and keeps those that were checked before. -/
theorem Passes.checked {us vs : List ℕ} (h : Passes t us s s')
    (hold : ∀ v ∈ vs, s.checked (t, v) ≠ none) :
    ∀ v, v ∈ us ∨ v ∈ vs → s'.checked (t, v) ≠ none := by
  induction h generalizing vs with
  | nil s =>
    intro v hv
    exact hold v (hv.resolve_left List.not_mem_nil)
  | @cons s x y z u us b esp ok hpin hgo hret h ih =>
    have hC : Checking t u vs y :=
      hgo.invariant (fun _ _ _ hx hok hs => hx.step hok hs) (checking_pin hpin hold)
    have hall : ∀ v ∈ u :: vs, y.checked (t, v) ≠ none := by
      obtain ⟨hv, hp | ⟨-, hu⟩⟩ | hp := hC
      · rw [hret] at hp
        obtain h | ⟨h, -⟩ := hp <;> cases h
      · intro v hmem
        obtain rfl | hmem := List.mem_cons.1 hmem
        · exact hu
        · exact hv v hmem
      · rw [hret] at hp
        cases hp
    intro v hv
    refine ih hall v ?_
    simp only [List.mem_cons] at hv ⊢
    tauto

/-- **`check_writable` marks every page** that it lets pass. -/
theorem PassesWritable.checked {us vs : List ℕ} (h : PassesWritable t us s s')
    (hold : ∀ v ∈ vs, s.checked (t, v) = some true) :
    ∀ v, v ∈ us ∨ v ∈ vs → s'.checked (t, v) = some true := by
  induction h generalizing vs with
  | nil s =>
    intro v hv
    exact hold v (hv.resolve_left List.not_mem_nil)
  | @cons s x y z u us hcheck hgo hret h ih =>
    -- the process is back at once, or it is killed
    have hx : (∀ v ∈ u :: vs, x.checked (t, v) = some true) ∧ x.pc t = .run ∨
        (x.pc t).ending = true := by
      cases step_cases hcheck with
      | checkWritable _ _ hp =>
        refine .inl ⟨fun v hv => ?_, hp⟩
        by_cases he : v = u
        · subst he
          simp
        · have hne : (t, v) ≠ (t, u) := fun h => he (congrArg Prod.snd h)
          have := hold v ((List.mem_cons.1 hv).resolve_left he)
          simpa [Function.update_of_ne hne] using this
      | checkFail => exact .inr (by rw [St.setPc_self]; rfl)
    have hy : (∀ v ∈ u :: vs, y.checked (t, v) = some true) ∧ y.pc t = .run ∨
        (y.pc t).ending = true := by
      refine hgo.invariant (P := fun y => (∀ v ∈ u :: vs, y.checked (t, v) = some true) ∧
        y.pc t = .run ∨ (y.pc t).ending = true) ?_ hx
      intro s a s' h hok hs
      obtain ⟨hpc, hc⟩ | ⟨ok, rfl, hg⟩ := Own.cases hok hs
      · simp only [hpc, hc]
        exact h
      · obtain ⟨-, hp⟩ | hp := h
        · rw [not_go_of_run hp] at hg
          cases hg
        · exact .inr (ending_go hg hp)
    intro v hv
    obtain ⟨hall, -⟩ | hp := hy
    · refine ih hall v ?_
      simp only [List.mem_cons] at hv ⊢
      tauto
    · rw [hret] at hp
      cases hp

theorem Passes.reachable {us : List ℕ} (h : Passes t us s s') (hr : sys.Reachable s) :
    sys.Reachable s' := by
  induction h with
  | nil => exact hr
  | @cons s x y z u us b esp ok hpin hgo hret h ih =>
    have hx : sys.Reachable x := .step (a := .pin t u b esp ok) hr trivial hpin
    exact ih (System.Reachable.steps hx hgo)

theorem PassesWritable.reachable {us : List ℕ} (h : PassesWritable t us s s') (hr : sys.Reachable s) :
    sys.Reachable s' := by
  induction h with
  | nil => exact hr
  | @cons s x y z u us hcheck hgo hret h ih =>
    have hx : sys.Reachable x := .step (a := .checkWritable t u) hr trivial hcheck
    exact ih (System.Reachable.steps hx hgo)

/-- A checked page is resident for as long as it is not released. -/
theorem resident_of_checked (hr : sys.Reachable s) (hc : s.checked κ ≠ none)
    (hrun : sys.Steps (fun s a => s.releases a κ = false) s s') :
    Resident s' κ ∧ (s.checked κ = some true → WritablePage s' κ) := by
  have hstay : StaysChecked s s' κ := by
    refine hrun.invariant (P := fun y => StaysChecked s y κ) ?_ (.of_eq rfl)
    intro x a y hx hok hs w hw
    obtain ⟨w', hw', himp⟩ := hx w hw
    obtain ⟨w'', hw'', himp'⟩ := staysChecked_step hs hok w' hw'
    exact ⟨w'', hw'', fun h => himp' (himp h)⟩
  have hinv := (good_of_reachable (System.Reachable.steps hr hrun)).inv
  refine ⟨(hinv.resident (hstay.ne_none hc)).1, fun hw => ?_⟩
  obtain ⟨w', hw', himp⟩ := hstay true hw
  rw [himp rfl] at hw'
  exact (hinv.resident (by rw [hw']; exact nofun)).2 hw'

/-- **Pages that were validated for a system call stay resident.** If `check_address` returns, every page
that the buffer touches is resident, pinned and nobody's victim until its process releases it, whatever
happens meanwhile. If `check_writable` returns, the pages may be written, too. -/
theorem check_resident {addr size : ℕ} (hr : sys.Reachable s)
    (hpass : Passes t (rangePages addr size) s x) (hsize : 0 < size) (hlo : u * pgSize < addr + size)
    (hhi : addr < (u + 1) * pgSize) :
    (∀ s', sys.Steps (fun s a => s.releases a (t, u) = false) x s' → Resident s' (t, u)) ∧
      ∀ y, PassesWritable t (rangePages addr size) x y →
        ∀ s', sys.Steps (fun s a => s.releases a (t, u) = false) y s' →
          Resident s' (t, u) ∧ WritablePage s' (t, u) := by
  have hmem : u ∈ rangePages addr size := mem_rangePages.2 ⟨hsize, hlo, hhi⟩
  have hrx := hpass.reachable hr
  have hnil : ∀ v ∈ ([] : List ℕ), s.checked (t, v) ≠ none := nofun
  have hc : x.checked (t, u) ≠ none := hpass.checked hnil u (.inl hmem)
  refine ⟨fun s' hrun => (resident_of_checked hrx hc hrun).1, fun y hw s' hrun => ?_⟩
  have hnil' : ∀ v ∈ ([] : List ℕ), x.checked (t, v) = some true := nofun
  have hcy : y.checked (t, u) = some true := hw.checked hnil' u (.inl hmem)
  obtain ⟨h1, h2⟩ := resident_of_checked (hw.reachable hrx) (by rw [hcy]; exact nofun) hrun
  exact ⟨h1, h2 hcy⟩

/-- The process is in a system call. Its page 1 is not in memory, where there is one frame. -/
def callActs : List Act :=
  [Act.spawn 0, Act.go 0 true, Act.addFile 0 1 0 0 0 true, Act.setupStack 0] ++ List.replicate 10 (Act.go 0 true) ++
    [Act.enter 0]

/-- `check_address` for ten bytes of the page 1, which takes the only frame. -/
theorem check_resident_call : ∃ s x, sys.Reachable s ∧ s.pte (0, 1) = .zero ∧
    Passes 0 (rangePages 4096 10) s x ∧ Resident x (0, 1) := by
  obtain ⟨s, hr, hz, hx⟩ := System.exists_of_runWith
    (fun s => s.pte (0, 1) = .zero ∧ (step s (.pin 0 1 0 0 true)).any fun x =>
      (sys.runWith (fun _ a => a = .go 0 true) x (List.replicate 26 (.go 0 true))).any fun y =>
        y.pc 0 = .run)
    (show (sys.run (zeroed 4 1 1) callActs).any _ = true by decide +kernel)
  obtain ⟨x, hpin, hy⟩ := (Option.any_eq_true ..).1 hx
  obtain ⟨y, hgo, hret⟩ := (Option.any_eq_true ..).1 hy
  have himp : ∀ s a, decide (a = Act.go 0 true) = true → Own 0 s a := fun _ _ h _ =>
    ⟨true, of_decide_eq_true h⟩
  have hreach : sys.Reachable s := System.reachable_of_run (zeroed_init ..) hr
  have hpass : Passes 0 (rangePages 4096 10) s y :=
    .cons 0 0 true hpin (System.Steps.refl.runWith himp hgo) (of_decide_eq_true hret) (.nil y)
  exact ⟨s, y, hreach, hz, hpass,
    (check_resident (u := 1) hreach hpass (by decide) (by decide) (by decide)).1 y .refl⟩

end Vm
end Pintos

import Pintos.Vm.Evict
import Pintos.Vm.Flow

/-!
# `frame_alloc` and `handle_mm_fault` keep the invariant

A process works here on one page of its own (`Acts`): it takes a frame, fills it from the file or from
swap, maps it, or gives it back. Each statement is one step of that page.
-/

namespace Pintos
namespace Vm

variable {s s' : St} {t u k : ℕ} {κ : Key} {c : Caller} {e : Entry} {p : Pc}

/-! ### A process and its own page -/

/-- `t` does something to its page `u` and goes on at `p`. -/
structure Acts (s s' : St) (t u : ℕ) (p : Pc) : Prop where
  phase : ∀ w, w ≠ u → p.phase w = (s.pc t).phase w
  victim : (s.pc t).victim = none
  victim' : p.victim = none
  evicts : p.evicts = true → s'.lock .frame = some t
  hasDir : p.hasDir = (s.pc t).hasDir
  serves : p.Serves
  clean : ∀ k, p.cleared = some k → s'.mem k = blank
  pc : s'.pc = Function.update s.pc t p := by rfl
  lock : ∀ t', t' ≠ t → (s'.lock .frame = some t' ↔ s.lock .frame = some t') := by exact fun _ _ => .rfl
  spt : ∀ κ, κ ≠ (t, u) → s'.spt κ = s.spt κ := by exact fun _ _ => rfl
  pte : ∀ κ, κ ≠ (t, u) → s'.pte κ = s.pte κ := by exact fun _ _ => rfl
  frames : ∀ κ, κ ≠ (t, u) → s'.frames κ = s.frames κ := by exact fun _ _ => rfl
  checked : ∀ κ, κ ≠ (t, u) → s'.checked κ = s.checked κ := by exact fun _ _ => rfl
  ghost : ∀ κ, κ ≠ (t, u) → s'.ghost κ = s.ghost κ := by exact fun _ _ => rfl
  mem : ∀ κ, κ ≠ (t, u) → ∀ k, (s.view κ).place = some k → s'.mem k = s.mem k := by exact fun _ _ _ _ => rfl
  flight : ∀ t', t' ≠ t → ∀ k, (s.pc t').flight = some k → s'.mem k = s.mem k := by exact fun _ _ _ _ => rfl
  tables : s'.tables = s.tables := by rfl
  swap : s'.swap = s.swap := by rfl
  files : s'.files = s.files := by rfl
  userPages : s'.userPages = s.userPages := by rfl
  poolSize : s'.poolSize = s.poolSize := by rfl
  pagedir : s'.pagedir = s.pagedir := by rfl

namespace Acts

variable (hA : Acts s s' t u p)
include hA

theorem self : s'.pc t = p := by rw [hA.pc, Function.update_self]

theorem leaving (κ : Key) : s'.leaving κ = s.leaving κ := by
  have he : s'.evicting = s.evicting := by
    refine St.evicting_congr (t := t) ?_ hA.lock hA.victim ?_
    · intro t' ht'
      rw [hA.pc, Function.update_of_ne ht']
    · rw [hA.self]
      exact hA.victim'
  simp only [St.leaving, he]

theorem sound (h : Inv s) : Sound s s' t where
  userPages := hA.userPages
  poolSize := hA.poolSize
  pc t' ht' := by rw [hA.pc, Function.update_of_ne ht']
  lock t' ht' hl := (hA.lock t' ht').2 hl
  evicts he := hA.evicts (hA.self ▸ he)
  victim v' st' hv := by
    rw [hA.self, hA.victim'] at hv
    cases hv
  serves := by
    rw [hA.self]
    exact hA.serves
  pagedir t' _ := by rw [hA.pagedir]
  dir := by rw [hA.pagedir, hA.self, hA.hasDir, h.dir t]
  flight := hA.flight
  clean k hk := by
    rw [hA.self] at hk
    exact hA.clean k hk

theorem local_ : Local s s' t (t, u) := by
  refine Local.of ?_ ?_ (fun κ _ => hA.leaving κ) hA.spt hA.pte hA.tables hA.frames hA.checked
    hA.ghost hA.mem ?_
  · intro t' ht'
    rw [hA.pc, Function.update_of_ne ht']
  · intro w hw
    rw [hA.self]
    exact hA.phase w fun h => hw (by rw [h])
  · intro κ _ k _
    rw [hA.swap]

theorem view : s'.view (t, u) = { s.view (t, u) with
    phase := p.phase u, entry := s'.spt (t, u), pte := s'.pte (t, u), frames := s'.frames (t, u)
    checked := s'.checked (t, u) } := by
  simp only [St.view, hA.self, hA.leaving, hA.tables]

/-- The rule for what a process does to its own page. -/
theorem inv (h : Inv s) (hstep : PageStep (t, u) (s.page (t, u)) (s'.page (t, u)))
    (hpages : Holders s'.used s'.holding) (hslots : Holders s'.swapUsed fun κ => (s'.view κ).slot)
    (hnodup : (s'.frameList.map Frame.kpage).Nodup) (hpool : ∀ k, s'.used k = true → k < s.poolSize)
    (hbound : s.userPages ≤ u → s'.spt (t, u) = none ∧ (s'.pte (t, u)).present = false)
    (hfresh : (s'.ghost (t, u)).touched = false → (s'.ghost (t, u)).stale = false →
      (s'.ghost (t, u)).flat = fileBytes s (s'.ghost (t, u)).file (s'.ghost (t, u)).ofs
        (s'.ghost (t, u)).readBytes) : Inv s' :=
  h.of_local (hA.sound h) hA.local_ hstep hpages hslots hnodup hpool hbound hA.files hfresh

/-- The same for a page that keeps its frame and its slot. -/
theorem keep (h : Inv s) {v : View} {d : Bytes} (hused : s'.used = s.used) (hswap : s'.swapUsed = s.swapUsed)
    (hflight : p.flight = (s.pc t).flight) (hview : s'.view (t, u) = v)
    (hplace : v.place = (s.view (t, u)).place) (hslot : v.slot = (s.view (t, u)).slot)
    (hdata : (s.view (t, u)).place.elim blank s'.mem = d) (hnodup : (s'.frameList.map Frame.kpage).Nodup)
    (hbound : s.userPages ≤ u → s'.spt (t, u) = none ∧ (s'.pte (t, u)).present = false)
    (hfresh : (s'.ghost (t, u)).touched = false → (s'.ghost (t, u)).stale = false →
      (s'.ghost (t, u)).flat = fileBytes s (s'.ghost (t, u)).file (s'.ghost (t, u)).ofs
        (s'.ghost (t, u)).readBytes)
    (hstep : PageStep (t, u) (s.page (t, u))
      { toView := v, data := d, saved := (s.page (t, u)).saved, ghost := s'.ghost (t, u) }) : Inv s' := by
  subst hview
  have hL := hA.local_
  refine hA.inv h ?_ (hL.pages_keep h hused hplace (by rw [hA.self, hflight]))
    (hL.slots_keep h hswap hslot) hnodup (by rw [hused]; exact h.pool) hbound hfresh
  have hpage : s'.page (t, u) =
      { toView := s'.view (t, u), data := d, saved := (s.page (t, u)).saved, ghost := s'.ghost (t, u) } := by
    simp only [St.page, hplace, hslot, hdata, hA.swap]
  rw [hpage]
  exact hstep

end Acts

/-! ### `frame_alloc` -/

section Alloc

theorem Inv.serves_of (h : Inv s) {q : Pc} (hp : s.pc t = q) : q.Serves := hp ▸ h.serves t

/-- The frame `k` that nobody uses is in no page. -/
theorem Inv.place_ne_of_unused (h : Inv s) (hk : s.used k = false) : (s.view κ).place ≠ some k :=
  h.pages.ne_of_not_used hk (.inl κ)

/-- The frame `k` in the hands of a process is in no page, and in no other hands. -/
theorem Inv.place_ne_of_flight (h : Inv s) (hk : (s.pc t).flight = some k) :
    (s.view κ).place ≠ some k := fun hp => h.place_ne_flight hp hk

theorem Inv.flight_inj (h : Inv s) {t' : ℕ} (hk : (s.pc t).flight = some k)
    (hk' : (s.pc t').flight = some k) : t' = t :=
  Sum.inr.inj (h.pages.inj (.inr t') (.inr t) k hk' hk)

theorem Inv.used_of_flight (h : Inv s) (hk : (s.pc t).flight = some k) : s.used k = true :=
  h.pages.used_of_held (h := Sum.inr t) hk

theorem Inv.alloc_take (h : Inv s) (hp : s.pc t = .alloc c u) (hk : s.used k = false)
    (hlt : k < s.poolSize) {m : ℕ → Bytes} (hm : ∀ k', k' ≠ k → m k' = s.mem k')
    (hz : c.zero = true → m k = blank) :
    Inv ({ s with used := Function.update s.used k true, mem := m }.setPc t (.makeFrame c u k)) := by
  have hA : Acts s ({ s with used := Function.update s.used k true, mem := m }.setPc t
      (.makeFrame c u k)) t u (.makeFrame c u k) := {
    phase := fun w _ => by rw [hp]; rfl
    victim := by rw [hp]; rfl
    victim' := rfl
    evicts := nofun
    hasDir := by rw [hp]; rfl
    serves := (h.serves_of hp :)
    clean := fun k' hk' => by
      obtain ⟨hc, rfl⟩ : c.zero = true ∧ k = k' := by simpa [Pc.cleared] using hk'
      exact hz hc
    mem := fun κ _ k' hk' => hm k' fun he => h.place_ne_of_unused hk (he ▸ hk')
    flight := fun t' _ k' hk' => hm k' fun he => h.pages.ne_of_not_used hk (.inr t') (he ▸ hk') }
  have hview : ({ s with used := Function.update s.used k true, mem := m }.setPc t
      (.makeFrame c u k)).view (t, u) = s.view (t, u) := by
    rw [hA.view]
    simp only [St.view, hp]
    rfl
  have hL := hA.local_
  refine hA.inv h ?_ (hL.pages_take h hk rfl (by rw [hview]) (by rw [hp]; rfl) (by rw [hA.self]; rfl))
    (hL.slots_keep h rfl (by rw [hview])) h.nodup ?_ (h.bound (t, u)) (h.fresh (t, u))
  · rw [St.page_congr hview rfl ?_ fun _ _ => rfl]
    · exact .same _
    · intro k' hk'
      refine hm k' ?_
      rintro rfl
      exact h.place_ne_of_unused hk hk'
  · intro k' hk'
    by_cases he : k' = k
    · rw [he]
      exact hlt
    · refine h.pool k' ?_
      simpa [St.setPc, he] using hk'

theorem Inv.alloc (h : Inv s) (hp : s.pc t = .alloc c u) : Inv (alloc s t c u) := by
  unfold Vm.alloc
  split
  · exact h.panic _
  · split
    · refine h.stay (fun w => by rw [hp]; rfl) ?_ nofun
      rw [hp]
      exact ⟨rfl, rfl, rfl, rfl, rfl, (h.serves_of hp :)⟩
    · next k hk =>
      obtain ⟨hused, hlt⟩ := find_firstFree hk
      split
      · refine h.alloc_take hp hused hlt (fun k' hk' => Function.update_of_ne hk' ..) fun _ => ?_
        exact Function.update_self ..
      · next hz => exact h.alloc_take hp hused hlt (fun _ _ => rfl) fun hc => absurd hc hz

/-- `frame_evict` returns, with the frame of the victim. -/
theorem Inv.evictUnlock (h : Inv s) (hp : s.pc t = .evictUnlock c u k) {m : ℕ → Bytes}
    (hm : ∀ k', k' ≠ k → m k' = s.mem k') (hz : c.zero = true → m k = blank) :
    Inv ({ s.setLock .frame none with mem := m }.setPc t (.makeFrame c u k)) := by
  have hl := h.evicts t (by rw [hp]; rfl)
  have hfl : (s.pc t).flight = some k := by rw [hp]; rfl
  have hA : Acts s ({ s.setLock .frame none with mem := m }.setPc t (.makeFrame c u k)) t u
      (.makeFrame c u k) := {
    phase := fun w _ => by rw [hp]; rfl
    victim := by rw [hp]; rfl
    victim' := rfl
    evicts := nofun
    hasDir := by rw [hp]; rfl
    serves := (h.serves_of hp :)
    clean := fun k' hk' => by
      obtain ⟨hc, rfl⟩ : c.zero = true ∧ k = k' := by simpa [Pc.cleared] using hk'
      exact hz hc
    lock := fun t' ht' => by
      have h1 : ({ s.setLock .frame none with mem := m }.setPc t (.makeFrame c u k)).lock .frame =
        none := by simp [St.setLock, St.setPc]
      rw [h1, hl]
      simp [Ne.symm ht']
    mem := fun κ _ k' hk' => hm k' fun he => h.place_ne_of_flight hfl (he ▸ hk')
    flight := fun t' ht' k' hk' => hm k' fun he => ht' (h.flight_inj hfl (he ▸ hk')) }
  have hview : ({ s.setLock .frame none with mem := m }.setPc t (.makeFrame c u k)).view (t, u) =
      s.view (t, u) := by
    rw [hA.view]
    simp only [St.view, hp]
    rfl
  have hdata : (s.view (t, u)).place.elim blank m = (s.page (t, u)).data := by
    cases hpl : (s.view (t, u)).place with
    | none => simp [St.page, hpl]
    | some k' =>
      have hmk := hm k' fun he => h.place_ne_of_flight hfl (he ▸ hpl)
      simpa [St.page, hpl] using hmk
  exact hA.keep h rfl rfl (by rw [hp]; rfl) hview rfl rfl hdata h.nodup (h.bound (t, u)) (h.fresh (t, u)) (.same _)

/-- The process frees the frame in its hands. -/
theorem Inv.giveUp (h : Inv s) (hfl : (s.pc t).flight = some k)
    (hphase : ∀ w, w ≠ u → p.phase w = (s.pc t).phase w) (hv : (s.pc t).victim = none)
    (hv' : p.victim = none) (he : p.evicts = false) (hf : p.flight = none)
    (hd : p.hasDir = (s.pc t).hasDir) (hserves : p.Serves)
    (hfrom : ∀ k st, (s.pc t).phase u ≠ .load k st) (hto : ∀ k st, p.phase u ≠ .load k st)
    (hlive : (p.phase u).live = true → ((s.pc t).phase u).live = true)
    (hstack : p.phase u ≠ .wait .stack)
    (hshape : View.Shape (t, u) { s.view (t, u) with phase := p.phase u }) :
    Inv ((s.freeUser k).setPc t p) := by
  have heq : s.freeUser k = { s with
      used := Function.update s.used k false
      mem := Function.update s.mem k fun _ => 0xcc } := by
    simp only [St.freeUser, h.used_of_flight hfl, if_true, St.setMem]
  have hm : ∀ k', k' ≠ k → (s.freeUser k).mem k' = s.mem k' := by
    intro k' hk'
    rw [heq]
    exact Function.update_of_ne hk' ..
  have hA : Acts s ((s.freeUser k).setPc t p) t u p := {
    phase := hphase
    victim := hv
    victim' := hv'
    evicts := fun hev => by rw [he] at hev; cases hev
    hasDir := hd
    serves := hserves
    clean := fun k' hk' => by rw [Pc.flight_of_cleared hk'] at hf; cases hf
    pc := by rw [heq]; rfl
    lock := fun _ _ => by rw [heq]; rfl
    spt := fun _ _ => by rw [heq]; rfl
    pte := fun _ _ => by rw [heq]; rfl
    frames := fun _ _ => by rw [heq]; rfl
    checked := fun _ _ => by rw [heq]; rfl
    ghost := fun _ _ => by rw [heq]; rfl
    tables := by rw [heq]; rfl
    swap := by rw [heq]; rfl
    files := by rw [heq]; rfl
    userPages := by rw [heq]; rfl
    poolSize := by rw [heq]; rfl
    pagedir := by rw [heq]; rfl
    mem := fun κ _ k' hk' => hm k' fun he => h.place_ne_of_flight hfl (he ▸ hk')
    flight := fun t' ht' k' hk' => hm k' fun he => ht' (h.flight_inj hfl (he ▸ hk')) }
  have hview : ((s.freeUser k).setPc t p).view (t, u) = { s.view (t, u) with phase := p.phase u } := by
    rw [hA.view, heq]
    rfl
  have hplace : (((s.freeUser k).setPc t p).view (t, u)).place = (s.view (t, u)).place := by
    rw [hview]
    rfl
  have hslot : (((s.freeUser k).setPc t p).view (t, u)).slot = (s.view (t, u)).slot := by
    rw [hview]
    exact View.slot_congr (Phase.freed_of hfrom) (Phase.freed_of hto)
  have hL := hA.local_
  refine hA.inv h ?_ (hL.pages_give h (k := k) (by rw [heq]; rfl) hplace hfl (by rw [hA.self, hf]))
    (hL.slots_keep h (by rw [heq]; rfl) hslot) ?_ ?_ ?_ ?_
  · have hpage : ((s.freeUser k).setPc t p).page (t, u) = { s.page (t, u) with phase := p.phase u } := by
      have hdata : (s.view (t, u)).place.elim blank ((s.freeUser k).setPc t p).mem =
          (s.view (t, u)).place.elim blank s.mem := by
        cases hpl : (s.view (t, u)).place with
        | none => rfl
        | some k' => exact hm k' fun he => h.place_ne_of_flight hfl (he ▸ hpl)
      simp only [St.page, hplace, hslot, hdata]
      rw [hview, heq]
      rfl
    rw [hpage]
    exact .turn _ _ hshape hfrom hto hlive hstack
  · rw [heq]
    exact h.nodup
  · rw [heq]
    intro k' hk'
    refine h.pool k' ?_
    by_cases he : k' = k
    · rw [he]
      exact h.used_of_flight hfl
    · simpa [St.setPc, he] using hk'
  · rw [heq]
    exact h.bound (t, u)
  · rw [heq]
    exact h.fresh (t, u)

end Alloc

/-! ### The end of `handle_mm_fault` and `setup_stack` -/

section Finish

theorem Inv.finish {ok : Bool} (h : Inv (s.setPc t (c.back u ok))) : Inv (s.finish t c u ok) := by
  obtain he | he := s.finish_eq t c u ok
  · rw [he]
    exact h
  · rw [he]
    exact h.panic _

namespace Caller

variable {ok : Bool}

/-- The process holds nothing there. -/
theorem back_plain (c : Caller) (u : ℕ) (ok : Bool) :
    (c.back u ok).victim = none ∧ (c.back u ok).flight = none ∧ (c.back u ok).cleared = none ∧
      (c.back u ok).evicts = false ∧ (c.back u ok).hasDir = true ∧ (c.back u ok).Serves := by
  cases c with
  | fault source => cases source <;> cases ok <;> exact ⟨rfl, rfl, rfl, rfl, rfl, trivial⟩
  | _ => cases ok <;> exact ⟨rfl, rfl, rfl, rfl, rfl, trivial⟩

theorem back_other {w : ℕ} (hs : c.Serves u) (hw : w ≠ u) : (c.back u ok).phase w = .idle := by
  cases c with
  | fault source => cases source <;> cases ok <;> rfl
  | pin => cases ok <;> simp [Caller.back, Pc.phase, Ne.symm hw]
  | unmap why m i =>
    obtain rfl : u = m.addr + i := hs
    cases ok <;> simp [Caller.back, Pc.phase, Ne.symm hw]
  | setupStack => cases ok <;> rfl

theorem back_true (hs : c.Serves u) :
    (c.back u true).phase u = .idle ∨ (c.back u true).phase u = .known := by
  cases c with
  | fault source => cases source <;> exact .inl rfl
  | pin => simp [Caller.back, Pc.phase]
  | unmap why m i =>
    obtain rfl : u = m.addr + i := hs
    simp [Caller.back, Pc.phase, UnmapPc.phase]
  | setupStack => exact .inl rfl

theorem back_false (hs : c.Serves u) :
    (c.back u false).phase u = .idle ∨ (c.back u false).phase u = .dying none ∧ c.wait = .alone := by
  cases c with
  | fault source => cases source <;> exact .inl rfl
  | pin | setupStack => exact .inl rfl
  | unmap why m i =>
    obtain rfl : u = m.addr + i := hs
    simp [Caller.back, Pc.phase, UnmapPc.phase, Caller.wait]

end Caller

/-- `malloc` has failed in `frame_alloc`, or `handle_mm_fault` gives its frame back. -/
theorem Inv.allocFail (h : Inv s) (hp : s.pc t = .makeFrame c u k ∨ s.pc t = .freePage c u k) :
    Inv ((s.freeUser k).finish t c u false) := by
  have hserves : c.Serves u := by
    obtain hp | hp := hp
    · exact (h.serves_of hp :)
    · exact (h.serves_of hp :)
  have hflight : (s.pc t).flight = some k ∧ (s.pc t).victim = none ∧ (s.pc t).hasDir = true ∧
      ∀ w, w ≠ u → (s.pc t).phase w = .idle := by
    obtain hp | hp := hp <;>
      exact hp ▸ ⟨rfl, rfl, rfl, fun w hw => by simp [Pc.phase, Ne.symm hw]⟩
  obtain ⟨hfl, hv, hd, hidle⟩ := hflight
  obtain ⟨w, hw, hstrict⟩ : ∃ w, (s.pc t).phase u = .wait w ∧ (c.wait = .alone → w ≠ .plain) := by
    obtain hp | hp := hp
    · exact ⟨c.wait, by simp [hp, Pc.phase], fun hc => by simp [hc]⟩
    · exact ⟨.alone, by simp [hp, Pc.phase], fun _ => by simp⟩
  obtain ⟨hv', hf', -, he', hd', hs'⟩ := c.back_plain u false
  apply Inv.finish
  refine h.giveUp (u := u) hfl ?_ hv hv' he' hf' (hd'.trans hd.symm) hs' (by simp [hw]) ?_
    (by simp [hw, Phase.live]) ?_ ?_
  · intro x hx
    rw [Caller.back_other hserves hx, hidle x hx]
  · intro k' st
    obtain hb | ⟨hb, -⟩ := Caller.back_false hserves <;> simp [hb]
  · obtain hb | ⟨hb, -⟩ := Caller.back_false hserves <;> simp [hb]
  · have hshape := h.shape (t, u)
    have hph : (s.view (t, u)).phase = .wait w := hw
    obtain hb | ⟨hb, hal⟩ := Caller.back_false hserves <;> rw [hb]
    · exact hshape.wait_to_idle hph
    · refine hshape.wait_to_dying hph ?_
      have ha := hshape.agree
      simp only [View.Agree, hph] at ha
      exact ha.2.1 (hstrict hal)

end Finish

/-! ### `handle_mm_fault` -/

section Load

/-- Who holds `Frame_lock` and evicts nothing knows that nobody does. -/
theorem St.leaving_of_lock (hl : s.lock .frame = some t) (hv : (s.pc t).victim = none) (κ : Key) :
    s.leaving κ = none := by
  simp [St.leaving, St.evicting, hl, hv]

theorem Inv.not_mem_of_flight (h : Inv s) (hk : (s.pc t).flight = some k) :
    k ∉ s.frameList.map Frame.kpage := by
  intro hm
  obtain ⟨f, hf, rfl⟩ := List.mem_map.1 hm
  exact h.place_ne_of_flight hk (h.frame hf).2.1

/-- The frame is entered in `Frame_list`. -/
theorem Inv.push {st : LoadPc} (h : Inv s) (hp : s.pc t = .push c u k) (hl : s.lock .frame = some t)
    (hst : st = .testType ∧ c ≠ .setupStack ∨ st = .setPage false ∧ c = .setupStack) :
    Inv ({ s with frameList := s.frameList ++ [frameOf (t, u) k none true] }.setPc t
      (.load c u k st)) := by
  have hfl : (s.pc t).flight = some k := by rw [hp]; rfl
  have hph : (s.view (t, u)).phase = .wait c.wait := by simp [St.view, hp, Pc.phase]
  have hnl : s.leaving (t, u) = none := St.leaving_of_lock hl (by rw [hp]; rfl) _
  obtain ⟨hc, hpr, hf, e, he, hk, hstack⟩ := (h.shape (t, u)).waits hph hnl
  have hpr' : (s.pte (t, u)).present = false := hpr
  have hf' : s.frames (t, u) = [] := hf
  generalize hs' : ({ s with frameList := s.frameList ++ [frameOf (t, u) k none true] }.setPc t
    (.load c u k st)) = s'
  have hA : Acts s s' t u (.load c u k st) := by
    subst hs'
    exact {
      phase := fun w hw => by simp [hp, Pc.phase, Ne.symm hw]
      victim := by rw [hp]; rfl
      victim' := rfl
      evicts := by rintro ⟨⟩
      hasDir := by rw [hp]; rfl
      serves := by
        refine ⟨(h.serves_of hp :), fun hc => ?_⟩
        obtain ⟨rfl, hne⟩ | ⟨rfl, -⟩ := hst
        · exact absurd hc hne
        · rfl
      clean := by rintro _ ⟨⟩
      frames := fun κ hκ => by
        have : ¬ (t = κ.1 ∧ u = κ.2) := fun hh => hκ (Prod.ext hh.1.symm hh.2.symm)
        simp [St.frames, St.setPc, List.filter_append, frameOf, this] }
  have hframes : s'.frames (t, u) = [frameOf (t, u) k none true] := by
    have : s'.frames (t, u) = s.frames (t, u) ++ [frameOf (t, u) k none true] := by
      subst hs'
      simp [St.frames, St.setPc, List.filter_append, frameOf]
    rw [this, hf', List.nil_append]
  have hview : s'.view (t, u) = { s.view (t, u) with
      phase := .load k st, frames := [frameOf (t, u) k none true] } := by
    rw [hA.view, hframes]
    subst hs'
    simp [Pc.phase, St.view, St.setPc]
  have hplace : (s.view (t, u)).place = none := by simp [View.place, St.view, hnl, hf', hpr']
  have hplace' : (s'.view (t, u)).place = some k := by
    rw [hview]
    simp [View.place, St.view, hnl, frameOf]
  have hslot : (s'.view (t, u)).slot = (s.view (t, u)).slot := by
    rw [hview]
    refine View.slot_congr (by rw [hph]; rfl) ?_
    obtain ⟨rfl, -⟩ | ⟨rfl, -⟩ := hst <;> rfl
  have hL := hA.local_
  refine hA.inv h ?_ (hL.pages_in h (by subst hs'; rfl) hfl (by rw [hA.self]; rfl) hplace hplace')
    (hL.slots_keep h (by subst hs'; rfl) hslot) ?_ (by subst hs'; exact h.pool)
    (by subst hs'; exact h.bound (t, u)) (by subst hs'; exact h.fresh (t, u))
  · have hpage : s'.page (t, u) = { s.page (t, u) with
        phase := .load k st, frames := [frameOf (t, u) k none true], data := s.mem k } := by
      simp only [St.page, hplace', hslot]
      rw [hview]
      subst hs'
      rfl
    rw [hpage]
    refine .push _ k _ c.wait st hph hnl ?_
    obtain ⟨rfl, -⟩ | ⟨rfl, rfl⟩ := hst
    · exact .inl rfl
    · exact .inr ⟨rfl, rfl, h.clean t k (by rw [hp]; rfl)⟩
  · subst hs'
    have := h.not_mem_of_flight hfl
    simp only [St.setPc, List.map_append, List.map_cons, List.map_nil]
    exact List.nodup_append.2 ⟨h.nodup, by simp, fun a ha b hb => by
      rw [List.mem_singleton] at hb
      rintro rfl
      have hak : a = k := hb
      exact this (hak ▸ ha)⟩

variable {st st' : LoadPc}

theorem St.phase_load (hp : s.pc t = .load c u k st) : (s.view (t, u)).phase = .load k st := by
  simp [St.view, hp, Pc.phase]

theorem Inv.serves_load (h : Inv s) (hp : s.pc t = .load c u k st)
    (hof : st.ofStack = true → st'.ofStack = true) : (Pc.load c u k st').Serves := by
  obtain ⟨hs, hc⟩ : (Pc.load c u k st).Serves := h.serves_of hp
  exact ⟨hs, fun h => hof (hc h)⟩

theorem Pc.like_load (h : Inv s) (hp : s.pc t = .load c u k st)
    (hof : st.ofStack = true → st'.ofStack = true) : (s.pc t).Like (.load c u k st') := by
  rw [hp]
  exact ⟨rfl, rfl, rfl, rfl, rfl, h.serves_load hp hof⟩

theorem Inv.place_load (h : Inv s) (hp : s.pc t = .load c u k st) :
    (s.view (t, u)).place = some k := by
  obtain ⟨-, hl, hf, -⟩ := (h.shape (t, u)).loads (St.phase_load hp)
  simp only [View.place, hl, hf]
  rfl

/-- `handle_mm_fault` looks at something. -/
theorem Inv.load_next (h : Inv s) (hp : s.pc t = .load c u k st) (hst : st ≠ .clearSlot)
    (hst' : st' ≠ .clearSlot) (hof : st.ofStack = true → st'.ofStack = true)
    (hstep : PageStep (t, u) (s.page (t, u)) { s.page (t, u) with phase := .load k st' }) :
    Inv (s.setPc t (.load c u k st')) := by
  refine h.goto u ?_ (Pc.like_load h hp hof) nofun ?_ ?_ ?_
  · intro w hw
    simp [hp, Pc.phase, Ne.symm hw]
  · rw [hp]
    cases st <;> simp_all [Pc.phase, Phase.freed]
  · cases st' <;> simp_all [Pc.phase, Phase.freed]
  · simpa [Pc.phase] using hstep

/-- `handle_mm_fault` changes the entry or the page table entry. -/
theorem Inv.load_edit {e' : Entry} {q : Pte} (h : Inv s) (hp : s.pc t = .load c u k st)
    (hof : st.ofStack = true → st'.ofStack = true) (he : s.spt (t, u) = some e)
    (hq : q.present = true → (s.pte (t, u)).present = true)
    (hslot : View.slot { s.view (t, u) with phase := .load k st', entry := some e', pte := q } =
      (s.view (t, u)).slot)
    (hstep : PageStep (t, u) (s.page (t, u))
      { s.page (t, u) with phase := .load k st', entry := some e', pte := q }) :
    Inv ((s.edit (t, u) (some e') q (s.checked (t, u))).setPc t (.load c u k st')) := by
  have hphase : (Pc.load c u k st').phase u = .load k st' := by simp [Pc.phase]
  refine h.edit_own ?_ (Pc.like_load h hp hof) (by rintro ⟨⟩) ?_ hq ?_ ?_ ?_
  · intro w hw
    simp [hp, Pc.phase, Ne.symm hw]
  · intro hn
    rw [hn] at he
    cases he
  · obtain ⟨-, hl, hf, -⟩ := (h.shape (t, u)).loads (St.phase_load hp)
    rw [h.place_load hp]
    simp only [View.place, hl, hf]
    rfl
  · rw [hphase]
    exact hslot
  · rw [hphase]
    exact hstep

/-- `handle_mm_fault` fills the frame. -/
theorem Inv.load_mem {d : Bytes} (h : Inv s) (hp : s.pc t = .load c u k st) (hst : st ≠ .clearSlot)
    (hst' : st' ≠ .clearSlot) (hof : st.ofStack = true → st'.ofStack = true)
    (hstep : PageStep (t, u) (s.page (t, u)) { s.page (t, u) with phase := .load k st', data := d }) :
    Inv ((s.setMem k d).setPc t (.load c u k st')) := by
  have hplace := h.place_load hp
  have hm : ∀ k', k' ≠ k → (s.setMem k d).mem k' = s.mem k' := fun k' hk' =>
    Function.update_of_ne hk' ..
  have hA : Acts s ((s.setMem k d).setPc t (.load c u k st')) t u (.load c u k st') := {
    phase := fun w hw => by simp [hp, Pc.phase, Ne.symm hw]
    victim := by rw [hp]; rfl
    victim' := rfl
    evicts := nofun
    hasDir := by rw [hp]; rfl
    serves := h.serves_load hp hof
    clean := nofun
    mem := fun κ hκ k' hk' => hm k' fun he => hκ (h.place_inj (he ▸ hk') hplace)
    flight := fun t' _ k' hk' => hm k' fun he => h.place_ne_flight hplace (he ▸ hk') }
  have hview : ((s.setMem k d).setPc t (.load c u k st')).view (t, u) =
      { s.view (t, u) with phase := .load k st' } := by
    rw [hA.view]
    simp [Pc.phase, St.view, St.setPc, St.setMem, St.frames]
  refine hA.keep h rfl rfl (by rw [hp]; rfl) hview rfl (View.slot_congr ?_ ?_) ?_ h.nodup (h.bound (t, u))
    (h.fresh (t, u)) hstep
  · rw [St.phase_load hp]
    cases st <;> simp_all [Phase.freed]
  · cases st' <;> simp_all [Phase.freed]
  · rw [hplace]
    exact Function.update_self ..

theorem Inv.load_entry (h : Inv s) (hp : s.pc t = .load c u k st) (he : s.spt (t, u) = some e) :
    View.Loads (s.view (t, u)) k e st := by
  obtain ⟨-, -, -, e', he', hL⟩ := (h.shape (t, u)).loads (St.phase_load hp)
  have hee : s.spt (t, u) = some e' := he'
  rw [he] at hee
  cases hee
  exact hL

theorem Inv.load_slot (h : Inv s) (hp : s.pc t = .load c u k st) (he : s.spt (t, u) = some e)
    (hst : st ≠ .clearSlot) : (s.view (t, u)).slot = e.swapSlot := by
  obtain ⟨-, hl, -⟩ := (h.shape (t, u)).loads (St.phase_load hp)
  have he' : (s.view (t, u)).entry = some e := he
  have hfr : (Phase.load k st).freed = false := by cases st <;> simp_all [Phase.freed]
  simp [View.slot, hl, St.phase_load hp, hfr, he']

theorem Inv.load_fill {ok : Bool} (h : Inv s) (hp : s.pc t = .load c u k .fill)
    (he : s.spt (t, u) = some e) : Inv (loadPage s t c u k e ok .fill) := by
  simp only [loadPage]
  split
  · refine h.load_mem hp (by simp) (by simp) (by rintro ⟨⟩) (.fill _ k _ (St.phase_load hp) ?_)
    intro ht hs
    obtain ⟨hf, ho, hr⟩ := (h.content (t, u)).origin e he
    have := h.fresh (t, u) ht hs
    rw [hf, ho, hr]
    exact this.symm
  · exact h.load_next hp (by simp) (by simp) (by rintro ⟨⟩) (.short _ k (St.phase_load hp))

theorem Inv.load_swapRead {ok : Bool} {slot : ℕ} (h : Inv s)
    (hp : s.pc t = .load c u k (.swapRead slot)) (he : s.spt (t, u) = some e) :
    Inv (loadPage s t c u k e ok (.swapRead slot)) := by
  have hL := h.load_entry hp he
  refine h.load_mem hp (by simp) (by simp) nofun ?_
  have hslot : (s.view (t, u)).slot = some slot := by
    rw [h.load_slot hp he (by simp)]
    exact hL.2.2
  have hsaved : s.swap slot = (s.page (t, u)).saved := by simp [St.page, hslot]
  rw [hsaved]
  exact .swapRead _ k slot (St.phase_load hp)

/-- `swap_in` frees the slot. -/
theorem Inv.load_swapReset {ok : Bool} {slot : ℕ} (h : Inv s)
    (hp : s.pc t = .load c u k (.swapReset slot)) (he : s.spt (t, u) = some e) :
    Inv (loadPage s t c u k e ok (.swapReset slot)) := by
  have hload := h.load_entry hp he
  obtain ⟨-, hl, hf, -⟩ := (h.shape (t, u)).loads (St.phase_load hp)
  have hl' : s.leaving (t, u) = none := hl
  have hslot : (s.view (t, u)).slot = some slot := by
    rw [h.load_slot hp he (by simp)]
    exact hload.2.2
  have hA : Acts s (loadPage s t c u k e ok (.swapReset slot)) t u (.load c u k .clearSlot) := {
    phase := fun w hw => by simp [hp, Pc.phase, Ne.symm hw]
    victim := by rw [hp]; rfl
    victim' := rfl
    evicts := nofun
    hasDir := by rw [hp]; rfl
    serves := h.serves_load hp nofun
    clean := nofun }
  have hview : (loadPage s t c u k e ok (.swapReset slot)).view (t, u) =
      { s.view (t, u) with phase := .load k .clearSlot } := by
    rw [hA.view]
    simp [Pc.phase, St.view, St.setPc, St.frames, loadPage]
  have hplace : ((loadPage s t c u k e ok (.swapReset slot)).view (t, u)).place =
      (s.view (t, u)).place := by
    rw [hview]
    rfl
  have hslot' : ((loadPage s t c u k e ok (.swapReset slot)).view (t, u)).slot = none := by
    rw [hview]
    simp [View.slot, St.view, hl', Phase.freed]
  have hL := hA.local_
  refine hA.inv h ?_ (hL.pages_keep h rfl hplace (by rw [hA.self, hp]; rfl))
    (hL.slots_give h rfl hslot hslot') h.nodup h.pool (h.bound (t, u)) (h.fresh (t, u))
  have hpage : (loadPage s t c u k e ok (.swapReset slot)).page (t, u) =
      { s.page (t, u) with phase := .load k .clearSlot, saved := blank } := by
    simp only [St.page, hplace, hslot']
    rw [hview]
    rfl
  rw [hpage]
  exact .swapReset _ k slot (St.phase_load hp)

theorem Inv.load_clearSlot {ok : Bool} (h : Inv s) (hp : s.pc t = .load c u k .clearSlot)
    (he : s.spt (t, u) = some e) : Inv (loadPage s t c u k e ok .clearSlot) := by
  rw [loadPage, St.setEntry_eq, he]
  refine h.load_edit hp (by rintro ⟨⟩) he id ?_ (.clearSlot _ k e (St.phase_load hp) he)
  simp [View.slot, St.phase_load hp, Phase.freed]

/-- The page table of the page `u` exists. -/
theorem Inv.makeTable (h : Inv s) (x : ℕ × ℕ) :
    Inv { s with tables := Function.update s.tables x true } := by
  generalize hs' : ({ s with tables := Function.update s.tables x true } : St) = s'
  have hview : ∀ κ, s'.view κ = { s.view κ with
      table := (s'.view κ).table } := by
    subst hs'
    exact fun _ => rfl
  have hplace : ∀ κ, (s'.view κ).place = (s.view κ).place := fun κ => by rw [hview]; rfl
  have hslot : ∀ κ, (s'.view κ).slot = (s.view κ).slot := fun κ => by rw [hview]; rfl
  have hpage : ∀ κ, s'.page κ = { s.page κ with table := (s'.view κ).table } := by
    intro κ
    simp only [St.page, hplace, hslot]
    rw [hview]
    subst hs'
    rfl
  refine h.of_steps (t := 0) ?_ ?_ ?_ ?_ ?_ ?_ ?_ ?_
  · subst hs'
    exact ⟨rfl, rfl, fun _ _ => rfl, fun _ _ => id, h.evicts 0, h.victim 0, h.serves 0,
      fun _ _ => rfl, h.dir 0, fun _ _ _ _ => rfl, h.clean 0⟩
  · intro κ
    rw [hpage κ]
    by_cases hx : (κ.1, κ.2 / tableSize) = x
    · have ht : (s'.view κ).table = true := by
        subst hs'
        simp [St.view, hx]
      rw [ht]
      exact .table _
    · have ht : (s'.view κ).table = (s.page κ).table := by
        subst hs'
        exact Function.update_of_ne hx ..
      rw [ht]
      exact .same _
  · refine h.pages.keep (by subst hs'; rfl) fun y => ?_
    cases y with
    | inl κ => exact hplace κ
    | inr t' => subst hs'; rfl
  · exact h.slots.keep (by subst hs'; rfl) hslot
  · subst hs'
    exact h.nodup
  · subst hs'
    exact h.pool
  · subst hs'
    exact h.bound
  · subst hs'
    exact h.fresh

/-- `pagedir_set_page`, when the page table exists. -/
theorem Inv.load_setPage {fromSwap : Bool} (h : Inv s)
    (hp : s.pc t = .load c u k (.setPage fromSwap)) (he : s.spt (t, u) = some e)
    (htab : s.tables (t, u / tableSize) = true)
    (hst : st = .setDirty fromSwap ∧ c ≠ .setupStack ∨
      st = .setKpage ∧ fromSwap = false) :
    Inv ((s.setPte (t, u) fun _ => { kpage := k, present := true, writable := e.writable
                                     accessed := false, dirty := false }).setPc t
      (.load c u k st)) := by
  obtain ⟨-, hl, hf, -⟩ := (h.shape (t, u)).loads (St.phase_load hp)
  generalize hs' : ((s.setPte (t, u) fun _ => { kpage := k, present := true, writable := e.writable
                                                accessed := false, dirty := false }).setPc t
      (.load c u k st)) = s'
  have hA : Acts s s' t u (.load c u k st) := by
    subst hs'
    exact {
      phase := fun w hw => by simp [hp, Pc.phase, Ne.symm hw]
      victim := by rw [hp]; rfl
      victim' := rfl
      evicts := nofun
      hasDir := by rw [hp]; rfl
      serves := by
        refine ⟨(h.serves_of hp :).1, fun hc => ?_⟩
        obtain ⟨rfl, hne⟩ | ⟨rfl, -⟩ := hst
        · exact absurd hc hne
        · rfl
      clean := nofun
      pte := fun κ hκ => Function.update_of_ne hκ .. }
  have hview : s'.view (t, u) = { s.view (t, u) with
      phase := .load k st, table := true
      pte := { kpage := k, present := true, writable := e.writable, accessed := false
               dirty := false } } := by
    rw [hA.view]
    subst hs'
    simp [Pc.phase, St.view, St.setPc, St.setPte, St.frames, htab]
  refine hA.keep h (by subst hs'; rfl) (by subst hs'; rfl) (by rw [hp]; rfl) hview ?_ (View.slot_congr ?_ ?_)
    (by subst hs'; rfl) (by subst hs'; exact h.nodup) ?_ (by subst hs'; exact h.fresh (t, u)) ?_
  · rw [h.place_load hp]
    simp only [View.place, hl, hf]
    rfl
  · rw [St.phase_load hp]
    rfl
  · obtain ⟨rfl, -⟩ | ⟨rfl, -⟩ := hst <;> rfl
  · intro hb
    rw [(h.bound (t, u) hb).1] at he
    cases he
  · subst hs'
    exact .setPage _ k fromSwap st e (St.phase_load hp) he (hst.imp And.left id)

theorem Inv.load_setDirty {ok fromSwap : Bool} (h : Inv s)
    (hp : s.pc t = .load c u k (.setDirty fromSwap)) (he : s.spt (t, u) = some e) :
    Inv (loadPage s t c u k e ok (.setDirty fromSwap)) := by
  have heq : loadPage s t c u k e ok (.setDirty fromSwap) =
      (s.edit (t, u) (some e) (if e.type = .mmap ∧ fromSwap = true then
        { s.pte (t, u) with dirty := true } else s.pte (t, u)) (s.checked (t, u))).setPc t
        (.load c u k .setKpage) := by
    simp only [loadPage]
    split
    · rw [St.setPte_eq, he]
    · simp [St.edit, ← he]
  rw [heq]
  refine h.load_edit hp (by rintro ⟨⟩) he ?_ ?_ ?_
  · split <;> exact id
  · have he' : (s.view (t, u)).entry = some e := he
    simp [View.slot, St.phase_load hp, he', Phase.freed]
  · have hstep := PageStep.setDirty (κ := (t, u)) (s.page (t, u)) k fromSwap e (St.phase_load hp) he
    have he' : (s.page (t, u)).entry = some e := he
    rw [← he']
    exact hstep

theorem Inv.load_setKpage {ok : Bool} (h : Inv s) (hp : s.pc t = .load c u k .setKpage)
    (he : s.spt (t, u) = some e) : Inv (loadPage s t c u k e ok .setKpage) := by
  rw [loadPage, St.setEntry_eq, he]
  refine h.load_edit hp (fun _ => rfl) he id ?_ (.setKpage _ k e (St.phase_load hp) he)
  have he' : (s.view (t, u)).entry = some e := he
  simp [View.slot, St.phase_load hp, he', Phase.freed]

/-- A change of the frame `k` that leaves it to its page. -/
structure Keeps (g : Frame → Frame) : Prop where
  kpage : ∀ f, (g f).kpage = f.kpage
  upage : ∀ f, (g f).upage = f.upage
  owner : ∀ f, (g f).owner = f.owner

theorem St.setFrame_eq (h : Inv s) (g : Frame → Frame) :
    (s.setFrame k g).frameList = s.frameList.map fun f => if f.kpage = k then g f else f :=
  updateFirst_eq_map h.nodup g

theorem St.setFrame_nodup (h : Inv s) {g : Frame → Frame} (hg : Keeps g) :
    ((s.setFrame k g).frameList.map Frame.kpage).Nodup := by
  rw [St.setFrame_eq h, List.map_map]
  have : (Frame.kpage ∘ fun f => if f.kpage = k then g f else f) = Frame.kpage := by
    funext f
    simp only [Function.comp]
    split
    · exact hg.kpage f
    · rfl
  rw [this]
  exact h.nodup

theorem St.frames_setFrame (h : Inv s) {g : Frame → Frame} (hg : Keeps g) (κ : Key) :
    (s.setFrame k g).frames κ = (s.frames κ).map fun f => if f.kpage = k then g f else f := by
  have hlist : ∀ l : List Frame, (l.map fun f => if f.kpage = k then g f else f).filter
      (fun f => f.owner = κ.1 ∧ f.upage = κ.2) =
        (l.filter fun f => f.owner = κ.1 ∧ f.upage = κ.2).map
          fun f => if f.kpage = k then g f else f := by
    intro l
    rw [List.filter_map]
    congr 1
    apply List.filter_congr
    intro f _
    simp only [Function.comp]
    split
    · rw [hg.owner, hg.upage]
    · rfl
  rw [St.frames, St.setFrame_eq h]
  exact hlist _

theorem St.frames_setFrame_of_ne (h : Inv s) {g : Frame → Frame} (hg : Keeps g)
    (hκ : (s.view κ).place ≠ some k) : (s.setFrame k g).frames κ = s.frames κ := by
  rw [St.frames_setFrame h hg]
  conv_rhs => rw [← List.map_id (s.frames κ)]
  apply List.map_congr_left
  intro f hf
  rw [if_neg, id]
  rintro rfl
  obtain ⟨hm, rfl⟩ := St.mem_frames.1 hf
  exact hκ (h.frame hm).2.1

/-- `frame_install`. -/
theorem Inv.load_install (h : Inv s) (hp : s.pc t = .load c u k .install) (e : Entry)
    (ok : Bool) : Inv (loadPage s t c u k e ok .install) := by
  have hserves : c.Serves u := (h.serves_of hp :).1
  have hg : Keeps fun f => { f with page := some (t, u), pinned := false } :=
    ⟨fun _ => rfl, fun _ => rfl, fun _ => rfl⟩
  obtain ⟨hv', hf', hc', he', hd', hs'⟩ := c.back_plain u true
  obtain ⟨-, hl, hf, -⟩ := (h.shape (t, u)).loads (St.phase_load hp)
  have hplace := h.place_load hp
  apply Inv.finish
  generalize hx : (s.setFrame k fun f => { f with page := some (t, u), pinned := false }) = x at *
  have hA : Acts s (x.setPc t (c.back u true)) t u (c.back u true) := by
    subst hx
    exact {
      phase := fun w hw => by
        rw [Caller.back_other hserves hw, hp]
        simp [Pc.phase, Ne.symm hw]
      victim := by rw [hp]; rfl
      victim' := hv'
      evicts := fun hev => by rw [he'] at hev; cases hev
      hasDir := by rw [hd', hp]; rfl
      serves := hs'
      clean := fun k' hk' => by rw [hc'] at hk'; cases hk'
      frames := fun κ hκ => St.frames_setFrame_of_ne h hg fun hκp => hκ (h.place_inj hκp hplace) }
  have hframes : x.frames (t, u) = [frameOf (t, u) k (some (t, u)) false] := by
    subst hx
    rw [St.frames_setFrame h hg, show s.frames (t, u) = _ from hf]
    simp [frameOf]
  have hview : (x.setPc t (c.back u true)).view (t, u) = { s.view (t, u) with
      phase := (c.back u true).phase u, frames := [frameOf (t, u) k (some (t, u)) false] } := by
    rw [hA.view, ← hframes]
    subst hx
    rfl
  refine hA.keep h (by subst hx; rfl) (by subst hx; rfl) (by rw [hp, hf']; rfl) hview ?_ (View.slot_congr ?_ ?_)
    (by subst hx; rfl) ?_ (by subst hx; exact h.bound (t, u)) (by subst hx; exact h.fresh (t, u)) ?_
  · rw [hplace]
    simp only [View.place, hl]
    rfl
  · rw [St.phase_load hp]
    rfl
  · obtain hb | hb := Caller.back_true hserves <;> rw [hb] <;> rfl
  · subst hx
    exact St.setFrame_nodup h hg
  · subst hx
    exact .install _ k _ (St.phase_load hp) (Caller.back_true hserves)

/-- The process takes the frame `k` of its page off `Frame_list`. -/
theorem Inv.frame_out {pg : Option Key} (h : Inv s) (ph : Phase)
    (hf : s.frames (t, u) = [frameOf (t, u) k pg true]) (hl : s.leaving (t, u) = none)
    (hpr : (s.pte (t, u)).present = false) (hphase : ∀ w, w ≠ u → p.phase w = (s.pc t).phase w)
    (hph : p.phase u = ph) (hv : (s.pc t).victim = none) (hv' : p.victim = none)
    (he : p.evicts = false) (hd : p.hasDir = (s.pc t).hasDir) (hserves : p.Serves)
    (hfl : (s.pc t).flight = none) (hfl' : p.flight = some k) (hc : p.cleared = none)
    (hfr : ((s.pc t).phase u).freed = false) (hfr' : ph.freed = false)
    (hstep : PageStep (t, u) (s.page (t, u))
      { s.page (t, u) with phase := ph, frames := [], data := blank }) :
    Inv ((removeFrame s k).setPc t p) := by
  have hplace : (s.view (t, u)).place = some k := by simp [View.place, St.view, hl, hf, frameOf]
  have hlist := removeFrame_frameList (k := k) h.nodup
  obtain ⟨l, hand, heq⟩ := removeFrame_fields s k
  rw [heq] at hlist ⊢
  obtain rfl : l = s.frameList.filter fun f => f.kpage ≠ k := hlist
  generalize hs' : ({ s with
    frameList := s.frameList.filter fun f => f.kpage ≠ k, hand := hand }.setPc t p) = s'
  have hA : Acts s s' t u p := by
    subst hs'
    exact {
      phase := hphase
      victim := hv
      victim' := hv'
      evicts := fun hev => by rw [he] at hev; cases hev
      hasDir := hd
      serves := hserves
      clean := fun k' hk' => by rw [hc] at hk'; cases hk'
      frames := fun κ hκ => h.frames_filter_ne fun hκp => hκ (h.place_inj hκp hplace) }
  have hframes : s'.frames (t, u) = [] := by
    have : s'.frames (t, u) = (s.frames (t, u)).filter fun f => f.kpage ≠ k := by
      rw [St.frames, St.frames, ← hs', List.filter_comm]
      rfl
    rw [this, hf]
    simp [frameOf]
  have hview : s'.view (t, u) = { s.view (t, u) with phase := ph, frames := [] } := by
    rw [hA.view, hframes, hph]
    subst hs'
    rfl
  have hplace' : (s'.view (t, u)).place = none := by
    rw [hview]
    simp [View.place, St.view, hl, hpr]
  have hslot : (s'.view (t, u)).slot = (s.view (t, u)).slot := by
    rw [hview]
    have hfr : (s.view (t, u)).phase.freed = false := hfr
    simp only [View.slot, hfr, hfr']
  have hL := hA.local_
  refine hA.inv h ?_ (hL.pages_out h (by subst hs'; rfl) hplace hplace' hfl (by rw [hA.self, hfl']))
    (hL.slots_keep h (by subst hs'; rfl) hslot) ?_ (by subst hs'; exact h.pool)
    (by subst hs'; exact h.bound (t, u)) (by subst hs'; exact h.fresh (t, u))
  · have hpage : s'.page (t, u) = { s.page (t, u) with phase := ph, frames := [], data := blank } := by
      simp only [St.page, hplace', hslot]
      rw [hview]
      subst hs'
      rfl
    rw [hpage]
    exact hstep
  · subst hs'
    exact (List.filter_sublist.map _).nodup h.nodup

theorem Inv.load_free (h : Inv s) (hp : s.pc t = .load c u k .free) (ok : Bool)
    (he : s.spt (t, u) = some e) : Inv (loadPage s t c u k e ok .free) := by
  obtain ⟨-, hl, hf, -⟩ := (h.shape (t, u)).loads (St.phase_load hp)
  refine h.frame_out (.wait .alone) hf hl (h.load_entry hp he).2 ?_ (by simp [Pc.phase])
    (by rw [hp]; rfl) rfl rfl (by rw [hp]; rfl) (h.serves_of hp :).1 (by rw [hp]; rfl) rfl rfl ?_ rfl
    (.loadFree _ k (St.phase_load hp))
  · intro w hw
    simp [hp, Pc.phase, Ne.symm hw]
  · simp [hp, Pc.phase, Phase.freed]

/-- **A statement of `handle_mm_fault`** keeps the invariant. -/
theorem Inv.loadPage {ok : Bool} (h : Inv s) (hp : s.pc t = .load c u k st)
    (he : s.spt (t, u) = some e) : Inv (loadPage s t c u k e ok st) := by
  have hph := St.phase_load hp
  cases st with
  | testType =>
    simp only [Vm.loadPage]
    split
    · next ht => exact h.load_mem hp (by simp) (by simp) (by rintro ⟨⟩) (.zero _ k e hph he ht)
    · next ht => exact h.load_next hp (by simp) (by simp) (by rintro ⟨⟩) (.toFill _ k e hph he ht)
  | fill => exact h.load_fill hp he
  | testSlot =>
    simp only [Vm.loadPage]
    split
    · next hs => exact h.load_next hp (by simp) (by simp) (by rintro ⟨⟩) (.noSlot _ k e hph he hs)
    · next slot hs => exact h.load_next hp (by simp) (by simp) (by rintro ⟨⟩) (.toSwap _ k slot e hph he hs)
  | swapTest slot =>
    simp only [Vm.loadPage]
    split
    · exact h.load_next hp (by simp) (by simp) (by rintro ⟨⟩) (.swapTest _ k slot hph)
    · exact h.panic _
  | swapRead slot => exact h.load_swapRead hp he
  | swapReset slot => exact h.load_swapReset hp he
  | clearSlot => exact h.load_clearSlot hp he
  | setPage fromSwap =>
    have hpr : (s.pte (t, u)).present = false := (h.load_entry hp he).2.1
    simp only [Vm.loadPage, hpr]
    simp only [Bool.false_eq_true, if_false]
    split
    · have hp' : ({ s with tables := Function.update s.tables (t, u / tableSize) true } : St).pc t =
        .load c u k (.setPage fromSwap) := hp
      refine (h.makeTable (t, u / tableSize)).load_setPage hp' he (by simp) ?_
      by_cases hc : c = .setupStack
      · have hof : (LoadPc.setPage fromSwap).ofStack = true := (h.serves_of hp :).2 hc
        refine .inr ⟨if_pos hc, ?_⟩
        cases fromSwap with
        | false => rfl
        | true => cases hof
      · exact .inl ⟨if_neg hc, hc⟩
    · next htab =>
      refine h.load_next hp (by simp) (by simp) (fun _ => rfl) (.noTable _ k fromSwap hph ?_)
      simp only [Bool.or_eq_true, not_or, Bool.not_eq_true] at htab
      exact htab.1
  | setDirty fromSwap => exact h.load_setDirty hp he
  | setKpage => exact h.load_setKpage hp he
  | install => exact h.load_install hp e ok
  | free => exact h.load_free hp ok he

end Load

end Vm
end Pintos

import Pintos.Vm.Fault

/-!
# `page_unmap` keeps the invariant

With `frame_pin_resident`, which `check_address` uses as well, and the writes to files, which are steps
of every page.
-/

namespace Pintos
namespace Vm

variable {s s' : St} {t u k : ℕ} {κ : Key} {c : Caller} {e : Entry} {p : Pc}

/-! ### `frame_pin_resident` -/

section Pin

theorem pinResident_some (hpin : pinResident s κ = some s') :
    ∃ e k, s.spt κ = some e ∧ e.kpage = some k ∧
      s' = s.setFrame k fun f => { f with pinned := true } := by
  unfold pinResident at hpin
  split at hpin
  · cases hpin
  · next k hk =>
    obtain ⟨e, he, hek⟩ := Option.bind_eq_some_iff.1 hk
    split at hpin
    · cases hpin
      exact ⟨e, k, he, hek, rfl⟩
    · cases hpin

/-- `frame_pin_resident` finds the frame of a page that is resident and that nobody evicts. -/
theorem Inv.pinResident_none (h : Inv s) (hpin : pinResident s κ = none)
    (hph : (s.view κ).phase = .known) (hl : s.leaving κ = none) :
    ∃ e, s.spt κ = some e ∧ e.kpage = none := by
  have ha := (h.shape κ).agree
  have hl' : (s.view κ).leaving = none := hl
  simp only [View.Agree, hph, View.Rest, hl'] at ha
  obtain ⟨⟨b, e, k, he, hk, -, -, hf⟩ | ho, hne⟩ := ha
  · have he' : s.spt κ = some e := he
    have hmem : frameOf κ k (some κ) b ∈ s.frames κ := by
      rw [show s.frames κ = _ from hf]
      exact List.mem_singleton_self _
    have hany : (s.frameList.any fun f => f.kpage = k) = true := by
      rw [List.any_eq_true]
      exact ⟨_, (St.mem_frames.1 hmem).1, by simp [frameOf]⟩
    have hb : (s.spt κ).bind Entry.kpage = some k := by simp [he', hk]
    simp [pinResident, hb, hany] at hpin
  · obtain ⟨e, he⟩ := Option.ne_none_iff_exists'.1 hne
    exact ⟨e, he, ho.1 e he⟩

/-- The process pins its page `u`. -/
theorem Inv.pin_own {w : Option Bool} (h : Inv s) (hpin : pinResident s (t, u) = some s')
    (hph : (s.pc t).phase u = .known) (hl : s.leaving (t, u) = none) (hp : (s.pc t).Like p)
    (hev : p.evicts = false) (hphase : ∀ v, v ≠ u → p.phase v = (s.pc t).phase v)
    (hpu : p.phase u = .idle ∨ p.phase u = .pinned)
    (hw : w = s.checked (t, u) ∨ w = some false) :
    Inv ({ s' with checked := Function.update s.checked (t, u) w }.setPc t p) := by
  obtain ⟨e, k, he, hk, rfl⟩ := pinResident_some hpin
  have hg : Keeps fun f => { f with pinned := true } := ⟨fun _ => rfl, fun _ => rfl, fun _ => rfl⟩
  have hphase' : (s.view (t, u)).phase = .known := hph
  have hl' : (s.view (t, u)).leaving = none := hl
  obtain ⟨b, hf⟩ : ∃ b, s.frames (t, u) = [frameOf (t, u) k (some (t, u)) b] := by
    have ha := (h.shape (t, u)).agree
    simp only [View.Agree, hphase', View.Rest, hl'] at ha
    obtain ⟨⟨b, e', k', he', hk', -, -, hf⟩ | ho, -⟩ := ha
    · have hee : s.spt (t, u) = some e' := he'
      rw [he] at hee
      cases hee
      rw [hk] at hk'
      cases hk'
      exact ⟨b, hf⟩
    · rw [ho.1 e he] at hk
      cases hk
  have hplace : (s.view (t, u)).place = some k := by simp [View.place, St.view, hl, hf, frameOf]
  generalize hx : ({ s.setFrame k (fun f => { f with pinned := true }) with
    checked := Function.update s.checked (t, u) w }.setPc t p) = x
  have hA : Acts s x t u p := by
    subst hx
    exact {
      phase := hphase
      victim := hp.victim
      victim' := hp.victim'
      evicts := fun he => by rw [hev] at he; cases he
      hasDir := hp.hasDir
      serves := hp.serves
      clean := fun k' hk' => h.clean t k' (hp.cleared ▸ hk')
      checked := fun κ hκ => Function.update_of_ne hκ ..
      frames := fun κ hκ => St.frames_setFrame_of_ne h hg fun hκp => hκ (h.place_inj hκp hplace) }
  have hframes : x.frames (t, u) = (s.frames (t, u)).map fun f => { f with pinned := true } := by
    have : x.frames (t, u) = (s.setFrame k fun f => { f with pinned := true }).frames (t, u) := by
      subst hx
      rfl
    rw [this, St.frames_setFrame h hg, hf]
    simp [frameOf]
  have hview : x.view (t, u) = { s.view (t, u) with
      phase := p.phase u, checked := w
      frames := (s.frames (t, u)).map fun f => { f with pinned := true } } := by
    rw [hA.view, hframes]
    subst hx
    simp [St.view, St.setPc, St.setFrame]
  refine hA.keep h (by subst hx; rfl) (by subst hx; rfl) hp.flight hview ?_ (View.slot_congr ?_ ?_)
    (by subst hx; rfl) ?_ (by subst hx; exact h.bound (t, u)) (by subst hx; exact h.fresh (t, u)) ?_
  · rw [hplace]
    simp [View.place, hl', hf, frameOf]
  · rw [hphase']
    rfl
  · obtain hb | hb := hpu <;> rw [hb] <;> rfl
  · subst hx
    exact St.setFrame_nodup h hg
  · subst hx
    refine .pin _ _ _ hphase' ?_ hl' hpu hw
    have he' : (s.page (t, u)).entry = some e := he
    simp [he', hk]

end Pin

/-! ### Writes to files -/

section WriteFile

variable {f lo n : ℕ} {data : Bytes} {own : Option Key}

theorem Ghost.hit_facts (g : Ghost) (f lo n : ℕ) :
    (g.hit f lo n).flat = g.flat ∧ (g.hit f lo n).touched = g.touched ∧
      (g.hit f lo n).file = g.file ∧ (g.hit f lo n).ofs = g.ofs ∧
      (g.hit f lo n).readBytes = g.readBytes ∧
      ((g.hit f lo n).stale = false → g.stale = false) := by
  unfold Ghost.hit
  split
  · refine ⟨rfl, rfl, rfl, rfl, rfl, fun h => ?_⟩
    simp only [Bool.or_eq_false_iff] at h
    exact h.1
  · exact ⟨rfl, rfl, rfl, rfl, rfl, id⟩

/-- A page that stays fresh and that nothing was stored to is not hit. -/
theorem Ghost.not_hit {g : Ghost} (ht : g.touched = false) (hs : (g.hit f lo n).stale = false) :
    ¬ (g.file = f ∧ max lo g.ofs < min (lo + n) (g.ofs + g.readBytes)) := by
  intro hc
  simp [Ghost.hit, hc, ht] at hs

/-- The page's own process writes back what is in it, or somebody else's write passes it by. -/
theorem fileBytes_writeFile {g : Ghost} (hflat : g.flat = fileBytes s g.file g.ofs g.readBytes)
    (hcase : lo = g.ofs ∧ data = g.flat ∨
      ¬ (g.file = f ∧ max lo g.ofs < min (lo + n) (g.ofs + g.readBytes))) :
    g.flat = fileBytes (writeFile s f lo n data own) g.file g.ofs g.readBytes := by
  unfold writeFile
  split
  · exact hflat
  · rw [hflat]
    funext b
    simp only [fileBytes]
    split
    · next hb =>
      by_cases hf : g.file = f
      · subst hf
        simp only [Function.update_self]
        split
        · next hin =>
          obtain ⟨rfl, rfl⟩ | hno := hcase
          · rw [hflat]
            simp [fileBytes, hb]
          · exact absurd ⟨rfl, by omega⟩ hno
        · rfl
      · rw [Function.update_of_ne hf]
    · rfl

/-- A write to a file is a step of every page. -/
theorem Inv.writeFile (h : Inv s)
    (hown : ∀ κ, own = some κ → lo = (s.ghost κ).ofs ∧
      ((s.ghost κ).stale = false → data = (s.ghost κ).flat)) :
    Inv (writeFile s f lo n data own) := by
  by_cases hden : (s.files f).denied = true
  · rw [Vm.writeFile, if_pos hden]
    exact h
  generalize hs' : Vm.writeFile s f lo n data own = s'
  have heq := hs'
  rw [Vm.writeFile, if_neg hden] at heq
  have hview : ∀ κ, s'.view κ = s.view κ := fun κ => by subst heq; rfl
  have hghost : ∀ κ, s'.ghost κ = if own = some κ then s.ghost κ else (s.ghost κ).hit f lo n :=
    fun κ => by subst heq; rfl
  have hpage : ∀ κ, s'.page κ = { s.page κ with ghost := s'.ghost κ } := by
    intro κ
    simp only [St.page, hview]
    subst heq
    rfl
  refine h.of_steps (t := 0) ?_ ?_ ?_ ?_ ?_ ?_ ?_ ?_
  · subst heq
    exact ⟨rfl, rfl, fun _ _ => rfl, fun _ _ => id, h.evicts 0, h.victim 0, h.serves 0,
      fun _ _ => rfl, h.dir 0, fun _ _ _ _ => rfl, h.clean 0⟩
  · intro κ
    rw [hpage, hghost]
    split
    · exact .same _
    · obtain ⟨h1, h2, h3, h4, h5, h6⟩ := (s.ghost κ).hit_facts f lo n
      exact .hit _ _ h1 h2 h3 h4 h5 h6
  · refine h.pages.keep (by subst heq; rfl) fun x => ?_
    cases x with
    | inl κ => exact congrArg View.place (hview κ)
    | inr t => subst heq; rfl
  · exact h.slots.keep (by subst heq; rfl) fun κ => by rw [hview]
  · subst heq
    exact h.nodup
  · subst heq
    exact h.pool
  · subst heq
    exact h.bound
  · intro κ
    rw [hghost, ← hs']
    split
    · next ho =>
      intro ht hst
      exact fileBytes_writeFile (h.fresh κ ht hst) (.inl ⟨(hown κ ho).1, (hown κ ho).2 hst⟩)
    · intro ht hst
      obtain ⟨h1, h2, h3, h4, h5, h6⟩ := (s.ghost κ).hit_facts f lo n
      rw [h2] at ht
      rw [h1, h3, h4, h5]
      exact fileBytes_writeFile (h.fresh κ ht (h6 hst)) (.inr (Ghost.not_hit ht hst))

/-- `inode_deny_write` and `inode_allow_write`. -/
theorem Inv.deny (h : Inv s) (f : ℕ) (denied : Bool) :
    Inv { s with files := Function.update s.files f { s.files f with denied } } := by
  refine ⟨h.shape, h.content, h.pages, h.slots, h.nodup, h.evicts, h.victim, h.serves, h.bound,
    h.pool, h.dir, h.clean, fun κ ht hst => ?_⟩
  rw [h.fresh κ ht hst]
  funext b
  simp only [fileBytes]
  split
  · by_cases hf : (s.ghost κ).file = f
    · subst hf
      simp
    · rw [Function.update_of_ne hf]
  · rfl

end WriteFile

/-! ### `page_unmap` -/

section Unmap

variable {why : Why} {m : Mapping} {i : ℕ} {st st' : UnmapPc} {ok : Bool}

theorem St.phase_unmap (hp : s.pc t = .unmap why m i st) :
    (s.view (t, m.addr + i)).phase = st.phase := by
  simp [St.view, hp, Pc.phase]

/-- `page_unmap` changes the entry or the page table entry. -/
theorem Inv.unmap_edit {o : Option Entry} {q : Pte} {w : Option Bool} (h : Inv s)
    (hp : s.pc t = .unmap why m i st) (hl : s.leaving (t, m.addr + i) = none)
    (hf : s.frames (t, m.addr + i) = [frameOf (t, m.addr + i) k (some (t, m.addr + i)) true])
    (hfl : (Pc.unmap why m i st').flight = (Pc.unmap why m i st).flight)
    (ho : s.spt (t, m.addr + i) = none → o = none)
    (hq : q.present = true → (s.pte (t, m.addr + i)).present = true)
    (hslot : o.bind Entry.swapSlot = (s.spt (t, m.addr + i)).bind Entry.swapSlot)
    (hstep : PageStep (t, m.addr + i) (s.page (t, m.addr + i)) { s.page (t, m.addr + i) with
      phase := st'.phase, entry := o, pte := q, checked := w }) :
    Inv ((s.edit (t, m.addr + i) o q w).setPc t (.unmap why m i st')) := by
  have hphase : (Pc.unmap why m i st').phase (m.addr + i) = st'.phase := by simp [Pc.phase]
  refine h.edit_own ?_ ?_ (by rintro ⟨⟩) ho hq ?_ ?_ ?_
  · intro v hv
    rw [hp, Pc.phase_unmap_of_ne hv, Pc.phase_unmap_of_ne hv]
  · rw [hp]
    exact ⟨rfl, rfl, hfl, rfl, rfl, trivial⟩
  · simp [View.place, St.view, hl, hf]
  · have hfr : ∀ x : UnmapPc, x.phase.freed = false := by intro x; cases x <;> rfl
    have hphase' := St.phase_unmap hp
    simp only [View.slot, hphase, hfr, hphase', hslot]
    rfl
  · rw [hphase]
    exact hstep

/-- `page_unmap` goes on with the same page, and looks at something only. -/
theorem Inv.unmap_stay (h : Inv s) (hp : s.pc t = .unmap why m i st) (hph : st'.phase = st.phase)
    (hfl : (Pc.unmap why m i st').flight = (Pc.unmap why m i st).flight) :
    Inv (s.setPc t (.unmap why m i st')) := by
  refine h.stay ?_ ?_ nofun
  · intro v
    rw [hp]
    simp only [Pc.phase, hph]
  · rw [hp]
    exact ⟨rfl, rfl, hfl, rfl, rfl, trivial⟩

/-- What is known of a page that `page_unmap` has pinned. -/
theorem Inv.unmap_pinned (h : Inv s) (hp : s.pc t = .unmap why m i st) (hst : st.phase = .pinned) :
    s.leaving (t, m.addr + i) = none ∧ ∃ e k, s.spt (t, m.addr + i) = some e ∧ e.kpage = some k ∧
      e.swapSlot = none ∧
      s.frames (t, m.addr + i) = [frameOf (t, m.addr + i) k (some (t, m.addr + i)) true] := by
  have ha := (h.shape (t, m.addr + i)).agree
  simp only [View.Agree, St.phase_unmap hp, hst] at ha
  obtain ⟨hl, e, k, he, hk, hslot, -, hf⟩ := ha
  exact ⟨hl, e, k, he, hk, hslot, hf⟩

theorem Inv.unmap_pin (h : Inv s) (hp : s.pc t = .unmap why m i .pin)
    (hl : s.lock .frame = some t) : Inv (unmap s t why m i ok .pin) := by
  have hnl := St.leaving_of_lock hl (show (s.pc t).victim = none by rw [hp]; rfl) (t, m.addr + i)
  have hph : (s.pc t).phase (m.addr + i) = .known := St.phase_unmap hp
  simp only [Vm.unmap]
  split
  · next s' hpin =>
    have hs' : s' = { s' with
        checked := Function.update s.checked (t, m.addr + i) (s.checked (t, m.addr + i)) } := by
      obtain ⟨e, k, -, -, rfl⟩ := pinResident_some hpin
      simp [St.setFrame]
    rw [hs']
    refine h.pin_own hpin hph hnl ?_ rfl ?_ (.inr (by simp [Pc.phase, UnmapPc.phase])) (.inl rfl)
    · rw [hp]
      exact ⟨rfl, rfl, rfl, rfl, rfl, trivial⟩
    · intro v hv
      rw [hp, Pc.phase_unmap_of_ne hv, Pc.phase_unmap_of_ne hv]
  · next hpin =>
    obtain ⟨e, he, hk⟩ := h.pinResident_none hpin hph hnl
    have hpu : (Pc.alloc (.unmap why m i) (m.addr + i)).phase (m.addr + i) = .wait .alone := by
      simp [Pc.phase, Caller.wait]
    refine h.turn (m.addr + i) ?_ ?_ (by rintro ⟨⟩) ?_ ?_ ?_ ?_ ?_
    · intro v hv
      rw [hp, Pc.phase_unmap_of_ne hv]
      simp [Pc.phase, Ne.symm hv]
    · rw [hp]
      exact ⟨rfl, rfl, rfl, rfl, rfl, rfl⟩
    · simp [hph]
    · simp [hpu]
    · simp [hph, Phase.live]
    · simp [hpu]
    · rw [hpu]
      exact (h.shape _).to_wait (.inr hph) he hk (fun _ => hnl) (by simp)

theorem Inv.unmap_write (h : Inv s) (hp : s.pc t = .unmap why m i .write) :
    Inv (unmap s t why m i ok .write) := by
  obtain ⟨hl, e, k, he, hk, -, hf⟩ := h.unmap_pinned hp rfl
  have hfresh : (s.page (t, m.addr + i)).Fresh := by
    have hr := (h.content (t, m.addr + i)).rest e he (by
      rw [show (s.page (t, m.addr + i)).phase = _ from St.phase_unmap hp]
      rfl)
    have hl' : (s.page (t, m.addr + i)).leaving = none := hl
    simp only [Page.RestBytes, hl', hk] at hr
    exact hr.1
  have hdata : (s.page (t, m.addr + i)).data = s.mem k := by
    simp [St.page, View.place, St.view, hl, hf, frameOf]
  simp only [Vm.unmap, he, hk]
  generalize (if (needsBounce e.ofs e.readBytes && !ok) = true then
    e.readBytes / sectorSize * sectorSize else e.readBytes) = n
  have hw : Inv (Vm.writeFile s m.file e.ofs n (s.mem k) (some (t, m.addr + i))) := by
    refine h.writeFile ?_
    rintro κ ⟨⟩
    refine ⟨((h.content (t, m.addr + i)).origin e he).2.1, fun hst => ?_⟩
    rw [← hdata]
    exact hfresh hst
  have hp' : (Vm.writeFile s m.file e.ofs n (s.mem k) (some (t, m.addr + i))).pc t =
      .unmap why m i .write := by
    rw [writeFile_pc, hp]
  exact hw.unmap_stay hp' rfl rfl

theorem Inv.unmap_clearPte (h : Inv s) (hp : s.pc t = .unmap why m i .clearPte) :
    Inv (unmap s t why m i ok .clearPte) := by
  obtain ⟨hl, e, k, he, hk, -, hf⟩ := h.unmap_pinned hp rfl
  have hb : (s.spt (t, m.addr + i)).bind Entry.kpage = some k := by simp [he, hk]
  simp only [Vm.unmap, hb]
  have heq : ({ s with checked := Function.update s.checked (t, m.addr + i) none } : St).setPte
      (t, m.addr + i) (fun p => { p with present := false }) =
      s.edit (t, m.addr + i) (some e) { s.pte (t, m.addr + i) with present := false } none := by
    simp [St.setPte, St.edit, ← he]
  rw [heq]
  refine h.unmap_edit hp hl hf rfl ?_ (by simp) (by rw [he]) ?_
  · intro hn
    rw [hn] at he
    cases he
  · have hstep := PageStep.clearPte (κ := (t, m.addr + i)) (s.page (t, m.addr + i)) k e
      (St.phase_unmap hp) he hk
    have he' : (s.page (t, m.addr + i)).entry = some e := he
    rw [← he']
    exact hstep

theorem Inv.unmap_clearKpage (h : Inv s) (hp : s.pc t = .unmap why m i (.clearKpage k)) :
    Inv (unmap s t why m i ok (.clearKpage k)) := by
  have ha := (h.shape (t, m.addr + i)).agree
  simp only [View.Agree, St.phase_unmap hp, UnmapPc.phase] at ha
  obtain ⟨hl, hf, -, e, he, -, -⟩ := ha
  have he' : s.spt (t, m.addr + i) = some e := he
  rw [Vm.unmap, St.setEntry_eq, he']
  refine h.unmap_edit hp hl hf rfl ?_ id (by rw [he']; rfl)
    (.clearKpage _ k e (St.phase_unmap hp) he)
  intro hn
  rw [hn] at he'
  cases he'

theorem Inv.unmap_frameFree (h : Inv s) (hp : s.pc t = .unmap why m i (.frameFree k)) :
    Inv (unmap s t why m i ok (.frameFree k)) := by
  have ha := (h.shape (t, m.addr + i)).agree
  simp only [View.Agree, St.phase_unmap hp, UnmapPc.phase] at ha
  obtain ⟨hl, hf, hpr, -⟩ := ha
  refine h.frame_out (.dying none) hf hl hpr ?_ (by simp [Pc.phase, UnmapPc.phase])
    (by rw [hp]; rfl) rfl rfl (by rw [hp]; rfl) trivial (by rw [hp]; rfl) rfl rfl ?_ rfl
    (.frameFree _ k (St.phase_unmap hp))
  · intro v hv
    rw [hp, Pc.phase_unmap_of_ne hv, Pc.phase_unmap_of_ne hv]
  · simp [hp, Pc.phase, UnmapPc.phase, Phase.freed]

theorem Inv.unmap_freePage (h : Inv s) (hp : s.pc t = .unmap why m i (.freePage k)) :
    Inv (unmap s t why m i ok (.freePage k)) := by
  have hpu : (Pc.unmap why m i .delete).phase (m.addr + i) = .dying none := by
    simp [Pc.phase, UnmapPc.phase]
  have hpu' : (s.pc t).phase (m.addr + i) = .dying none := St.phase_unmap hp
  refine h.giveUp (u := m.addr + i) (by rw [hp]; rfl) ?_ (by rw [hp]; rfl) rfl rfl rfl
    (by rw [hp]; rfl) trivial (by simp [hpu']) (by simp [hpu]) (by simp [hpu, Phase.live])
    (by simp [hpu]) ?_
  · intro v hv
    rw [hp, Pc.phase_unmap_of_ne hv, Pc.phase_unmap_of_ne hv]
  · rw [hpu, ← hpu']
    exact h.shape _

/-- The process deletes the entry of its page `u`, and frees its slot. -/
theorem Inv.drop_entry {used : ℕ → Bool} (h : Inv s) (he : s.spt (t, u) = some e)
    (hl : s.leaving (t, u) = none) (hused : used = match e.swapSlot with
      | none => s.swapUsed
      | some slot => Function.update s.swapUsed slot false)
    (hphase : ∀ v, v ≠ u → p.phase v = (s.pc t).phase v) (hp : (s.pc t).Like p)
    (hev : p.evicts = false) (hfr : ((s.pc t).phase u).freed = false)
    (hstep : PageStep (t, u) (s.page (t, u))
      { s.page (t, u) with phase := p.phase u, entry := none, saved := blank }) :
    Inv ({ s with spt := Function.update s.spt (t, u) none, swapUsed := used }.setPc t p) := by
  generalize hs' : ({ s with
    spt := Function.update s.spt (t, u) none, swapUsed := used }.setPc t p) = s'
  have hA : Acts s s' t u p := by
    subst hs'
    exact {
      phase := hphase
      victim := hp.victim
      victim' := hp.victim'
      evicts := fun he => by rw [hev] at he; cases he
      hasDir := hp.hasDir
      serves := hp.serves
      clean := fun k' hk' => h.clean t k' (hp.cleared ▸ hk')
      spt := fun κ hκ => Function.update_of_ne hκ .. }
  have hview : s'.view (t, u) = { s.view (t, u) with phase := p.phase u, entry := none } := by
    rw [hA.view]
    subst hs'
    simp [St.view, St.setPc, St.frames]
  have hplace : (s'.view (t, u)).place = (s.view (t, u)).place := by
    rw [hview]
    rfl
  have hslot' : (s'.view (t, u)).slot = none := by
    rw [hview]
    simp [View.slot, St.view, hl]
  have hslot : (s.view (t, u)).slot = e.swapSlot := by
    simp [View.slot, St.view, hl, hfr, he]
  have hL := hA.local_
  have hslots : Holders s'.swapUsed fun κ => (s'.view κ).slot := by
    have hu : s'.swapUsed = used := by subst hs'; rfl
    rw [hused] at hu
    cases hsl : e.swapSlot with
    | none =>
      rw [hsl] at hu
      exact hL.slots_keep h hu (by rw [hslot', hslot, hsl])
    | some slot =>
      rw [hsl] at hu
      exact hL.slots_give h hu (by rw [hslot, hsl]) hslot'
  refine hA.inv h ?_ (hL.pages_keep h (by subst hs'; rfl) hplace (by rw [hA.self, hp.flight]))
    hslots (by subst hs'; exact h.nodup) (by subst hs'; exact h.pool) ?_
    (by subst hs'; exact h.fresh (t, u))
  · have hpage : s'.page (t, u) =
        { s.page (t, u) with phase := p.phase u, entry := none, saved := blank } := by
      simp only [St.page, hplace, hslot']
      rw [hview]
      subst hs'
      rfl
    rw [hpage]
    exact hstep
  · subst hs'
    exact fun hb => ⟨by simp [St.setPc], (h.bound (t, u) hb).2⟩

/-- What is known of a page that `page_unmap` is about to delete. -/
theorem Inv.unmap_dying {slot : Option ℕ} (h : Inv s) (hp : s.pc t = .unmap why m i st)
    (hst : st.phase = .dying slot) : s.leaving (t, m.addr + i) = none ∧
      ∃ e, s.spt (t, m.addr + i) = some e ∧ (slot ≠ none → e.swapSlot = slot) := by
  have ha := (h.shape (t, m.addr + i)).agree
  simp only [View.Agree, St.phase_unmap hp, hst] at ha
  obtain ⟨hl, -, -, e, he, -, hs⟩ := ha
  exact ⟨hl, e, he, hs⟩

theorem Inv.unmap_drop {slot : Option ℕ} {used : ℕ → Bool} (h : Inv s)
    (hp : s.pc t = .unmap why m i st) (hst : st.phase = .dying slot)
    (hfl : (Pc.unmap why m i st).flight = none) (he : s.spt (t, m.addr + i) = some e)
    (hused : used = match e.swapSlot with
      | none => s.swapUsed
      | some slot => Function.update s.swapUsed slot false) :
    Inv ({ s with spt := Function.update s.spt (t, m.addr + i) none, swapUsed := used }.setPc t
      (.unmap why m (i + 1) .find)) := by
  have hph : (s.pc t).phase (m.addr + i) = .dying slot := by
    rw [← hst]
    exact St.phase_unmap hp
  obtain ⟨hl, -⟩ := h.unmap_dying hp hst
  refine h.drop_entry he hl hused ?_ ?_ rfl ?_ ?_
  · intro v hv
    rw [hp, Pc.phase_unmap_of_ne hv, Pc.phase_find]
  · rw [hp]
    exact ⟨rfl, rfl, hfl.symm, rfl, rfl, trivial⟩
  · rw [hph]
    rfl
  · rw [Pc.phase_find]
    exact .delete _ slot hph

theorem Inv.unmap_delete (h : Inv s) (hp : s.pc t = .unmap why m i .delete) :
    Inv (unmap s t why m i ok .delete) := by
  obtain ⟨hl, e, he, -⟩ := h.unmap_dying hp rfl
  simp only [Vm.unmap, he, Option.bind_some]
  split
  · next hs => exact h.unmap_drop hp rfl rfl he (by rw [hs])
  · next slot hs =>
    have hpu : (Pc.unmap why m i (.swapFree slot)).phase (m.addr + i) = .dying (some slot) := by
      simp [Pc.phase, UnmapPc.phase]
    have hph : (s.pc t).phase (m.addr + i) = .dying none := St.phase_unmap hp
    refine h.turn (m.addr + i) ?_ ?_ (by rintro ⟨⟩) (by simp [hph]) (by simp [hpu])
      (by simp [hpu, Phase.live]) (by simp [hpu]) ?_
    · intro v hv
      rw [hp, Pc.phase_unmap_of_ne hv, Pc.phase_unmap_of_ne hv]
    · rw [hp]
      exact ⟨rfl, rfl, rfl, rfl, rfl, trivial⟩
    · rw [hpu]
      exact (h.shape _).dying_slot hph he hs

/-- The slot of a page is in use, so that `swap_free` does not fail. -/
theorem Inv.swapFree_eq {slot : ℕ} {f : Key → Option Entry} (h : Inv s)
    (hs : (s.view κ).slot = some slot) : ({ s with spt := f } : St).swapFree slot =
      { s with spt := f, swapUsed := Function.update s.swapUsed slot false } := by
  have hu : s.swapUsed slot = true := h.slots.used_of_held hs
  simp only [St.swapFree, hu, if_true]

theorem Inv.unmap_swapFree {slot : ℕ} (h : Inv s) (hp : s.pc t = .unmap why m i (.swapFree slot)) :
    Inv (unmap s t why m i ok (.swapFree slot)) := by
  obtain ⟨hl, e, he, hs⟩ := h.unmap_dying hp rfl
  have hes : e.swapSlot = some slot := hs (by simp)
  have hph : (s.pc t).phase (m.addr + i) = .dying (some slot) := St.phase_unmap hp
  have hslot : (s.view (t, m.addr + i)).slot = some slot := by
    simp [View.slot, St.view, hl, hph, he, hes, Phase.freed]
  rw [Vm.unmap, h.swapFree_eq hslot]
  exact h.unmap_drop hp rfl rfl he (by rw [hes])

theorem Inv.unmap_find (h : Inv s) (hp : s.pc t = .unmap why m i .find) :
    Inv (unmap s t why m i ok .find) := by
  simp only [Vm.unmap]
  have hlike : ∀ {j st'}, (Pc.unmap why m j st').flight = none →
      (s.pc t).Like (.unmap why m j st') := by
    intro j st' hf
    rw [hp]
    exact ⟨rfl, rfl, hf, rfl, rfl, trivial⟩
  split
  · split
    · refine h.stay ?_ (hlike rfl) (by rintro ⟨⟩)
      intro v
      rw [hp, Pc.phase_find, Pc.phase_find]
    · next e he =>
      have hpu : (Pc.unmap why m i .pin).phase (m.addr + i) = .known := by
        simp [Pc.phase, UnmapPc.phase]
      have hph : (s.pc t).phase (m.addr + i) = .idle := by rw [hp, Pc.phase_find]
      refine h.turn (m.addr + i) ?_ (hlike rfl) (by rintro ⟨⟩) (by simp [hph]) (by simp [hpu])
        (by simp [hph, Phase.live]) (by simp [hpu]) ?_
      · intro v hv
        rw [hp, Pc.phase_find, Pc.phase_unmap_of_ne hv]
      · rw [hpu]
        refine (h.shape _).to_known hph ?_
        simp [St.view, he]
  · exact h.unmap_stay hp rfl rfl

theorem Inv.unmap_close (h : Inv s) (hp : s.pc t = .unmap why m i .close) :
    Inv (unmap s t why m i ok .close) := by
  refine (h.aux _ s.nextMapid s.call s.hand).stay ?_ ?_ ?_
  · intro v
    rw [hp]
    have : (Pc.unmap why m i .close).phase v = .idle := by simp [Pc.phase, UnmapPc.phase]
    rw [this]
    split <;> rfl
  · rw [hp]
    split <;> exact ⟨rfl, rfl, rfl, rfl, rfl, trivial⟩
  · split <;> rintro ⟨⟩

/-- **A statement of `page_unmap`** keeps the invariant. -/
theorem Inv.unmap (h : Inv s) (hp : s.pc t = .unmap why m i st)
    (hl : st = .pin → s.lock .frame = some t) : Inv (unmap s t why m i ok st) := by
  cases st with
  | find => exact h.unmap_find hp
  | pin => exact h.unmap_pin hp (hl rfl)
  | test =>
    simp only [Vm.unmap]
    split
    · exact h.unmap_stay hp rfl rfl
    · exact h.unmap_stay hp rfl rfl
  | write => exact h.unmap_write hp
  | clearPte => exact h.unmap_clearPte hp
  | clearKpage k => exact h.unmap_clearKpage hp
  | frameFree k => exact h.unmap_frameFree hp
  | freePage k => exact h.unmap_freePage hp
  | delete => exact h.unmap_delete hp
  | swapFree slot => exact h.unmap_swapFree hp
  | close => exact h.unmap_close hp

end Unmap

end Vm
end Pintos

import Pintos.Vm.Reachable

/-!
# The paging tables agree, and nothing leaks

Between the operations on pages the five tables (the supplemental page tables, `Frame_list`, the page
directories, `Swap_bitmap` and the user pool) say the same (`Coherent`). `coherent_of_reachable` derives
this from the invariant, which says what they say within the operations, too.

`setup_stack` takes a frame without `handle_mm_fault`, and the pool and `Frame_list` differ meanwhile
(`not_coherent_setupStack`).
-/

namespace Pintos
namespace Vm

variable {s s' : St} {t u k : ℕ} {κ : Key} {e : Entry} {p : Pc}

/-- The process is in `handle_mm_fault`, `page_unmap` or `process_exit`. -/
def Pc.busy : Pc → Bool
  | .unmap _ _ _ _ | .threadExit | .exitFiles | .exitExec | .exitUnmap | .exitFrames | .exitEntries
  | .exitSlot _ _ | .exitDir | .exitPages => true
  | p => p.caller.any fun c => c ≠ .setupStack

/-- The process is in `setup_stack`. -/
def Pc.settingUp (p : Pc) : Bool := p.caller = some .setupStack

/-- The tables agree. -/
structure Coherent (s : St) : Prop where
  -- (1) An entry says that it is resident if and only if its one frame and its page directory do.
  resident : ∀ κ e k, s.spt κ = some e →
    (e.kpage = some k ↔ ∃ f, s.frameList.filter (fun f => f.kpage = k) = [f] ∧
      f.page = some κ ∧ f.owner = κ.1 ∧ f.upage = κ.2 ∧ s.pagedir κ.1 = true ∧
      (s.pte κ).present = true ∧ (s.pte κ).kpage = k ∧ (s.pte κ).writable = e.writable)
  -- (2) A page is in one place.
  exclusive : ∀ κ e, s.spt κ = some e → e.kpage = none ∨ e.swapSlot = none
  -- (3) No two pages share a frame or a slot, and the slots in use are those of the pages.
  kpage_inj : ∀ κ κ' e e' k, s.spt κ = some e → s.spt κ' = some e' → e.kpage = some k →
    e'.kpage = some k → κ = κ'
  slot_inj : ∀ κ κ' e e' slot, s.spt κ = some e → s.spt κ' = some e' → e.swapSlot = some slot →
    e'.swapSlot = some slot → κ = κ'
  slots : ∀ slot, s.swapUsed slot = true ↔ ∃ κ e, s.spt κ = some e ∧ e.swapSlot = some slot
  -- (4) The pages in use are those of the frames.
  used : ∀ k, s.used k = true ↔ ∃ f ∈ s.frameList, f.kpage = k
  -- (5) Nothing is left of a process that has exited.
  exited : ∀ t, s.pc t = .absent → (∀ f ∈ s.frameList, f.owner ≠ t) ∧
    ∀ u, s.spt (t, u) = none ∧ (s.pte (t, u)).present = false
  owner : ∀ f ∈ s.frameList, s.pagedir f.owner = true

/-- Nobody is at work on a page: what `process_exit` and `setup_stack` are at is finished, too. -/
structure St.Quiescent (s : St) : Prop where
  lock : s.lock .frame = none
  idle : ∀ t, (s.pc t).busy = false
  stack : ∀ t, (s.pc t).settingUp = false

/-! ### A page that nobody is at work on -/

/-- Where the process can be then. -/
theorem Pc.phase_of_calm (hb : p.busy = false) (hs : p.settingUp = false) (u : ℕ) :
    (p.hasDir = false ∧ p.phase u = .dead) ∨
      (p.hasDir = true ∧ (p.phase u = .idle ∨ p.phase u = .known)) := by
  cases p with
  | pin v =>
    refine .inr ⟨rfl, ?_⟩
    simp only [Pc.phase]
    split
    · exact .inr rfl
    · exact .inl rfl
  | _ => simp_all [Pc.busy, Pc.settingUp, Pc.caller, Pc.hasDir, Pc.phase]

theorem Pc.flight_of_calm (hb : p.busy = false) (hs : p.settingUp = false) : p.flight = none := by
  cases p <;> simp_all [Pc.busy, Pc.settingUp, Pc.caller, Pc.flight]

/-- A frame is the only one of its number. -/
theorem filter_kpage {l : List Frame} {f : Frame} (hn : (l.map Frame.kpage).Nodup) (hf : f ∈ l) :
    l.filter (fun g => g.kpage = f.kpage) = [f] := by
  induction l with
  | nil => cases hf
  | cons a l ih =>
    by_cases ha : a = f
    · subst ha
      have hnil : l.filter (fun g => g.kpage = a.kpage) = [] := by
        rw [List.filter_eq_nil_iff]
        intro g hg
        simpa using ne_of_mem_tail hn hg
      simp [hnil]
    · have hf' : f ∈ l := (List.mem_cons.1 hf).resolve_left (Ne.symm ha)
      have hne : a.kpage ≠ f.kpage := (ne_of_mem_tail hn hf').symm
      simp [hne, ih (List.nodup_cons.1 hn).2 hf']

namespace St.Quiescent

variable (hq : s.Quiescent)
include hq

theorem leaving (κ : Key) : s.leaving κ = none := by
  simp [St.leaving, St.evicting, hq.lock]

/-- The page is resident, or it is nowhere in memory. -/
theorem rest (h : Inv s) (κ : Key) :
    (s.pagedir κ.1 = true ∧ ∃ b, (s.view κ).In κ b) ∨
      (s.view κ).Out ∧ (s.pagedir κ.1 = false → s.spt κ = none) := by
  have hl : (s.view κ).leaving = none := hq.leaving κ
  have ha := (h.shape κ).agree
  have hdir := h.dir κ.1
  obtain ⟨hd, hp⟩ | ⟨hd, hp⟩ := Pc.phase_of_calm (hq.idle κ.1) (hq.stack κ.1) κ.2
  · have hp' : (s.view κ).phase = .dead := hp
    simp only [View.Agree, hp'] at ha
    exact .inr ⟨⟨by simp [ha.2.1], ha.2.2⟩, fun _ => ha.2.1⟩
  · have hr : (s.view κ).Rest κ := by
      obtain hp' | hp' : (s.view κ).phase = .idle ∨ (s.view κ).phase = .known := hp
      · simpa only [View.Agree, hp'] using ha
      · simp only [View.Agree, hp'] at ha
        exact ha.1
    simp only [View.Rest, hl] at hr
    refine hr.imp (fun hin => ⟨by rw [hdir, hd], hin⟩) fun ho => ⟨ho, ?_⟩
    rw [hdir, hd]
    simp

/-- The slot of a page is the one in its entry. -/
theorem slot (κ : Key) : (s.view κ).slot = (s.spt κ).bind Entry.swapSlot := by
  have hf : (s.view κ).phase.freed = false := by
    obtain ⟨-, hp⟩ | ⟨-, hp | hp⟩ := Pc.phase_of_calm (hq.idle κ.1) (hq.stack κ.1) κ.2 <;>
      simp [St.view, hp, Phase.freed]
  have hl : (s.view κ).leaving = none := hq.leaving κ
  simp only [View.slot, hl, hf, Option.bind_none, Option.none_or]
  rfl

/-- An entry with a frame is resident there. -/
theorem resident (h : Inv s) (he : s.spt κ = some e) (hk : e.kpage = some k) :
    s.pagedir κ.1 = true ∧ e.swapSlot = none ∧ (s.view κ).Mapped k e ∧
      ∃ b, s.frames κ = [frameOf κ k (some κ) b] := by
  obtain ⟨hd, b, e', k', he', hk', hslot, hm, hf⟩ | ⟨ho, -⟩ := hq.rest h κ
  · have heq : e = e' := Option.some.inj (he.symm.trans he')
    subst heq
    obtain rfl : k = k' := Option.some.inj (hk.symm.trans hk')
    exact ⟨hd, hslot, hm, b, hf⟩
  · rw [ho.1 e he] at hk
    cases hk

/-- A frame is that of a resident page. -/
theorem of_frame (h : Inv s) {f : Frame} (hf : f ∈ s.frameList) :
    s.pagedir f.owner = true ∧
      ∃ e, s.spt (f.owner, f.upage) = some e ∧ e.kpage = some f.kpage := by
  have hmem : f ∈ s.frames (f.owner, f.upage) := St.mem_frames.2 ⟨hf, rfl⟩
  obtain ⟨hd, b, e, k, he, hk, -, -, hfr⟩ | ⟨ho, -⟩ := hq.rest h (f.owner, f.upage)
  · have hfe : f = frameOf (f.owner, f.upage) k (some (f.owner, f.upage)) b := by
      have hfr' : s.frames (f.owner, f.upage) = _ := hfr
      rwa [hfr', List.mem_singleton] at hmem
    refine ⟨hd, e, he, ?_⟩
    rw [hk, hfe]
    rfl
  · have hnil : s.frames (f.owner, f.upage) = [] := ho.2.2
    rw [hnil] at hmem
    cases hmem

end St.Quiescent

/-! ### The tables agree -/

/-- The frame that an entry names. -/
theorem St.frame_of_frames {b : Bool} (h : Inv s) (hf : s.frames κ = [frameOf κ k (some κ) b]) :
    frameOf κ k (some κ) b ∈ s.frameList ∧
      s.frameList.filter (fun f => f.kpage = k) = [frameOf κ k (some κ) b] := by
  have hmem : frameOf κ k (some κ) b ∈ s.frames κ := by simp [hf]
  exact ⟨(St.mem_frames.1 hmem).1, filter_kpage h.nodup (St.mem_frames.1 hmem).1⟩

theorem Inv.coherent (h : Inv s) (hq : s.Quiescent) : Coherent s where
  resident κ e k he := by
    constructor
    · intro hk
      obtain ⟨hd, -, ⟨hp, hpk, hw⟩, b, hf⟩ := hq.resident h he hk
      exact ⟨_, (St.frame_of_frames h hf).2, rfl, rfl, rfl, hd, hp, hpk, hw⟩
    · rintro ⟨f, hf, -, howner, hupage, -⟩
      have hmem : f ∈ s.frameList.filter fun g => g.kpage = k := by simp [hf]
      obtain ⟨hfl, hfk⟩ := List.mem_filter.1 hmem
      obtain ⟨-, e', he', hk'⟩ := hq.of_frame h hfl
      rw [howner, hupage, he] at he'
      cases he'
      rw [hk', of_decide_eq_true hfk]
  exclusive κ e he := by
    cases hk : e.kpage with
    | none => exact .inl rfl
    | some k => exact .inr (hq.resident h he hk).2.1
  kpage_inj κ κ' e e' k he he' hk hk' := by
    have place : ∀ {κ e}, s.spt κ = some e → e.kpage = some k → (s.view κ).place = some k := by
      intro κ e he hk
      obtain ⟨-, -, -, b, hf⟩ := hq.resident h he hk
      exact (h.frame (St.frame_of_frames h hf).1).2.1
    exact h.place_inj (place he hk) (place he' hk')
  slot_inj κ κ' e e' slot he he' hslot hslot' := by
    refine h.slot_inj (k := slot) ?_ ?_ <;> rw [hq.slot] <;> simp_all
  slots slot := by
    rw [h.slots.used_iff]
    simp only [hq.slot, Option.bind_eq_some_iff]
  used k := by
    rw [h.pages.used_iff]
    constructor
    · rintro ⟨κ | t, hp⟩
      · have hp' : (s.view κ).place = some k := hp
        have hl : (s.view κ).leaving = none := hq.leaving κ
        obtain ⟨-, b, e, k', he, hk, -, -, hf⟩ | ⟨ho, -⟩ := hq.rest h κ
        · have hf' : s.frames κ = _ := hf
          refine ⟨_, (St.frame_of_frames h hf').1, ?_⟩
          simpa [View.place, hl, hf, frameOf] using hp'
        · simp [View.place, hl, ho.2.1, ho.2.2] at hp'
      · have hp' : (s.pc t).flight = some k := hp
        rw [Pc.flight_of_calm (hq.idle t) (hq.stack t)] at hp'
        cases hp'
    · rintro ⟨f, hf, rfl⟩
      exact ⟨.inl (f.owner, f.upage), (h.frame hf).2.1⟩
  exited t ht := by
    have hd : s.pagedir t = false := by rw [h.dir t, ht]; rfl
    refine ⟨fun f hf he => ?_, fun u => ?_⟩
    · have := (hq.of_frame h hf).1
      rw [he, hd] at this
      cases this
    · obtain ⟨hd', -⟩ | ⟨ho, hn⟩ := hq.rest h (t, u)
      · rw [show s.pagedir t = true from hd'] at hd
        cases hd
      · exact ⟨hn hd, ho.2.1⟩
  owner f hf := (hq.of_frame h hf).1

/-- **The tables agree, and nothing leaks**, whenever nobody is at work on a page. -/
theorem coherent_of_reachable (h : sys.Reachable s) (hq : s.Quiescent) : Coherent s :=
  (good_of_reachable h).inv.coherent hq

/-! ### In the middle of `setup_stack` -/

/-- A run in which only one process acts leaves the others where they are. -/
theorem pc_of_run {acts : List Act} (hr : sys.run s acts = some s')
    (ha : ∀ a ∈ acts, a.actor = some t) : ∀ t', t' ≠ t → s'.pc t' = s.pc t' := by
  induction acts generalizing s with
  | nil =>
    cases hr
    exact fun _ _ => rfl
  | cons a acts ih =>
    rw [System.run, System.runWith, if_pos rfl] at hr
    obtain ⟨x, hx, hr'⟩ := Option.bind_eq_some_iff.1 hr
    intro t' ht
    rw [ih hr' (fun b hb => ha b (List.mem_cons_of_mem a hb)) t' ht]
    exact (aside_step hx (.inl (ha a List.mem_cons_self))).pc t' ht

/-- `start_process`, up to the middle of `setup_stack`. -/
def startActs : List Act := [.spawn 0, .go 0 true, .setupStack 0, .go 0 true]

/-- The rest of `setup_stack` and of `load`. -/
def loadActs : List Act := List.replicate 9 (.go 0 true)

/-- The first process has its stack. -/
theorem coherent_of_reachable_load :
    ∃ s, sys.Reachable s ∧ s.Quiescent ∧ s.pc 0 = .run ∧ s.frameList ≠ [] ∧ Coherent s := by
  obtain ⟨s, hr, hp, hl, hf⟩ := System.exists_of_runWith
    (fun s => s.pc 0 = .run ∧ s.lock .frame = none ∧ s.frameList ≠ [])
    (show (sys.run (zeroed 4 2 0) (startActs ++ loadActs)).any _ = true by decide +kernel)
  have hreach : sys.Reachable s := System.reachable_of_run (zeroed_init ..) hr
  have hother : ∀ t, t ≠ 0 → s.pc t = .absent :=
    pc_of_run hr (by decide : ∀ a ∈ startActs ++ loadActs, a.actor = some 0)
  have hpc : ∀ t, (s.pc t).busy = false ∧ (s.pc t).settingUp = false := by
    intro t
    by_cases ht : t = 0
    · rw [ht, hp]
      decide
    · rw [hother t ht]
      decide
  have hq : s.Quiescent := ⟨hl, fun t => (hpc t).1, fun t => (hpc t).2⟩
  exact ⟨s, hreach, hq, hp, hf, coherent_of_reachable hreach hq⟩

/-- In the middle of `setup_stack` a page of the pool is in use that is not in `Frame_list`, although
nobody holds `Frame_lock` or is in `handle_mm_fault`, `page_unmap` or `process_exit`. -/
theorem not_coherent_setupStack :
    ∃ s, sys.Reachable s ∧ s.lock .frame = none ∧ (∀ t, (s.pc t).busy = false) ∧ ¬ Coherent s := by
  obtain ⟨s, hr, hp, hl, hu, hf⟩ := System.exists_of_runWith
    (fun s => s.pc 0 = .makeFrame .setupStack 3 0 ∧ s.lock .frame = none ∧ s.used 0 = true ∧
      s.frameList = [])
    (show (sys.run (zeroed 4 2 0) startActs).any _ = true by decide +kernel)
  have hother : ∀ t, t ≠ 0 → s.pc t = .absent :=
    pc_of_run hr (by decide : ∀ a ∈ startActs, a.actor = some 0)
  refine ⟨s, System.reachable_of_run (zeroed_init ..) hr, hl, fun t => ?_, fun hc => ?_⟩
  · by_cases ht : t = 0
    · rw [ht, hp]
      decide
    · rw [hother t ht]
      decide
  · obtain ⟨f, hmem, -⟩ := (hc.used 0).1 hu
    rw [hf] at hmem
    cases hmem

end Vm
end Pintos

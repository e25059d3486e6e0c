import Pintos.Vm.Mappings
import Pintos.Vm.Unmap

/-!
# The invariant holds in every run

What is left of the actions: the start and the end of a process, accesses to memory, and the system
calls. `good_of_reachable` then collects what `Pintos.Vm.Page` and `Pintos.Vm.Mappings` say of one step.
-/

namespace Pintos
namespace Vm

variable {s s' : St} {t u k : ℕ} {κ : Key} {c : Caller} {e : Entry} {p : Pc}

/-! ### Actions on all pages of a process -/

section Whole

/-- `t` does something to the tables of its pages and goes on at `p`. No frame or slot changes hands. -/
structure Whole (s s' : St) (t : ℕ) (p : Pc) : Prop where
  victim : (s.pc t).victim = none
  victim' : p.victim = none
  evicts : p.evicts = false
  serves : p.Serves
  flight : p.flight = (s.pc t).flight
  cleared : p.cleared = none
  dir : s'.pagedir t = p.hasDir
  place : ∀ u, (s'.view (t, u)).place = (s.view (t, u)).place
  slot : ∀ u, (s'.view (t, u)).slot = (s.view (t, u)).slot
  nodup : (s'.frameList.map Frame.kpage).Nodup
  bound : ∀ u, s.userPages ≤ u → s'.spt (t, u) = none ∧ (s'.pte (t, u)).present = false
  pc : s'.pc = Function.update s.pc t p := by rfl
  lock : s'.lock = s.lock := by rfl
  pagedir : ∀ t', t' ≠ t → s'.pagedir t' = s.pagedir t' := by exact fun _ _ => rfl
  tables : ∀ κ : Key, κ.1 ≠ t → s'.tables κ = s.tables κ := by exact fun _ _ => rfl
  spt : ∀ κ : Key, κ.1 ≠ t → s'.spt κ = s.spt κ := by exact fun _ _ => rfl
  pte : ∀ κ : Key, κ.1 ≠ t → s'.pte κ = s.pte κ := by exact fun _ _ => rfl
  frames : ∀ κ : Key, κ.1 ≠ t → s'.frames κ = s.frames κ := by exact fun _ _ => rfl
  checked : ∀ κ : Key, κ.1 ≠ t → s'.checked κ = s.checked κ := by exact fun _ _ => rfl
  used : s'.used = s.used := by rfl
  mem : s'.mem = s.mem := by rfl
  swapUsed : s'.swapUsed = s.swapUsed := by rfl
  swap : s'.swap = s.swap := by rfl
  files : s'.files = s.files := by rfl
  ghost : s'.ghost = s.ghost := by rfl
  userPages : s'.userPages = s.userPages := by rfl
  poolSize : s'.poolSize = s.poolSize := by rfl

/-- Where another process is, or the process itself, after it went on at `p`. -/
theorem St.leaving_update (hpc : s'.pc = Function.update s.pc t p) (hlock : s'.lock = s.lock)
    (hv : (s.pc t).victim = none) (hv' : p.victim = none) (κ : Key) : s'.leaving κ = s.leaving κ := by
  have he : s'.evicting = s.evicting := by
    refine St.evicting_congr (t := t) ?_ ?_ hv ?_
    · intro t' ht'
      rw [hpc, Function.update_of_ne ht']
    · intro t' _
      rw [hlock]
    · rw [hpc, Function.update_self]
      exact hv'
  simp only [St.leaving, he]

namespace Whole

variable (hW : Whole s s' t p)
include hW

theorem self : s'.pc t = p := by rw [hW.pc, Function.update_self]

theorem other {t' : ℕ} (ht' : t' ≠ t) : s'.pc t' = s.pc t' := by
  rw [hW.pc, Function.update_of_ne ht']

theorem sound : Sound s s' t where
  userPages := hW.userPages
  poolSize := hW.poolSize
  pc _ := hW.other
  lock t' _ hl := by rw [hW.lock, hl]
  evicts he := by
    rw [hW.self, hW.evicts] at he
    cases he
  victim v st hv := by
    rw [hW.self, hW.victim'] at hv
    cases hv
  serves := by
    rw [hW.self]
    exact hW.serves
  pagedir := hW.pagedir
  dir := by
    rw [hW.self]
    exact hW.dir
  flight t' _ k _ := by rw [hW.mem]
  clean k hk := by
    rw [hW.self, hW.cleared] at hk
    cases hk

theorem page (hκ : κ.1 ≠ t) : s'.page κ = s.page κ := by
  refine St.page_congr (St.view_congr ?_ (St.leaving_update hW.pc hW.lock hW.victim hW.victim' κ)
    (hW.spt κ hκ) (hW.pte κ hκ) (hW.tables (κ.1, _) hκ) (hW.frames κ hκ) (hW.checked κ hκ)) ?_ ?_ ?_
  · rw [hW.other hκ]
  · rw [hW.ghost]
  · intro k _
    rw [hW.mem]
  · intro k _
    rw [hW.swap]

/-- The rule for such an action. -/
theorem inv (h : Inv s) (hown : ∀ u, PageStep (t, u) (s.page (t, u))
    { s.page (t, u) with toView := s'.view (t, u) }) : Inv s' := by
  have hall : ∀ κ, (s'.view κ).place = (s.view κ).place ∧ (s'.view κ).slot = (s.view κ).slot := by
    intro κ
    by_cases hκ : κ.1 = t
    · subst hκ
      exact ⟨hW.place κ.2, hW.slot κ.2⟩
    · have hv : s'.view κ = s.view κ := congrArg Page.toView (hW.page hκ)
      rw [hv]
      exact ⟨rfl, rfl⟩
  refine h.of_steps hW.sound ?_ ?_ ?_ hW.nodup ?_ ?_ ?_
  · intro κ
    by_cases hκ : κ.1 = t
    · subst hκ
      have hpage : s'.page κ = { s.page κ with toView := s'.view κ } := by
        simp only [St.page, (hall κ).1, (hall κ).2, hW.ghost, hW.mem, hW.swap]
      rw [hpage]
      exact hown κ.2
    · rw [hW.page hκ]
      exact .same _
  · refine h.pages.keep hW.used fun x => ?_
    cases x with
    | inl κ => exact (hall κ).1
    | inr t' =>
      show (s'.pc t').flight = (s.pc t').flight
      by_cases ht : t' = t
      · rw [ht, hW.self, hW.flight]
      · rw [hW.other ht]
  · exact h.slots.keep hW.swapUsed fun κ => (hall κ).2
  · rw [hW.used]
    exact h.pool
  · intro κ hb
    by_cases hκ : κ.1 = t
    · subst hκ
      exact hW.bound κ.2 hb
    · rw [hW.spt κ hκ, hW.pte κ hκ]
      exact h.bound κ hb
  · intro κ
    rw [hW.ghost, fileBytes_congr hW.files]
    exact h.fresh κ

end Whole

/-- `frame_unpin_owner`, and the end of a system call. -/
theorem Inv.unpin (h : Inv s) (hp : s.pc t = .unpin) :
    Inv (((unpinOwner s t).endCall t).setPc t .run) := by
  have hv : (s.pc t).victim = none := by rw [hp]; rfl
  have hleaving : ∀ κ, (((unpinOwner s t).endCall t).setPc t .run).leaving κ = s.leaving κ :=
    St.leaving_update rfl rfl hv rfl
  have hframes : ∀ κ, (((unpinOwner s t).endCall t).setPc t .run).frames κ = (s.frames κ).map
      fun f => if f.owner = t ∧ f.page ≠ none then { f with pinned := false } else f := by
    intro κ
    have : (((unpinOwner s t).endCall t).setPc t .run).frames κ = ((s.frameList.map fun f =>
        if f.owner = t ∧ f.page ≠ none then { f with pinned := false } else f).filter
          fun f => f.owner = κ.1 ∧ f.upage = κ.2) := rfl
    rw [this, List.filter_map, St.frames]
    congr 1
    apply List.filter_congr
    intro f _
    simp only [Function.comp]
    split <;> rfl
  have hview : ∀ u, (((unpinOwner s t).endCall t).setPc t .run).view (t, u) = { s.view (t, u) with
      checked := none
      frames := (s.frames (t, u)).map fun f =>
        if f.page = none then f else { f with pinned := false } } := by
    intro u
    have hfr : (((unpinOwner s t).endCall t).setPc t .run).frames (t, u) =
        (s.frames (t, u)).map fun f => if f.page = none then f else { f with pinned := false } := by
      rw [hframes]
      apply List.map_congr_left
      intro f hf
      have hown : f.owner = t := (congrArg Prod.fst (St.mem_frames.1 hf).2).symm
      by_cases hpg : f.page = none <;> simp [hown, hpg]
    simp only [St.view, hfr, hleaving, hp]
    simp [St.setPc, St.endCall, unpinOwner, Pc.phase]
  refine Whole.inv (t := t) (p := .run) {
    victim := hv
    victim' := rfl
    evicts := rfl
    serves := trivial
    flight := by rw [hp]; rfl
    cleared := rfl
    dir := (h.dir t).trans (by rw [hp]; rfl)
    place := ?_
    slot := fun u => by rw [hview]; rfl
    nodup := ?_
    bound := fun u hu => h.bound (t, u) hu
    frames := ?_
    checked := fun κ hκ => by simp [St.setPc, St.endCall, unpinOwner, hκ] } h ?_
  · intro u
    rw [hview]
    simp only [View.place, St.view]
    cases s.leaving (t, u) with
    | some x => rfl
    | none =>
      cases s.frames (t, u) with
      | nil => rfl
      | cons f l =>
        simp only [List.map_cons]
        split <;> rfl
  · have : ((((unpinOwner s t).endCall t).setPc t .run).frameList.map Frame.kpage) =
        s.frameList.map Frame.kpage := by
      simp only [St.setPc, St.endCall, unpinOwner, List.map_map]
      apply List.map_congr_left
      intro f _
      simp only [Function.comp]
      split <;> rfl
    rw [this]
    exact h.nodup
  · intro κ hκ
    rw [hframes]
    conv_rhs => rw [← List.map_id (s.frames κ)]
    apply List.map_congr_left
    intro f hf
    have hown : f.owner ≠ t := by
      rw [← show κ.1 = f.owner from congrArg Prod.fst (St.mem_frames.1 hf).2]
      exact hκ
    simp [hown]
  · intro u
    rw [hview]
    refine .unpin _ ?_
    show (s.pc t).phase u = .idle
    rw [hp]
    rfl

/-- `frame_remove_owner`. -/
theorem Inv.exitFrames (h : Inv s) (hp : s.pc t = .exitFrames) (hl : s.lock .frame = some t) :
    Inv (((removeOwner s t).endCall t).setPc t .exitEntries) := by
  have hv : (s.pc t).victim = none := by rw [hp]; rfl
  have hnl := St.leaving_of_lock hl hv
  have hidle : ∀ u, (s.view (t, u)).phase = .idle := by
    intro u
    show (s.pc t).phase u = .idle
    rw [hp]
    rfl
  have hleaving : ∀ κ, (((removeOwner s t).endCall t).setPc t .exitEntries).leaving κ = s.leaving κ :=
    St.leaving_update rfl rfl hv rfl
  have hview : ∀ u, (((removeOwner s t).endCall t).setPc t .exitEntries).view (t, u) =
      { s.view (t, u) with phase := .gone none, checked := none, frames := [] } := by
    intro u
    have hfr : (((removeOwner s t).endCall t).setPc t .exitEntries).frames (t, u) = [] := by
      have : (((removeOwner s t).endCall t).setPc t .exitEntries).frames (t, u) =
        (s.frameList.filter fun f => f.owner ≠ t).filter fun f => f.owner = t ∧ f.upage = u := rfl
      rw [this, List.filter_filter, List.filter_eq_nil_iff]
      intro f _
      simp
      tauto
    simp only [St.view, hfr, hleaving]
    simp [St.setPc, St.endCall, removeOwner, Pc.phase]
  refine Whole.inv (t := t) (p := .exitEntries) {
    victim := hv
    victim' := rfl
    evicts := rfl
    serves := trivial
    flight := by rw [hp]; rfl
    cleared := rfl
    dir := (h.dir t).trans (by rw [hp]; rfl)
    place := ?_
    slot := fun u => by
      rw [hview]
      simp [View.slot, hidle, Phase.freed]
    nodup := (List.filter_sublist.map _).nodup h.nodup
    bound := fun u hu => h.bound (t, u) hu
    frames := ?_
    checked := fun κ hκ => by simp [St.setPc, St.endCall, removeOwner, hκ] } h ?_
  · intro u
    have ha := (h.shape (t, u)).agree
    have hl' : (s.view (t, u)).leaving = none := hnl _
    simp only [View.Agree, hidle, View.Rest, hl'] at ha
    rw [hview]
    -- a page that is resident keeps its frame through its page table entry
    obtain ⟨b, e, k, -, -, -, ⟨hpr, hk, -⟩, hf⟩ | ⟨-, hpr, hf⟩ := ha
    · simp [View.place, hl', hpr, hk, hf, frameOf]
    · simp [View.place, hl', hpr, hf]
  · intro κ hκ
    have : (((removeOwner s t).endCall t).setPc t .exitEntries).frames κ =
      (s.frameList.filter fun f => f.owner ≠ t).filter fun f => f.owner = κ.1 ∧ f.upage = κ.2 := rfl
    rw [this, St.frames, List.filter_filter]
    apply List.filter_congr
    intro f _
    by_cases hf : f.owner = κ.1
    · simp [hf, hκ]
    · simp [hf]
  · intro u
    rw [hview]
    exact .exit _ (hidle u) (hnl _)

/-- A new process gets its tables. -/
theorem Inv.makeDir (h : Inv s) (hp : s.pc t = .start) : Inv (makeDir s t) := by
  have hv : (s.pc t).victim = none := by rw [hp]; rfl
  have hdead : ∀ u, (s.view (t, u)).phase = .dead := by
    intro u
    show (s.pc t).phase u = .dead
    rw [hp]
    rfl
  have hleaving : ∀ κ, (Vm.makeDir s t).leaving κ = s.leaving κ :=
    St.leaving_update rfl rfl hv rfl
  have hagree : ∀ u, s.leaving (t, u) = none ∧ s.spt (t, u) = none ∧ (s.pte (t, u)).present = false ∧
      s.frames (t, u) = [] := by
    intro u
    have ha := (h.shape (t, u)).agree
    simp only [View.Agree, hdead] at ha
    exact ha
  have hview : ∀ u, (Vm.makeDir s t).view (t, u) =
      { s.view (t, u) with phase := .idle, pte := .zero, table := false } := by
    intro u
    simp only [St.view, hleaving, (hagree u).2.1]
    simp [St.setPc, Vm.makeDir, Pc.phase, St.frames]
  refine Whole.inv (t := t) (p := .loading) {
    victim := hv
    victim' := rfl
    evicts := rfl
    serves := trivial
    flight := by rw [hp]; rfl
    cleared := rfl
    dir := by simp [Vm.makeDir, St.setPc, Pc.hasDir]
    place := ?_
    slot := fun u => by
      rw [hview]
      simp [View.slot, hdead, Phase.freed]
    nodup := h.nodup
    bound := fun u _ => by simp [Vm.makeDir, St.setPc, Pte.zero]
    pagedir := fun t' ht' => Function.update_of_ne ht' ..
    tables := fun κ hκ => if_neg hκ
    spt := fun κ hκ => if_neg hκ
    pte := fun κ hκ => if_neg hκ } h ?_
  · intro u
    obtain ⟨hl, -, hpr, hf⟩ := hagree u
    rw [hview]
    simp [View.place, St.view, hl, hpr, hf, Pte.zero]
  · intro u
    rw [hview]
    exact .born _ (hdead u)

/-- The process goes on at `p` and does something else with all of its pages. -/
theorem Inv.turn_all {ph : Phase} (h : Inv s) (dirs : ℕ → Bool) (ph' : Phase)
    (hph : ∀ u, (s.pc t).phase u = ph) (hph' : ∀ u, p.phase u = ph') (hv : (s.pc t).victim = none)
    (hv' : p.victim = none) (he : p.evicts = false) (hs : p.Serves)
    (hf : p.flight = (s.pc t).flight) (hc : p.cleared = none) (hd : dirs t = p.hasDir)
    (hdirs : ∀ t', t' ≠ t → dirs t' = s.pagedir t') (hfr : ph.freed = false)
    (hfr' : ph'.freed = false)
    (hstep : ∀ u, PageStep (t, u) (s.page (t, u)) { s.page (t, u) with phase := ph' }) :
    Inv ({ s with pagedir := dirs }.setPc t p) := by
  have hleaving : ∀ κ, ({ s with pagedir := dirs }.setPc t p).leaving κ = s.leaving κ :=
    St.leaving_update rfl rfl hv hv'
  have hview : ∀ u, ({ s with pagedir := dirs }.setPc t p).view (t, u) =
      { s.view (t, u) with phase := ph' } := by
    intro u
    simp only [St.view, hleaving, ← hph' u]
    simp [St.setPc, St.frames]
  refine Whole.inv (t := t) (p := p) {
    victim := hv
    victim' := hv'
    evicts := he
    serves := hs
    flight := hf
    cleared := hc
    dir := hd
    place := fun u => by rw [hview]; rfl
    slot := fun u => by
      rw [hview]
      refine View.slot_congr ?_ hfr'
      show ((s.pc t).phase u).freed = false
      rw [hph, hfr]
    nodup := h.nodup
    bound := fun u hu => h.bound (t, u) hu
    pagedir := hdirs } h ?_
  intro u
  rw [hview]
  exact hstep u

/-- `page_table_destroy` is done. -/
theorem Inv.exitEntries (h : Inv s) (hp : s.pc t = .exitEntries)
    (hall : ((List.range s.userPages).all fun u => (s.spt (t, u)).isNone) = true) :
    Inv (s.setPc t .exitDir) := by
  have hph : ∀ u, (s.pc t).phase u = .gone none := by
    intro u
    rw [hp]
    rfl
  refine h.turn_all s.pagedir .bare hph (fun _ => rfl) (by rw [hp]; rfl) rfl rfl
    trivial (by rw [hp]; rfl) rfl ((h.dir t).trans (by rw [hp]; rfl)) (fun _ _ => rfl) rfl rfl ?_
  intro u
  refine .turn _ _ ⟨?_, View.held_of_unchecked ?_⟩ ?_ nofun nofun nofun
  · have ha := (h.shape (t, u)).agree
    have hph' : (s.view (t, u)).phase = .gone none := hph u
    simp only [View.Agree, hph'] at ha
    refine ⟨ha.1, ha.2.1, ?_⟩
    show s.spt (t, u) = none
    by_cases hu : u < s.userPages
    · simpa using List.all_eq_true.1 hall u (List.mem_range.2 hu)
    · exact (h.bound (t, u) (Nat.not_lt.1 hu)).1
  · have hph' : (s.view (t, u)).phase = .gone none := hph u
    exact (h.shape (t, u)).unchecked (by simp [hph'])
  · intro k st
    show (s.pc t).phase u ≠ .load k st
    simp [hph]

theorem Inv.exitDir (h : Inv s) (hp : s.pc t = .exitDir) :
    Inv ({ s with pagedir := Function.update s.pagedir t false }.setPc t .exitPages) := by
  have hph : ∀ u, (s.pc t).phase u = .bare := by
    intro u
    rw [hp]
    rfl
  refine h.turn_all _ .bare hph (fun _ => rfl) (by rw [hp]; rfl) rfl rfl trivial
    (by rw [hp]; rfl) rfl (by simp [Pc.hasDir]) (fun t' ht' => Function.update_of_ne ht' ..) rfl rfl ?_
  intro u
  have hpage : (s.page (t, u)).phase = .bare := hph u
  rw [← hpage]
  exact .same _

/-- `pagedir_destroy`. -/
theorem Inv.destroyPage (h : Inv s) (hp : s.pc t = .exitPages) : Inv (destroyPage s t) := by
  have hph : ∀ u, (s.pc t).phase u = .bare := by
    intro u
    rw [hp]
    rfl
  unfold Vm.destroyPage
  split
  · next hnone =>
    refine h.turn_all s.pagedir .dead hph (fun _ => rfl) (by rw [hp]; rfl) rfl rfl
      trivial (by rw [hp]; rfl) rfl ((h.dir t).trans (by rw [hp]; rfl)) (fun _ _ => rfl) rfl rfl ?_
    intro u
    refine .die _ (hph u) ?_
    show (s.pte (t, u)).present = false
    by_cases hu : u < s.userPages
    · simpa using List.find?_eq_none.1 hnone u (List.mem_range.2 hu)
    · exact (h.bound (t, u) (Nat.not_lt.1 hu)).2
  · next u hu =>
    have hpr : (s.pte (t, u)).present = true := by simpa using List.find?_some hu
    obtain ⟨hl, hf, -⟩ := (h.shape (t, u)).bare (hph u)
    have hl' : s.leaving (t, u) = none := hl
    have hf' : s.frames (t, u) = [] := hf
    have hplace : (s.view (t, u)).place = some (s.pte (t, u)).kpage := by
      simp [View.place, St.view, hl', hf', hpr]
    have hused : s.used (s.pte (t, u)).kpage = true := h.pages.used_of_held (h := Sum.inl (t, u)) hplace
    generalize hk : (s.pte (t, u)).kpage = k at hplace hused
    have heq : s.freeUser k = { s with
        used := Function.update s.used k false
        mem := Function.update s.mem k fun _ => 0xcc } := by
      simp only [St.freeUser, hused, if_true, St.setMem]
    have hm : ∀ k', k' ≠ k → Function.update s.mem k (fun _ => 0xcc) k' = s.mem k' := fun k' hk' =>
      Function.update_of_ne hk' ..
    rw [heq]
    generalize hs' : ({ s with
      used := Function.update s.used k false
      mem := Function.update s.mem k fun _ => 0xcc } : St).setPte (t, u)
        (fun p => { p with present := false }) = s'
    have hA : Acts s s' t u (s.pc t) := by
      subst hs'
      exact {
        phase := fun _ _ => rfl
        victim := by rw [hp]; rfl
        victim' := by rw [hp]; rfl
        evicts := by rw [hp]; rintro ⟨⟩
        hasDir := rfl
        serves := h.serves t
        clean := by rw [hp]; rintro _ ⟨⟩
        pc := (Function.update_eq_self t s.pc).symm
        pte := fun κ hκ => Function.update_of_ne hκ ..
        mem := fun κ hκ k' hk' => hm k' fun he => hκ (h.place_inj (he ▸ hk') hplace)
        flight := fun t' _ k' hk' => hm k' fun he => h.place_ne_flight hplace (he ▸ hk') }
    have hview : s'.view (t, u) =
        { s.view (t, u) with pte := { s.pte (t, u) with present := false } } := by
      rw [hA.view]
      subst hs'
      simp [St.setPte, St.view, St.frames]
    have hplace' : (s'.view (t, u)).place = none := by
      rw [hview]
      simp [View.place, St.view, hl', hf']
    have hslot : (s'.view (t, u)).slot = (s.view (t, u)).slot := by
      rw [hview]
      rfl
    have hL := hA.local_
    refine hA.inv h ?_ (hL.pages_free h (by subst hs'; rfl) hplace hplace' (by rw [hA.self]))
      (hL.slots_keep h (by subst hs'; rfl) hslot) (by subst hs'; exact h.nodup) ?_ ?_
      (by subst hs'; exact h.fresh (t, u))
    · have hpage : s'.page (t, u) = { s.page (t, u) with
          pte := { (s.page (t, u)).pte with present := false }, data := blank } := by
        simp only [St.page, hplace', hslot]
        rw [hview]
        subst hs'
        rfl
      rw [hpage]
      exact .freePage _ (hph u)
    · subst hs'
      intro k' hk'
      refine h.pool k' ?_
      by_cases he : k' = k
      · rw [he]
        exact hused
      · simpa [St.setPte, he] using hk'
    · intro hb
      rw [(h.bound (t, u) hb).2] at hpr
      cases hpr

end Whole

/-! ### Entries and accesses -/

section Access

theorem fileBytes_zero (s : St) (f ofs : ℕ) : fileBytes s f ofs 0 = blank := by
  funext b
  simp [fileBytes, blank]

/-- A process adds an entry for its page `u`, and goes on at `p`. -/
theorem Inv.addEntry (h : Inv s) (hn : s.spt (t, u) = none) (hidle : (s.pc t).phase u = .idle)
    (hu : u < s.userPages) (hk : e.kpage = none) (hs : e.swapSlot = none)
    (ha : e.type = .anon → e.readBytes = 0) (hp : (s.pc t).Like p) (hev : p.evicts = false)
    (hphase : ∀ v, v ≠ u → p.phase v = (s.pc t).phase v)
    (hpu : p.phase u = .idle ∨ p.phase u = .wait .plain ∨ p.phase u = .wait .stack ∧ e.readBytes = 0) :
    Inv ((addEntry s (t, u) e).setPc t p) := by
  have hph : (s.view (t, u)).phase = .idle := hidle
  obtain ⟨hl, -⟩ := (h.shape (t, u)).nowhere hph hn
  have hl' : s.leaving (t, u) = none := hl
  generalize hs' : (Vm.addEntry s (t, u) e).setPc t p = s'
  have hA : Acts s s' t u p := by
    subst hs'
    exact {
      phase := hphase
      victim := hp.victim
      victim' := hp.victim'
      evicts := fun he => by rw [hev] at he; cases he
      hasDir := hp.hasDir
      serves := hp.serves
      clean := fun k' hk' => h.clean t k' (hp.cleared ▸ hk')
      spt := fun κ hκ => Function.update_of_ne hκ ..
      ghost := fun κ hκ => Function.update_of_ne hκ .. }
  have hview : s'.view (t, u) = { s.view (t, u) with phase := p.phase u, entry := some e } := by
    rw [hA.view]
    subst hs'
    simp [St.view, St.setPc, Vm.addEntry, St.frames]
  have hghost : s'.ghost (t, u) = {
      flat := fileBytes s e.file e.ofs e.readBytes, touched := false
      file := e.file, ofs := e.ofs, readBytes := e.readBytes, foreign := false, stale := false } := by
    subst hs'
    simp [Vm.addEntry, St.setPc]
  refine hA.keep h (by subst hs'; rfl) (by subst hs'; rfl) hp.flight hview rfl ?_ (by subst hs'; rfl)
    (by subst hs'; exact h.nodup) (fun hb => absurd hu (Nat.not_lt.2 hb)) ?_ ?_
  · simp [View.slot, St.view, hl', hn, hs]
  · rw [hghost]
    exact fun _ _ => rfl
  · rw [hghost]
    refine .add (s.page (t, u)) e _ _ hph hn hk hs (fun ht => ?_) ?_
    · rw [ha ht, fileBytes_zero]
    · refine hpu.imp id (Or.imp id fun hh => ⟨hh.1, ?_⟩)
      rw [hh.2, fileBytes_zero]

/-- A page that is present is where its page table entry says. -/
theorem Inv.place_of_present (h : Inv s) (hidle : (s.pc t).phase u = .idle)
    (hpr : (s.pte (t, u)).present = true) :
    (s.view (t, u)).place = some (s.pte (t, u)).kpage := by
  have hph : (s.view (t, u)).phase = .idle := hidle
  have ha := (h.shape (t, u)).agree
  have hpr' : (s.view (t, u)).pte.present = true := hpr
  simp only [View.Agree, hph, View.Rest] at ha
  split at ha
  · next hl =>
    obtain ⟨b, e, k, -, -, -, ⟨-, hk, -⟩, hf⟩ | ho := ha
    · have hk' : (s.pte (t, u)).kpage = k := hk
      simp [View.place, hl, hf, frameOf, hk']
    · rw [ho.2.1] at hpr'
      cases hpr'
  · next k st hl =>
    obtain ⟨-, e, -, hst⟩ := ha
    have hk : (s.pte (t, u)).kpage = k := by
      cases st with
      | clearKpage | clearPte => exact hst.2.2.2.1
      | _ =>
        rw [hst.2.2] at hpr'
        cases hpr'
    simp only [View.place, hl, hk]

/-- A store to a page that is present. -/
theorem Inv.store {b : ℕ} {v : UInt8} (h : Inv s) (hidle : (s.pc t).phase u = .idle)
    (hv : (s.pc t).victim = none) (he : (s.pc t).evicts = false) (hc : (s.pc t).cleared = none)
    (hpr : (s.pte (t, u)).present = true) :
    Inv ({ s.setMem (s.pte (t, u)).kpage (Function.update (s.mem (s.pte (t, u)).kpage) b v) with
      ghost := Function.update s.ghost (t, u) { s.ghost (t, u) with
        flat := Function.update (s.ghost (t, u)).flat b v, touched := true } }.setPte (t, u)
          fun p => { p with accessed := true, dirty := true }) := by
  have hph : (s.view (t, u)).phase = .idle := hidle
  have hplace := h.place_of_present hidle hpr
  generalize hk : (s.pte (t, u)).kpage = k at hplace
  have hm : ∀ k', k' ≠ k → (s.setMem k (Function.update (s.mem k) b v)).mem k' = s.mem k' :=
    fun k' hk' => Function.update_of_ne hk' ..
  generalize hs' : ({ s.setMem k (Function.update (s.mem k) b v) with
      ghost := Function.update s.ghost (t, u) { s.ghost (t, u) with
        flat := Function.update (s.ghost (t, u)).flat b v, touched := true } } : St).setPte (t, u)
          (fun p => { p with accessed := true, dirty := true }) = s'
  have hA : Acts s s' t u (s.pc t) := by
    subst hs'
    exact {
      phase := fun _ _ => rfl
      victim := hv
      victim' := hv
      evicts := by rw [he]; exact nofun
      hasDir := rfl
      serves := h.serves t
      clean := by rw [hc]; exact nofun
      pc := (Function.update_eq_self t s.pc).symm
      pte := fun κ hκ => Function.update_of_ne hκ ..
      ghost := fun κ hκ => Function.update_of_ne hκ ..
      mem := fun κ hκ k' hk' => hm k' fun he => hκ (h.place_inj (he ▸ hk') hplace)
      flight := fun t' _ k' hk' => hm k' fun he => h.place_ne_flight hplace (he ▸ hk') }
  have hview : s'.view (t, u) =
      { s.view (t, u) with pte := { s.pte (t, u) with accessed := true, dirty := true } } := by
    rw [hA.view]
    subst hs'
    simp [St.setPte, St.view, St.frames, St.setMem]
  refine hA.keep h (by subst hs'; rfl) (by subst hs'; rfl) rfl hview rfl rfl rfl (by subst hs'; exact h.nodup) ?_ ?_ ?_
  · intro hb
    rw [(h.bound (t, u) hb).2] at hpr
    cases hpr
  · subst hs'
    intro ht
    simp [St.setPte] at ht
  · have hdata : (s.view (t, u)).place.elim blank s'.mem = Function.update (s.page (t, u)).data b v := by
      subst hs'
      simp [St.page, hplace, St.setPte, St.setMem]
    have hghost : s'.ghost (t, u) = { (s.page (t, u)).ghost with
        flat := Function.update (s.page (t, u)).ghost.flat b v, touched := true } := by
      subst hs'
      simp [St.page, St.setPte]
    rw [hdata, hghost]
    exact .store (s.page (t, u)) b v hph hpr

/-- `check_writable`. -/
theorem Inv.checkWritable (h : Inv s) (hp : s.pc t = .run) (hc : s.checked (t, u) ≠ none)
    (he : s.spt (t, u) = some e) (hw : e.writable = true) :
    Inv { s with checked := Function.update s.checked (t, u) (some true) } := by
  have heq : { s with checked := Function.update s.checked (t, u) (some true) } =
      (s.edit (t, u) (s.spt (t, u)) (s.pte (t, u)) (some true)).setPc t (s.pc t) := by
    simp [St.edit, St.setPc]
  have hph : (s.pc t).phase u = .idle := by rw [hp]; rfl
  rw [heq]
  refine h.edit_own (fun _ _ => rfl) ?_ ?_ id id rfl rfl ?_
  · rw [hp]
    exact ⟨rfl, rfl, rfl, rfl, rfl, trivial⟩
  · rw [hp]
    rintro ⟨⟩
  · refine .check _ hph hc fun e' he' => ?_
    have hee : s.spt (t, u) = some e' := he'
    rw [he] at hee
    cases hee
    exact hw

/-- `page_fault` and `check_address` may grow the stack. -/
theorem Inv.growStack {b esp : ℕ} {ok : Bool} (h : Inv s) (hn : s.spt (t, u) = none)
    (hu : u < s.userPages) (hidle : ∀ v, (s.pc t).phase v = .idle) (hc : c.wait = .plain)
    (hp : (s.pc t).Like (.alloc c u)) (hfail : Inv (s.finish t c u false)) :
    Inv (growStack s t u b esp ok c) := by
  unfold Vm.growStack
  split
  · refine h.addEntry hn (hidle u) hu rfl rfl (fun _ => rfl) hp rfl ?_ ?_
    · intro v hv
      rw [hidle v]
      simp [Pc.phase, Ne.symm hv]
    · exact .inr (.inl (by simp [Pc.phase, hc]))
  · exact hfail

/-- A process turns to its page `u`, which is not resident. -/
theorem Inv.to_alloc (h : Inv s) (he : s.spt (t, u) = some e) (hk : e.kpage = none)
    (hidle : ∀ v, (s.pc t).phase v = .idle) (hc : c.wait = .plain)
    (hp : (s.pc t).Like (.alloc c u)) : Inv (s.setPc t (.alloc c u)) := by
  have hpu : (Pc.alloc c u).phase u = .wait .plain := by simp [Pc.phase, hc]
  refine h.turn u ?_ hp (by rintro ⟨⟩) (by simp [hidle]) (by simp [hpu]) (by simp [hidle, Phase.live])
    (by simp [hpu]) ?_
  · intro v hv
    rw [hidle]
    simp [Pc.phase, Ne.symm hv]
  · rw [hpu]
    exact (h.shape (t, u)).to_wait (.inl (hidle u)) he hk (fun hne => absurd rfl hne) (by simp)

/-- The places from which user memory is accessed. -/
theorem St.accessor_facts {write : Bool} {source : Source} (ha : s.accessor t u write = some source) :
    s.pc t = source.back ∧ (s.pc t = .run ∨ s.pc t = .file ∨ s.pc t = .construct) := by
  have hp := St.pc_of_accessor ha
  refine ⟨hp, ?_⟩
  rw [hp]
  cases source <;> simp [Source.back]

/-- A process there does nothing with any page. -/
theorem Pc.idle_of_accessor (hp : p = .run ∨ p = .file ∨ p = .construct) :
    (∀ v, p.phase v = .idle) ∧ p.victim = none ∧ p.evicts = false ∧ p.cleared = none ∧
      p.flight = none ∧ p.hasDir = true := by
  obtain rfl | rfl | rfl := hp <;> exact ⟨fun _ => rfl, rfl, rfl, rfl, rfl, rfl⟩

theorem Inv.fault_fail {source : Source} (h : Inv s)
    (hacc : s.pc t = .run ∨ s.pc t = .file ∨ s.pc t = .construct) :
    Inv (s.finish t (.fault source) u false) := by
  obtain ⟨hidle, hv, -, hc, hf, hd⟩ := Pc.idle_of_accessor hacc
  obtain ⟨hv', hf', hc', he', hd', hs'⟩ := (Caller.fault source).back_plain u false
  apply Inv.finish
  refine h.stay ?_ ⟨hv, hv', hf'.trans hf.symm, hc'.trans hc.symm, hd'.trans hd.symm, hs'⟩ ?_
  · intro v
    rw [hidle]
    cases source <;> rfl
  · rw [he']
    exact nofun

end Access

/-! ### Every action -/

section Steps

variable {ok : Bool} {a : Act}

/-- A process that goes on from `q` to `p` does with every page what it did before. -/
structure Pc.PassesTo (q p : Pc) : Prop where
  phase : ∀ v, p.phase v = q.phase v := by exact fun _ => rfl
  like : q.Like p := by exact ⟨rfl, rfl, rfl, rfl, rfl, trivial⟩
  evicts : p.evicts = false := by rfl

theorem Inv.pass (h : Inv s) {q : Pc} (hq : s.pc t = q) (hp : q.PassesTo p) : Inv (s.setPc t p) := by
  subst hq
  exact h.stay hp.phase hp.like (by rw [hp.evicts]; exact nofun)

/-- `mmap` finds the pages that it maps free. -/
def St.Unmapped (s : St) : Prop :=
  ∀ t m, s.pc t = .mmap m → m.pageCnt < mapPages (s.files m.file).len →
    s.spt (t, m.addr + m.pageCnt) = none ∧ m.addr + m.pageCnt < s.userPages

theorem Inv.mapPage {m : Mapping} (h : Inv s) (hp : s.pc t = .mmap m) (hmap : s.Unmapped) :
    Inv (mapPage s t m ok) := by
  unfold Vm.mapPage
  split
  · next hlt =>
    obtain ⟨hfree, hu⟩ := hmap t m hp hlt
    split
    · exact h.pass hp { phase := fun _ => Pc.phase_find }
    · refine Inv.aux (s := (Vm.addEntry s _ _).setPc t _) ?_ _ s.nextMapid s.call s.hand
      refine h.addEntry hfree (by rw [hp]; rfl) hu rfl rfl nofun ?_ rfl ?_ (.inl rfl)
      · rw [hp]
        exact ⟨rfl, rfl, rfl, rfl, rfl, trivial⟩
      · intro v _
        rw [hp]
        rfl
  · exact h.pass hp {}

theorem Inv.exitSlot {slot : ℕ} (h : Inv s) (hp : s.pc t = .exitSlot u slot) :
    Inv (({ s with spt := Function.update s.spt (t, u) none }.swapFree slot).setPc t .exitEntries) := by
  have hph : (s.view (t, u)).phase = .gone (some slot) := by simp [St.view, hp, Pc.phase]
  have ha := (h.shape (t, u)).agree
  simp only [View.Agree, hph] at ha
  obtain ⟨hl, -, -, hs⟩ := ha
  obtain ⟨e, he, -, hes⟩ := hs (by simp)
  have he' : s.spt (t, u) = some e := he
  have hl' : s.leaving (t, u) = none := hl
  have hslot : (s.view (t, u)).slot = some slot := by
    simp [View.slot, hph, hl, he, hes, Phase.freed]
  rw [h.swapFree_eq hslot]
  refine h.drop_entry he' hl' (by rw [hes]) ?_ ?_ rfl ?_ (.destroy _ (some slot) hph)
  · intro v hv
    rw [hp]
    simp [Pc.phase, Ne.symm hv]
  · rw [hp]
    exact ⟨rfl, rfl, rfl, rfl, rfl, trivial⟩
  · simp [hp, Pc.phase, Phase.freed]

/-- `page_destructor` for a page that holds no slot. -/
theorem Inv.destroy (h : Inv s) (hp : s.pc t = .exitEntries) (he : s.spt (t, u) = some e)
    (hs : e.kpage = none → e.swapSlot = none) :
    Inv { s with spt := Function.update s.spt (t, u) none } := by
  have hph : (s.view (t, u)).phase = .gone none := by simp [St.view, hp, Pc.phase]
  have ha := (h.shape (t, u)).agree
  simp only [View.Agree, hph] at ha
  obtain ⟨hl, -, hall, -⟩ := ha
  have hes : e.swapSlot = none := by
    cases hk : e.kpage with
    | none => exact hs hk
    | some k => exact ((hall e he).1 k hk).2
  have heq : { s with spt := Function.update s.spt (t, u) none } =
      { s with spt := Function.update s.spt (t, u) none, swapUsed := s.swapUsed }.setPc t (s.pc t) := by
    simp [St.setPc]
  rw [heq]
  have hpu : (s.pc t).phase u = .gone none := hph
  refine h.drop_entry he hl (by rw [hes]) (fun _ _ => rfl) ?_ ?_ ?_ ?_
  · rw [hp]
    exact ⟨rfl, rfl, rfl, rfl, rfl, trivial⟩
  · rw [hp]
    rfl
  · rw [hpu]
    rfl
  · rw [hpu]
    exact .destroy _ none hph

/-- **What a process does at its place** keeps the invariant. -/
theorem Inv.body (h : Inv s) (hmap : s.Unmapped)
    (hlock : ∀ L, (s.pc t).section = some L → s.lock L = some t) (hb : body s t ok = some s') :
    Inv s' := by
  have hfile : ∀ {q : Pc}, (q = .noDir ∨ ∃ b, q = .loadDone b) → s.pc t = q →
      Inv (s.setLock .filesys none) ∧ (s.setLock .filesys none).pc t = q := fun _ hp =>
    ⟨h.release (t := t) (by simp), hp⟩
  cases hp : s.pc t with simp only [Vm.body, hp] at hb
  | absent | start | evictLock c u | loading | run => cases hb
  | noDir =>
    cases hb
    obtain ⟨h', hp'⟩ := hfile (.inl rfl) hp
    exact h'.pass hp' {}
  | noDirClose | construct | file | threadExit | exitFiles | exitExec =>
    cases hb
    exact h.pass hp {}
  | loadDone b =>
    cases hb
    obtain ⟨h', hp'⟩ := hfile (.inr ⟨b, rfl⟩) hp
    cases b
    · exact h'.pass hp' {}
    · exact h'.pass hp' {}
  | unpin =>
    cases hb
    exact h.unpin hp
  | alloc c u =>
    cases hb
    exact h.alloc hp
  | sweep c u i n =>
    cases hb
    exact h.sweep hp
  | evict c u st v =>
    cases hb
    exact h.evict hp
  | evictUnlock c u k =>
    cases hb
    split
    · exact h.evictUnlock hp (fun k' hk' => Function.update_of_ne hk' ..) fun _ =>
        Function.update_self ..
    · next hz => exact h.evictUnlock hp (fun _ _ => rfl) fun hc => absurd hc hz
  | makeFrame c u k =>
    split at hb
    · cases hb
      exact h.pass hp { like := ⟨rfl, rfl, rfl, rfl, rfl, (h.serves_of hp :)⟩ }
    · cases hb
      exact h.allocFail (.inl hp)
  | push c u k =>
    cases hb
    have hl : s.lock .frame = some t := hlock .frame (by rw [hp]; rfl)
    by_cases hc : c = .setupStack
    · exact h.push hp hl (.inr ⟨if_pos hc, hc⟩)
    · exact h.push hp hl (.inl ⟨if_neg hc, hc⟩)
  | load c u k st =>
    split at hb
    · cases hb
      exact h.panic _
    · next e he =>
      cases hb
      exact h.loadPage hp he
  | freePage c u k =>
    cases hb
    exact h.allocFail (.inr hp)
  | pin u =>
    have hl : s.lock .frame = some t := hlock .frame (by rw [hp]; rfl)
    have hnl := St.leaving_of_lock hl (show (s.pc t).victim = none by rw [hp]; rfl) (t, u)
    have hph : (s.pc t).phase u = .known := by simp [hp, Pc.phase]
    split at hb
    · next x hpin =>
      cases hb
      refine h.pin_own hpin hph hnl ?_ rfl ?_ (.inl rfl) ?_
      · rw [hp]
        exact ⟨rfl, rfl, rfl, rfl, rfl, trivial⟩
      · intro v hv
        simp [hp, Pc.phase, Ne.symm hv]
      · cases s.checked (t, u) with
        | none => exact .inr rfl
        | some b => exact .inl rfl
    · next hpin =>
      cases hb
      obtain ⟨e, he, hk⟩ := h.pinResident_none hpin hph hnl
      have hpu : (Pc.alloc .pin u).phase u = .wait .plain := by simp [Pc.phase, Caller.wait]
      refine h.turn u ?_ ?_ (by rintro ⟨⟩) (by simp [hph]) (by simp [hpu]) (by simp [hph, Phase.live])
        (by simp [hpu]) ?_
      · intro v hv
        simp [hp, Pc.phase, Ne.symm hv]
      · rw [hp]
        exact ⟨rfl, rfl, rfl, rfl, rfl, trivial⟩
      · rw [hpu]
        exact (h.shape (t, u)).to_wait (.inr hph) he hk (fun hne => absurd rfl hne) (by simp)
  | mmap m =>
    cases hb
    exact h.mapPage hp hmap
  | unmap why m i st =>
    cases hb
    refine h.unmap hp ?_
    rintro rfl
    exact hlock .frame (by rw [hp]; rfl)
  | exitUnmap =>
    split at hb
    · cases hb
      exact h.pass hp {}
    · cases hb
      exact h.pass hp { phase := fun _ => Pc.phase_find }
  | exitFrames =>
    cases hb
    exact h.exitFrames hp (hlock .frame (by rw [hp]; rfl))
  | exitEntries =>
    split at hb
    · next hall =>
      cases hb
      exact h.exitEntries hp hall
    · cases hb
  | exitSlot u slot =>
    cases hb
    exact h.exitSlot hp
  | exitDir =>
    cases hb
    exact h.exitDir hp
  | exitPages =>
    cases hb
    exact h.destroyPage hp

/-- Nobody evicts in a section. -/
theorem Next.not_evicts {q : Pc} (h : Next p q) (hs : p.section = some .frame) : q.evicts = false := by
  cases h with
  | noFrame c u k | freePage c u k => exact (c.back_plain u false).2.2.2.1
  | loaded c u k => exact (c.back_plain u true).2.2.2.1
  | same =>
    cases p with
    | evict c u st v => cases st <;> cases hs
    | _ => first | rfl | cases hs
  | unmapped why m i => cases why <;> rfl
  | loadDone b => cases b <;> rfl
  | evict c u st st' v | evicted c u st v => cases st <;> cases hs
  | _ => first | rfl | cases hs

theorem Inv.go (h : Inv s) (hmap : s.Unmapped) (hg : go s t ok = some s') : Inv s' := by
  obtain ⟨hp, hl, rfl⟩ | ⟨c, u, hp, hl, rfl⟩ | ⟨hs, hb⟩ | ⟨L, x, hs, hl, hb, rfl⟩ | ⟨L, -, hl, rfl⟩ :=
    go_cases hg
  · have h' : Inv (s.setLock .filesys (some t)) := h.acquire (t := t) (if_pos hl)
    split
    · exact h'.makeDir hp
    · exact h'.pass (q := .start) hp {}
  · have h' : Inv (s.setLock .frame (some t)) := h.acquire (t := t) (if_pos hl)
    have hp' : (s.setLock .frame (some t)).pc t = .evictLock c u := hp
    refine h'.stay ?_ ?_ ?_
    · intro v
      rw [hp']
      rfl
    · rw [hp']
      exact ⟨rfl, rfl, rfl, rfl, rfl, (h.serves_of hp :)⟩
    · exact fun _ => by simp [St.setLock]
  · refine h.body hmap (fun L hL => ?_) hb
    rw [hs] at hL
    cases hL
  · have hx := h.body hmap (fun L' hL => by rw [hs] at hL; cases hL; exact hl) hb
    refine hx.release (t := t) ?_
    rintro rfl
    refine ⟨(body_goes hb).self.not_evicts hs, ?_⟩
    rw [lock_body hb, Pc.frees_of_section hs]
    exact hl
  · exact h.acquire (t := t) (if_pos hl)

/-- **Every action keeps the invariant.** -/
theorem Inv.step (h : Inv s) (hmap : s.Unmapped) (hs : step s a = some s') : Inv s' := by
  have hlike : ∀ {t u write source}, s.accessor t u write = some source →
      (s.pc t).Like (.alloc (.fault source) u) := by
    intro t u write source hacc
    obtain ⟨-, hv, -, hcl, hf, hd⟩ := Pc.idle_of_accessor (St.accessor_facts hacc).2
    exact ⟨hv, rfl, hf.symm, hcl.symm, hd.symm, trivial⟩
  cases step_cases hs with
  | addFile t u f ofs n w hp hu hn =>
    have hadd := h.addEntry (e := fileEntry f ofs n w) (p := .loading) hn (by rw [hp]; rfl) hu.2.1 rfl
      rfl (by rintro ⟨⟩) (by rw [hp]; exact ⟨rfl, rfl, rfl, rfl, rfl, trivial⟩) rfl
      (fun _ _ => by rw [hp]) (.inl rfl)
    have heq : (Vm.addEntry s (t, u) (fileEntry f ofs n w)).setPc t .loading =
        Vm.addEntry s (t, u) (fileEntry f ofs n w) := by
      simp [St.setPc, Vm.addEntry, ← hp]
    rwa [heq] at hadd
  | setupStack t hp hU hn =>
    refine h.addEntry hn (by rw [hp]; rfl) (by omega) rfl rfl (fun _ => rfl)
      (by rw [hp]; exact ⟨rfl, rfl, rfl, rfl, rfl, trivial⟩) rfl (fun v hv => ?_) (.inr (.inr ⟨?_, rfl⟩))
    · rw [hp]
      simp [Pc.phase, Ne.symm hv]
    · simp [Pc.phase, Caller.wait]
  | load t u => exact h.setAccessed _ _
  | store t u b v hc =>
    obtain ⟨source, hacc⟩ := Option.isSome_iff_exists.1 hc.1
    obtain ⟨hidle, hv, he, hcl, -⟩ := Pc.idle_of_accessor (St.accessor_facts hacc).2
    exact h.store (hidle u) hv he hcl hc.2.1
  | kill t u b w esp ok source hacc => exact h.fault_fail (St.accessor_facts hacc).2
  | fault t u b w esp ok source e hacc _ _ he hk =>
    exact h.to_alloc he hk.1 (Pc.idle_of_accessor (St.accessor_facts hacc).2).1 rfl (hlike hacc)
  | faultGrow t u b w esp ok source hacc hu _ hn =>
    have hpc := (St.accessor_facts hacc).2
    exact h.growStack hn hu.1 (Pc.idle_of_accessor hpc).1 rfl (hlike hacc) (h.fault_fail hpc)
  | enter t => exact h.aux s.mmaps s.nextMapid _ s.hand
  | pinGrow t u b esp ok hp _ hu hn =>
    exact h.growStack hn hu.1 (fun v => by rw [hp]; rfl) rfl
      (by rw [hp]; exact ⟨rfl, rfl, rfl, rfl, rfl, trivial⟩) (Inv.finish (h.pass hp {}))
  | pin t u b esp ok e hp _ _ he =>
    have hidle : ∀ v, (s.pc t).phase v = .idle := fun v => by rw [hp]; rfl
    split
    · next hk =>
      exact h.to_alloc he hk hidle rfl (by rw [hp]; exact ⟨rfl, rfl, rfl, rfl, rfl, trivial⟩)
    · have hpu : (Pc.pin u).phase u = .known := by simp [Pc.phase]
      refine h.turn u ?_ ?_ (by rintro ⟨⟩) (by simp [hidle]) (by simp [hpu]) (by simp [hidle, Phase.live])
        (by simp [hpu]) ?_
      · intro v hv
        rw [hidle]
        simp [Pc.phase, Ne.symm hv]
      · rw [hp]
        exact ⟨rfl, rfl, rfl, rfl, rfl, trivial⟩
      · rw [hpu]
        refine (h.shape (t, u)).to_known (hidle u) ?_
        simp [St.view, he]
  | checkWritable t u hp _ hc hw =>
    obtain ⟨e, he, hwe⟩ : ∃ e, s.spt (t, u) = some e ∧ e.writable = true := by
      simpa [Option.any_eq_true] using hw
    exact h.checkWritable hp (Option.isSome_iff_ne_none.1 hc) he hwe
  | write t f pos v => exact h.writeFile (by simp)
  | deny f b => exact h.deny f b
  | mmap t f addr hp => exact (h.aux _ _ s.call s.hand).pass (q := .run) hp {}
  | munmap t mapid m hp => exact h.pass hp { phase := fun _ => Pc.phase_find }
  | go t ok hg => exact h.go hmap hg
  | destroySlot t u slot e hp he hk hslot =>
    have hph : ∀ v, (s.pc t).phase v = .gone none := fun v => by rw [hp]; rfl
    have hpu : (Pc.exitSlot u slot).phase u = .gone (some slot) := by simp [Pc.phase]
    refine h.turn u ?_ ?_ (by rintro ⟨⟩) (by simp [hph]) (by simp [hpu]) (by simp [hpu, Phase.live])
      (by simp [hpu]) ?_
    · intro v hv
      rw [hph]
      simp [Pc.phase, Ne.symm hv]
    · rw [hp]
      exact ⟨rfl, rfl, rfl, rfl, rfl, trivial⟩
    · rw [hpu]
      exact (h.shape (t, u)).gone_slot (hph u) he hk hslot
  | destroy t u e hp he hno => exact h.destroy hp he fun hk => hno.resolve_left (absurd hk ·)
  | _ => exact h.pass ‹_› {}

theorem Inv.initial (hi : sys.init s) : Inv s := by
  obtain ⟨U, n, w, files, mem, swap, rfl⟩ := hi
  have hview : ∀ κ, (Vm.initial U n w files mem swap).view κ =
      { phase := .dead, leaving := none, entry := none, pte := .zero, table := false, frames := []
        checked := none } := fun _ => rfl
  refine ⟨?_, ?_, ⟨?_, ?_⟩, ⟨?_, ?_⟩, List.nodup_nil, nofun, nofun, fun _ => trivial, fun _ _ =>
    ⟨rfl, rfl⟩, nofun, fun _ => rfl, nofun, ?_⟩
  · intro κ
    rw [hview]
    exact ⟨⟨rfl, rfl, rfl, rfl⟩, View.held_of_unchecked rfl⟩
  · intro κ
    exact Page.content_of_none (congrArg View.entry (hview κ)) nofun
  · intro k
    refine iff_of_false nofun ?_
    rintro ⟨x, hx⟩
    cases x <;> cases hx
  · intro x y k hx
    cases x <;> cases hx
  · intro k
    refine iff_of_false nofun ?_
    rintro ⟨κ, hκ⟩
    rw [hview] at hκ
    cases hκ
  · intro κ κ' k hκ
    simp only [hview] at hκ
    cases hκ
  · intro κ _ _
    exact (fileBytes_zero _ _ _).symm

/-- What holds in every state. -/
structure Good (s : St) : Prop where
  inv : Inv s
  maps : ∀ t, s.maps t

theorem Good.unmapped (h : Good s) : s.Unmapped := by
  intro t m hp hlt
  obtain ⟨hu, ho⟩ := (h.maps t).new m hp m.pageCnt (Nat.le_refl _) hlt
  exact ⟨St.spt_none ho, hu⟩

theorem Good.step (h : Good s) (hs : Vm.step s a = some s') : Good s' :=
  ⟨h.inv.step h.unmapped hs, maps_step h.maps hs⟩

/-- **The invariant holds in every state of every run.** -/
theorem good_of_reachable {ok : St → Act → Prop} (h : sys.ReachableVia ok s) : Good s := by
  refine h.invariant ?_ ?_
  · exact fun x hx => ⟨Inv.initial hx, maps_init hx⟩
  · exact fun x a y hx _ hs => hx.step hs

end Steps

/-- A machine whose files are empty, with zeros in memory and in the swap slots. -/
def zeroed (userPages poolSize swapSize : ℕ) : St :=
  initial userPages poolSize swapSize (fun _ => ⟨0, fun _ => 0, false⟩) (fun _ _ => 0) fun _ _ => 0

theorem zeroed_init (userPages poolSize swapSize : ℕ) :
    sys.init (zeroed userPages poolSize swapSize) :=
  ⟨userPages, poolSize, swapSize, _, _, _, rfl⟩

end Vm
end Pintos

import Pintos.Vm.Coherence

/-!
# `frame_evict` keeps the invariant

For each statement: what it is as a step of the page that is evicted, and that it is no step of any
other page. Before that, rules for the actions that change tables of one page, which the other
functions of `vm/` need, too.
-/

namespace Pintos
namespace Vm

variable {s s' : St} {t u k : ℕ} {κ : Key} {c : Caller} {e : Entry} {p : Pc}

/-! ### Rules for tables of one page -/

theorem Inv.panic (h : Inv s) (x : Panic) : Inv (s.panic x) :=
  ⟨h.shape, h.content, h.pages, h.slots, h.nodup, h.evicts, h.victim, h.serves, h.bound, h.pool,
    h.dir, h.clean, h.fresh⟩

/-- The clock hand, the mappings and whether a process is in a system call do not matter. -/
theorem Inv.aux (h : Inv s) (mmaps : ℕ → List Mapping) (nextMapid : ℕ → ℕ) (call : ℕ → Bool)
    (hand : Option ℕ) :
    Inv { s with mmaps := mmaps, nextMapid := nextMapid, call := call, hand := hand } :=
  ⟨h.shape, h.content, h.pages, h.slots, h.nodup, h.evicts, h.victim, h.serves, h.bound, h.pool,
    h.dir, h.clean, h.fresh⟩

/-- Change the tables of the page `κ`. -/
def St.edit (s : St) (κ : Key) (e : Option Entry) (q : Pte) (w : Option Bool) : St :=
  { s with
    spt := Function.update s.spt κ e
    pte := Function.update s.pte κ q
    checked := Function.update s.checked κ w }

theorem St.setEntry_eq (f : Entry → Entry) :
    s.setEntry κ f = s.edit κ ((s.spt κ).map f) (s.pte κ) (s.checked κ) := by
  simp [St.setEntry, St.edit]

theorem St.setPte_eq (f : Pte → Pte) :
    s.setPte κ f = s.edit κ (s.spt κ) (f (s.pte κ)) (s.checked κ) := by
  simp [St.setPte, St.edit]

theorem St.leaving_edit {o : Option Entry} {q : Pte} {w : Option Bool} {κ' : Key}
    (hv : (s.pc t).victim = none) (hv' : p.victim = none) :
    ((s.edit κ o q w).setPc t p).leaving κ' = s.leaving κ' :=
  leaving_setPc (s := s.edit κ o q w) hv hv' κ'

/-- The process changes tables of its page `u`, and goes on at `p`. -/
theorem Inv.edit_own {o : Option Entry} {q : Pte} {w : Option Bool} (h : Inv s)
    (hphase : ∀ v, v ≠ u → p.phase v = (s.pc t).phase v) (hp : (s.pc t).Like p)
    (he : p.evicts = true → s.lock .frame = some t) (hbound : s.spt (t, u) = none → o = none)
    (hpresent : q.present = true → (s.pte (t, u)).present = true)
    (hplace : View.place { s.view (t, u) with phase := p.phase u, entry := o, pte := q, checked := w } =
      (s.view (t, u)).place)
    (hslot : View.slot { s.view (t, u) with phase := p.phase u, entry := o, pte := q, checked := w } =
      (s.view (t, u)).slot)
    (hstep : PageStep (t, u) (s.page (t, u))
      { s.page (t, u) with phase := p.phase u, entry := o, pte := q, checked := w }) :
    Inv ((s.edit (t, u) o q w).setPc t p) := by
  have hleaving : ∀ κ, ((s.edit (t, u) o q w).setPc t p).leaving κ = s.leaving κ := fun _ =>
    St.leaving_edit hp.victim hp.victim'
  have hview : ((s.edit (t, u) o q w).setPc t p).view (t, u) =
      { s.view (t, u) with phase := p.phase u, entry := o, pte := q, checked := w } := by
    simp only [St.view, hleaving, St.setPc_self]
    simp [St.edit, St.setPc, St.frames]
  refine h.of_tables (t := t) (κ := (t, u)) ⟨⟨rfl, rfl, rfl, rfl, rfl, rfl, rfl, rfl, rfl, rfl, rfl⟩,
    fun _ h => St.setPc_of_ne _ p h, ?_, fun _ _ => id, fun _ _ => hleaving _, ?_, ?_, ?_,
    ?_, ?_, ?_, ?_, ?_, ?_, ?_⟩ ?_ ?_ ?_ ?_
  · intro v hne
    rw [St.setPc_self]
    exact hphase v fun hvu => hne (by rw [hvu])
  · intro κ' hκ
    exact Function.update_of_ne hκ ..
  · intro κ' hκ
    exact Function.update_of_ne hκ ..
  · intro κ' hκ
    exact Function.update_of_ne hκ ..
  · rw [St.setPc_self]
    exact he
  · intro v st hvs
    rw [St.setPc_self, hp.victim'] at hvs
    cases hvs
  · rw [St.setPc_self]
    exact hp.serves
  · rw [St.setPc_self]
    exact hp.cleared
  · rw [St.setPc_self]
    exact hp.hasDir
  · intro hn
    simpa [St.edit, St.setPc] using hbound hn
  · simpa [St.edit, St.setPc] using hpresent
  · rw [hview]
    exact hplace
  · rw [hview]
    exact hslot
  · rw [St.setPc_self]
    exact hp.flight
  · simp only [St.setPc_self, hleaving]
    have h1 : ((s.edit (t, u) o q w).setPc t p).spt (t, u) = o := by simp [St.edit, St.setPc]
    have h2 : ((s.edit (t, u) o q w).setPc t p).pte (t, u) = q := by simp [St.edit, St.setPc]
    have h3 : ((s.edit (t, u) o q w).setPc t p).checked (t, u) = w := by simp [St.edit, St.setPc]
    rw [h1, h2, h3]
    exact hstep

/-- Who evicts `v` holds `Frame_lock`, and `v` is the page that leaves. -/
theorem Inv.evicting (h : Inv s) {st : EvictPc} {v : Victim} (hp : s.pc t = .evict c u st v) :
    s.lock .frame = some t ∧ s.evicting = some (v, st) ∧ s.leaving v.page = some (v.kpage, st) ∧
      v.owner = v.page.1 := by
  have hl := h.evicts t (by rw [hp]; rfl)
  have he : s.evicting = some (v, st) := by simp [St.evicting, hl, hp, Pc.victim]
  exact ⟨hl, he, by simp [St.leaving, he], h.victim t v st (by rw [hp]; rfl)⟩

theorem St.leaving_evict {st : EvictPc} {v : Victim} (hl : s.lock .frame = some t) (κ : Key) :
    (s.setPc t (.evict c u st v)).leaving κ =
      if v.page = κ then some (v.kpage, st) else none := by
  have hl' : (s.setPc t (.evict c u st v)).lock .frame = some t := hl
  simp [St.leaving, St.evicting, hl', Pc.victim]

/-- The evicting process changes tables of the victim, and goes on in `frame_evict`. -/
theorem Inv.edit_victim {o : Option Entry} {q : Pte} {st st' : EvictPc} {v : Victim} (h : Inv s)
    (hp : s.pc t = .evict c u st v) (hbound : s.spt v.page = none → o = none)
    (hpresent : q.present = true → (s.pte v.page).present = true)
    (hslot : View.slot { s.view v.page with
        leaving := some (v.kpage, st'), entry := o, pte := q } = (s.view v.page).slot)
    (hstep : PageStep v.page (s.page v.page)
      { s.page v.page with leaving := some (v.kpage, st'), entry := o, pte := q }) :
    Inv ((s.edit v.page o q (s.checked v.page)).setPc t (.evict c u st' v)) := by
  obtain ⟨hl, hev, hlv, hown⟩ := h.evicting hp
  have hleaving : ∀ κ, ((s.edit v.page o q (s.checked v.page)).setPc t (.evict c u st' v)).leaving κ =
      if v.page = κ then some (v.kpage, st') else none := fun κ =>
    St.leaving_evict (s := s.edit v.page o q (s.checked v.page)) hl κ
  have hphase : ∀ κ : Key,
      (((s.edit v.page o q (s.checked v.page)).setPc t (.evict c u st' v)).pc κ.1).phase κ.2 =
        (s.pc κ.1).phase κ.2 := by
    intro κ
    by_cases hκ : κ.1 = t
    · rw [hκ, St.setPc_self, hp]
      rfl
    · rw [St.setPc_of_ne _ _ hκ]
      rfl
  have hview : ((s.edit v.page o q (s.checked v.page)).setPc t (.evict c u st' v)).view v.page =
      { s.view v.page with leaving := some (v.kpage, st'), entry := o, pte := q } := by
    simp only [St.view, hphase, hleaving]
    simp [St.edit, St.setPc, St.frames]
  refine h.of_tables (t := t) (κ := v.page) ⟨⟨rfl, rfl, rfl, rfl, rfl, rfl, rfl, rfl, rfl, rfl, rfl⟩,
    fun _ h => St.setPc_of_ne _ _ h, fun w _ => hphase (t, w), fun _ _ => id, ?_, ?_, ?_, ?_, ?_, ?_,
    ?_, ?_, ?_, ?_, ?_⟩ ?_ ?_ ?_ ?_
  · intro κ' hκ
    rw [hleaving, if_neg (Ne.symm hκ)]
    simp [St.leaving, hev, Ne.symm hκ]
  · intro κ' hκ
    exact Function.update_of_ne hκ ..
  · intro κ' hκ
    exact Function.update_of_ne hκ ..
  · intro κ' hκ
    exact Function.update_of_ne hκ ..
  · exact fun _ => hl
  · intro v' st'' hvs
    rw [St.setPc_self] at hvs
    cases hvs
    exact hown
  · rw [St.setPc_self]
    have := h.serves t
    rw [hp] at this
    exact this
  · rw [St.setPc_self, hp]
    rfl
  · rw [St.setPc_self, hp]
    rfl
  · intro hn
    simpa [St.edit, St.setPc] using hbound hn
  · simpa [St.edit, St.setPc] using hpresent
  · rw [hview]
    simp only [View.place, St.view, hlv]
  · rw [hview]
    exact hslot
  · rw [St.setPc_self, hp]
    rfl
  · rw [hphase, hleaving, if_pos rfl]
    have h1 : ((s.edit v.page o q (s.checked v.page)).setPc t (.evict c u st' v)).spt v.page = o := by
      simp [St.edit, St.setPc]
    have h2 : ((s.edit v.page o q (s.checked v.page)).setPc t (.evict c u st' v)).pte v.page = q := by
      simp [St.edit, St.setPc]
    have h3 : ((s.edit v.page o q (s.checked v.page)).setPc t (.evict c u st' v)).checked v.page =
        s.checked v.page := by simp [St.edit, St.setPc]
    rw [h1, h2, h3]
    exact hstep

theorem Phase.freed_of {ph : Phase} (h : ∀ k st, ph ≠ .load k st) : ph.freed = false := by
  cases ph <;> simp_all [Phase.freed]

/-- The process turns to its page `u`, or away from it. -/
theorem Inv.turn (h : Inv s) (u : ℕ) (hphase : ∀ v, v ≠ u → p.phase v = (s.pc t).phase v)
    (hp : (s.pc t).Like p) (he : p.evicts = true → s.lock .frame = some t)
    (hfrom : ∀ k st, (s.pc t).phase u ≠ .load k st) (hto : ∀ k st, p.phase u ≠ .load k st)
    (hlive : (p.phase u).live = true → ((s.pc t).phase u).live = true)
    (hstack : p.phase u ≠ .wait .stack)
    (hshape : View.Shape (t, u) { s.view (t, u) with phase := p.phase u }) :
    Inv (s.setPc t p) :=
  h.goto u hphase hp he (Phase.freed_of hfrom) (Phase.freed_of hto)
    (.turn _ _ hshape hfrom hto hlive hstack)

/-! ### `frame_evict` -/

section Evict

variable {v : Victim}

/-- The victim has its entry. -/
theorem Inv.victim_entry {st : EvictPc} (h : Inv s) (hp : s.pc t = .evict c u st v) :
    ∃ e, s.spt v.page = some e := by
  obtain ⟨-, -, hlv, -⟩ := h.evicting hp
  obtain ⟨-, -, -, e, he, -⟩ := (h.shape v.page).leaves hlv
  exact ⟨e, he⟩

theorem Inv.evict_clearKpage (h : Inv s) (hp : s.pc t = .evict c u .clearKpage v) :
    Inv (evict s t c u v .clearKpage) := by
  obtain ⟨-, -, hlv, -⟩ := h.evicting hp
  obtain ⟨e, he⟩ := h.victim_entry hp
  rw [evict, St.setEntry_eq, he]
  refine h.edit_victim hp (fun hn => ?_) id ?_ (.evictKpage _ _ e hlv he)
  · rw [hn] at he
    cases he
  · simp [View.slot, St.view, hlv, he, EvictPc.slot]

theorem Inv.evict_clearPte (h : Inv s) (hp : s.pc t = .evict c u .clearPte v) :
    Inv (evict s t c u v .clearPte) := by
  obtain ⟨-, -, hlv, hown⟩ := h.evicting hp
  have hκ : (v.owner, v.page.2) = v.page := by rw [hown]
  rw [evict, hκ, St.setPte_eq]
  refine h.edit_victim hp id (fun hpr => by cases hpr) ?_ (.evictPte _ _ hlv)
  simp [View.slot, St.view, hlv, EvictPc.slot]

theorem Inv.evict_dirty (h : Inv s) (hp : s.pc t = .evict c u .testDirty v)
    (he : s.spt v.page = some e) (hd : e.type = .anon ∨ (s.pte v.page).dirty = true) :
    Inv (s.setPc t (.evict c u .swapAlloc v)) := by
  obtain ⟨-, -, hlv, -⟩ := h.evicting hp
  have heq : s = s.edit v.page (s.spt v.page) (s.pte v.page) (s.checked v.page) := by simp [St.edit]
  rw [heq]
  refine h.edit_victim hp id id ?_ (.evictDirty _ _ e hlv he hd)
  simp [View.slot, St.view, hlv, EvictPc.slot]

theorem Inv.evict_setSlot {slot : ℕ} (h : Inv s) (hp : s.pc t = .evict c u (.setSlot slot) v) :
    Inv (evict s t c u v (.setSlot slot)) := by
  obtain ⟨-, -, hlv, -⟩ := h.evicting hp
  obtain ⟨hc, hph, -⟩ := (h.shape v.page).leaves hlv
  obtain ⟨e, he⟩ := h.victim_entry hp
  rw [evict, St.setEntry_eq, he]
  refine h.edit_victim hp (fun hn => ?_) id ?_ (.setSlot _ _ slot e hlv he)
  · rw [hn] at he
    cases he
  · have hfreed : ((s.pc v.page.1).phase v.page.2).freed = false := by
      have hph' : (s.pc v.page.1).phase v.page.2 = .idle ∨ (s.pc v.page.1).phase v.page.2 = .known ∨
        (s.pc v.page.1).phase v.page.2 = .wait .plain := hph
      obtain h | h | h := hph' <;> simp [h, Phase.freed]
    simp [View.slot, St.view, hlv, he, EvictPc.slot, hfreed]

/-- The evicting process goes on at `p` and may change the entry of the victim, its slot and the
bitmap of the slots. -/
structure Evicts (s s' : St) (t : ℕ) (v : Victim) (p : Pc) : Prop where
  pc : s'.pc = Function.update s.pc t p
  phase : ∀ w, p.phase w = (s.pc t).phase w
  victim : ∀ v' st', p.victim = some (v', st') → v' = v
  cleared : p.cleared = none
  hasDir : p.hasDir = true
  serves : p.Serves
  spt : ∀ κ, κ ≠ v.page → s'.spt κ = s.spt κ
  swap : ∀ κ, κ ≠ v.page → ∀ k, (s.view κ).slot = some k → s'.swap k = s.swap k
  lock : s'.lock = s.lock
  pte : s'.pte = s.pte
  tables : s'.tables = s.tables
  frameList : s'.frameList = s.frameList
  checked : s'.checked = s.checked
  ghost : s'.ghost = s.ghost
  mem : s'.mem = s.mem
  used : s'.used = s.used
  files : s'.files = s.files
  userPages : s'.userPages = s.userPages
  poolSize : s'.poolSize = s.poolSize
  pagedir : s'.pagedir = s.pagedir

namespace Evicts

variable (h : Inv s) {st : EvictPc} (hp : s.pc t = .evict c u st v) (hE : Evicts s s' t v p)
include hE

theorem self : s'.pc t = p := by rw [hE.pc, Function.update_self]

include h hp

theorem leaving (κ : Key) :
    s'.leaving κ = if v.page = κ then p.victim.map fun x => (x.1.kpage, x.2) else none := by
  obtain ⟨hl, -⟩ := h.evicting hp
  simp only [St.leaving, St.evicting, hE.lock, hl, Option.bind_some, hE.self]
  cases hv : p.victim with
  | none => simp
  | some x => simp [hE.victim x.1 x.2 hv]

theorem sound : Sound s s' t where
  userPages := hE.userPages
  poolSize := hE.poolSize
  pc t' ht' := by rw [hE.pc, Function.update_of_ne ht']
  lock t' _ hl := by rw [hE.lock, hl]
  evicts _ := by
    rw [hE.lock]
    exact (h.evicting hp).1
  victim v' st' hv := by
    rw [hE.self] at hv
    rw [hE.victim v' st' hv]
    exact (h.evicting hp).2.2.2
  serves := by
    rw [hE.self]
    exact hE.serves
  pagedir t' _ := by rw [hE.pagedir]
  dir := by
    rw [hE.pagedir, hE.self, hE.hasDir, h.dir t, hp]
    rfl
  flight t' _ k _ := by rw [hE.mem]
  clean k hk := by
    rw [hE.self, hE.cleared] at hk
    cases hk

/-- The other pages see nothing of it. -/
theorem local_ : Local s s' t v.page := by
  obtain ⟨-, hev, -⟩ := h.evicting hp
  refine Local.of ?_ ?_ ?_ hE.spt ?_ hE.tables ?_ ?_ ?_ ?_ hE.swap
  · intro t' ht'
    rw [hE.pc, Function.update_of_ne ht']
  · intro w _
    rw [hE.self]
    exact hE.phase w
  · intro κ hκ
    rw [hE.leaving h hp, if_neg (Ne.symm hκ)]
    simp [St.leaving, hev, Ne.symm hκ]
  · intro κ _
    rw [hE.pte]
  · intro κ _
    rw [St.frames, St.frames, hE.frameList]
  · intro κ _
    rw [hE.checked]
  · intro κ _
    rw [hE.ghost]
  · intro κ _ k _
    rw [hE.mem]

theorem view : s'.view v.page = { s.view v.page with
    leaving := p.victim.map fun x => (x.1.kpage, x.2), entry := s'.spt v.page } := by
  have hphase : (s'.pc v.page.1).phase v.page.2 = (s.pc v.page.1).phase v.page.2 := by
    by_cases ht : v.page.1 = t
    · rw [ht, hE.self]
      exact hE.phase _
    · rw [hE.pc, Function.update_of_ne ht]
  simp only [St.view, hphase, hE.leaving h hp, if_true, hE.pte, hE.tables, St.frames, hE.frameList,
    hE.checked]

/-- The rule for a statement of `frame_evict` after the loop. -/
theorem inv (hbound : s.spt v.page = none → s'.spt v.page = none)
    (hpages : Holders s'.used s'.holding) (hslots : Holders s'.swapUsed fun κ => (s'.view κ).slot)
    (hstep : PageStep v.page (s.page v.page) (s'.page v.page)) : Inv s' := by
  refine h.of_local (hE.sound h hp) (hE.local_ h hp) hstep hpages hslots ?_ ?_ ?_ hE.files ?_
  · rw [hE.frameList]
    exact h.nodup
  · rw [hE.used]
    exact h.pool
  · intro hb
    rw [hE.pte]
    exact ⟨hbound (h.bound _ hb).1, (h.bound _ hb).2⟩
  · rw [hE.ghost]
    exact h.fresh v.page

end Evicts

theorem find_firstFree {used : ℕ → Bool} {n : ℕ} (h : firstFree used n = some k) :
    used k = false ∧ k < n := by
  have hk := List.find?_some h
  have hm := List.mem_of_find?_eq_some h
  exact ⟨by simpa using hk, by simpa using hm⟩

theorem Inv.evict_swapAlloc {slot : ℕ} (h : Inv s) (hp : s.pc t = .evict c u .swapAlloc v)
    (hs : firstFree s.swapUsed s.swapSize = some slot) :
    Inv ({ s with swapUsed := Function.update s.swapUsed slot true }.setPc t
      (.evict c u (.swapWrite slot) v)) := by
  obtain ⟨-, -, hlv, -⟩ := h.evicting hp
  obtain ⟨-, -, -, e, he, -, hslot, -⟩ := (h.shape v.page).leaves hlv
  have hserves := h.serves t
  rw [hp] at hserves
  have hE : Evicts s ({ s with swapUsed := Function.update s.swapUsed slot true }.setPc t
      (.evict c u (.swapWrite slot) v)) t v (.evict c u (.swapWrite slot) v) :=
    ⟨rfl, fun w => by rw [hp]; rfl, fun v' st' hv => by cases hv; rfl, rfl, rfl, hserves, fun _ _ => rfl,
      fun _ _ _ _ => rfl, rfl, rfl, rfl, rfl, rfl, rfl, rfl, rfl, rfl, rfl, rfl, rfl⟩
  have hL := hE.local_ h hp
  have hview := hE.view h hp
  refine hE.inv h hp id (hL.pages_keep h rfl ?_ ?_) (hL.slots_take h (find_firstFree hs).1 rfl ?_ ?_) ?_
  · rw [hview]
    simp [View.place, St.view, hlv, Pc.victim]
  · rw [hE.self, hp]
    rfl
  · have hes : s.spt v.page = some e := he
    simp [View.slot, St.view, hlv, EvictPc.slot, hes, hslot]
  · rw [hview]
    simp [View.slot, Pc.victim, EvictPc.slot]
  · have hpage : ({ s with swapUsed := Function.update s.swapUsed slot true }.setPc t
        (.evict c u (.swapWrite slot) v)).page v.page =
        { s.page v.page with leaving := some (v.kpage, .swapWrite slot), saved := s.swap slot } := by
      simp only [St.page, hview]
      simp [View.place, View.slot, St.view, hlv, Pc.victim, EvictPc.slot, St.setPc]
    rw [hpage]
    exact .swapAlloc _ _ slot _ hlv

theorem Inv.evict_swapWrite {slot : ℕ} (h : Inv s) (hp : s.pc t = .evict c u (.swapWrite slot) v) :
    Inv (evict s t c u v (.swapWrite slot)) := by
  obtain ⟨-, -, hlv, -⟩ := h.evicting hp
  have hserves := h.serves t
  rw [hp] at hserves
  have hmine : (s.view v.page).slot = some slot := by
    simp [View.slot, St.view, hlv, EvictPc.slot]
  have hE : Evicts s (evict s t c u v (.swapWrite slot)) t v (.evict c u (.setSlot slot) v) := by
    refine ⟨rfl, fun w => by rw [hp]; rfl, fun v' st' hv => by cases hv; rfl, rfl, rfl, hserves,
      fun _ _ => rfl, ?_, rfl, rfl, rfl, rfl, rfl, rfl, rfl, rfl, rfl, rfl, rfl, rfl⟩
    intro κ hκ k hk
    refine Function.update_of_ne ?_ ..
    rintro rfl
    exact hκ (h.slot_inj hk hmine)
  have hL := hE.local_ h hp
  have hview := hE.view h hp
  refine hE.inv h hp id (hL.pages_keep h rfl ?_ ?_) (hL.slots_keep h rfl ?_) ?_
  · rw [hview]
    simp [View.place, St.view, hlv, Pc.victim]
  · rw [hE.self, hp]
    rfl
  · rw [hview, hmine]
    simp [View.slot, Pc.victim, EvictPc.slot]
  · have hpage : (evict s t c u v (.swapWrite slot)).page v.page =
        { s.page v.page with
          leaving := some (v.kpage, .setSlot slot), saved := (s.page v.page).data } := by
      simp only [St.page, hview]
      simp [View.place, View.slot, St.view, hlv, Pc.victim, EvictPc.slot, St.setPc, evict]
    rw [hpage]
    exact .swapWrite _ _ slot hlv

/-- The end of `frame_evict`: the frame passes to the evicting process. -/
theorem Inv.evict_end {st : EvictPc} (h : Inv s) (hp : s.pc t = .evict c u st v)
    (hE : Evicts s s' t v (.evictUnlock c u v.kpage)) (hu : s'.swapUsed = s.swapUsed)
    (hsw : s'.swap = s.swap) (hst : st.slot = none) (hpr : (s.pte v.page).present = false)
    (he : s.spt v.page = some e) (e' : Entry) (he' : s'.spt v.page = some e')
    (hslot : e'.swapSlot = e.swapSlot)
    (hstep : PageStep v.page (s.page v.page)
      { s.page v.page with leaving := none, data := blank, entry := some e' }) : Inv s' := by
  obtain ⟨-, -, hlv, -⟩ := h.evicting hp
  obtain ⟨-, hph, hf, -⟩ := (h.shape v.page).leaves hlv
  have hL := hE.local_ h hp
  have hview := hE.view h hp
  have hplace : (s'.view v.page).place = none := by
    rw [hview]
    have hf' : s.frames v.page = [] := hf
    simp [View.place, St.view, Pc.victim, hf', hpr]
  have hslots : (s'.view v.page).slot = (s.view v.page).slot := by
    rw [hview]
    simp [View.slot, St.view, hlv, Pc.victim, hst, he, he', hslot]
  refine hE.inv h hp (fun hn => by rw [he] at hn; cases hn)
    (hL.pages_out h (k := v.kpage) hE.used ?_ hplace ?_ ?_) (hL.slots_keep h hu hslots) ?_
  · simp [View.place, St.view, hlv]
  · rw [hp]
    rfl
  · rw [hE.self]
    rfl
  · have hpage : s'.page v.page =
        { s.page v.page with leaving := none, data := blank, entry := some e' } := by
      simp only [St.page, hplace, hslots, hsw, hE.ghost]
      rw [hview, he']
      rfl
    rw [hpage]
    exact hstep

theorem Inv.evict_clean (h : Inv s) (hp : s.pc t = .evict c u .testDirty v)
    (he : s.spt v.page = some e) (hd : ¬ (e.type = .anon ∨ (s.pte v.page).dirty = true)) :
    Inv (s.setPc t (.evictUnlock c u v.kpage)) := by
  obtain ⟨-, -, hlv, -⟩ := h.evicting hp
  obtain ⟨-, -, -, -, -, -, -, hpr⟩ := (h.shape v.page).leaves hlv
  have hserves := h.serves t
  rw [hp] at hserves
  have hE : Evicts s (s.setPc t (.evictUnlock c u v.kpage)) t v (.evictUnlock c u v.kpage) :=
    ⟨rfl, fun w => by rw [hp]; rfl, fun v' st' hv => (by cases hv), rfl, rfl, hserves, fun _ _ => rfl,
      fun _ _ _ _ => rfl, rfl, rfl, rfl, rfl, rfl, rfl, rfl, rfl, rfl, rfl, rfl, rfl⟩
  refine h.evict_end hp hE rfl rfl rfl hpr he e he rfl ?_
  have hstep := PageStep.evictClean (κ := v.page) (s.page v.page) v.kpage e hlv he hd
  have hentry : (s.page v.page).entry = some e := he
  rw [← hentry]
  exact hstep

theorem Inv.evict_setType (h : Inv s) (hp : s.pc t = .evict c u .setType v) :
    Inv (evict s t c u v .setType) := by
  obtain ⟨-, -, hlv, -⟩ := h.evicting hp
  obtain ⟨-, -, -, e, he, -, -, hpr⟩ := (h.shape v.page).leaves hlv
  have hes : s.spt v.page = some e := he
  have hserves := h.serves t
  rw [hp] at hserves
  have hE : Evicts s (evict s t c u v .setType) t v (.evictUnlock c u v.kpage) := by
    refine ⟨rfl, fun w => by rw [hp]; rfl, fun v' st' hv => (by cases hv), rfl, rfl, hserves, ?_,
      fun _ _ _ _ => rfl, rfl, rfl, rfl, rfl, rfl, rfl, rfl, rfl, rfl, rfl, rfl, rfl⟩
    intro κ hκ
    exact Function.update_of_ne hκ ..
  refine h.evict_end hp hE rfl rfl rfl hpr hes
    { e with type := if e.type = .bin then .anon else e.type } ?_ rfl
    (.setType _ _ e hlv he)
  simp [evict, St.setEntry, St.setPc, hes]

/-- **A statement of `frame_evict`** after the loop keeps the invariant. -/
theorem Inv.evict {st : EvictPc} (h : Inv s) (hp : s.pc t = .evict c u st v) :
    Inv (evict s t c u v st) := by
  cases st with
  | clearKpage => exact h.evict_clearKpage hp
  | clearPte => exact h.evict_clearPte hp
  | testDirty =>
    obtain ⟨-, -, -, hown⟩ := h.evicting hp
    have hκ : (v.owner, v.page.2) = v.page := by rw [hown]
    simp only [Vm.evict, hκ]
    split
    · exact h.panic _
    · next e he =>
      split
      · next hd => exact h.evict_dirty hp he hd
      · next hd => exact h.evict_clean hp he hd
  | swapAlloc =>
    simp only [Vm.evict]
    split
    · exact h.panic _
    · next slot hs => exact h.evict_swapAlloc hp hs
  | swapWrite slot => exact h.evict_swapWrite hp
  | setSlot slot => exact h.evict_setSlot hp
  | setType => exact h.evict_setType hp

end Evict

section Sweep

/-- The processor or the clock changes an accessed bit. -/
theorem Inv.setAccessed (h : Inv s) (κ : Key) (b : Bool) :
    Inv (s.setPte κ fun p => { p with accessed := b }) := by
  have hpte : (s.setPte κ fun p => { p with accessed := b }).pte κ =
      { s.pte κ with accessed := b } := by simp [St.setPte]
  refine h.of_tables (t := κ.1) (κ := κ) ⟨⟨rfl, rfl, rfl, rfl, rfl, rfl, rfl, rfl, rfl, rfl, rfl⟩,
    fun _ _ => rfl, fun _ _ => rfl, fun _ _ => id, fun _ _ => rfl, fun _ _ => rfl, ?_, fun _ _ => rfl,
    h.evicts _, h.victim _, h.serves _, rfl, rfl, id, ?_⟩ ?_ rfl rfl ?_
  · intro κ' hκ
    exact Function.update_of_ne hκ ..
  · rw [hpte]
    exact id
  · simp only [View.place, St.view, hpte]
    rfl
  · rw [hpte]
    exact .accessed _ b

/-- `frame_evict` takes its victim off `Frame_list`. -/
theorem Inv.sweep_chosen {i n j : ℕ} {f : Frame} {hand : Option ℕ} (h : Inv s)
    (hp : s.pc t = .sweep c u i n) (hf : s.frameList[j]? = some f) (hpage : f.page = some κ)
    (hpin : f.pinned = false) :
    Inv ({ s with frameList := s.frameList.eraseIdx j, hand := hand }.setPc t
      (.evict c u .clearKpage ⟨κ, f.owner, f.kpage⟩)) := by
  have hl := h.evicts t (by rw [hp]; rfl)
  have hnone : ∀ κ, s.leaving κ = none := by
    intro κ
    simp [St.leaving, St.evicting, hl, hp, Pc.victim]
  obtain ⟨hframes, hplace, hpg⟩ := h.frame (List.mem_of_getElem? hf)
  obtain rfl : κ = (f.owner, f.upage) := by simpa [hpage] using hpg
  have hf' : f = frameOf (f.owner, f.upage) f.kpage (some (f.owner, f.upage)) false := by
    rw [← hpage, ← hpin]
    rfl
  rw [eraseIdx_eq_filter h.nodup hf]
  generalize hs' : ({ s with
    frameList := s.frameList.filter fun g => g.kpage ≠ f.kpage, hand := hand }.setPc t
      (.evict c u .clearKpage ⟨(f.owner, f.upage), f.owner, f.kpage⟩)) = s'
  have hself : s'.pc t = .evict c u .clearKpage ⟨(f.owner, f.upage), f.owner, f.kpage⟩ := by
    rw [← hs', St.setPc_self]
  have hother : ∀ t', t' ≠ t → s'.pc t' = s.pc t' := by
    intro t' ht'
    rw [← hs', St.setPc_of_ne _ _ ht']
  have hlock : s'.lock = s.lock := by rw [← hs']; rfl
  have hleaving : ∀ κ, s'.leaving κ =
      if (f.owner, f.upage) = κ then some (f.kpage, .clearKpage) else none := by
    intro κ
    simp [St.leaving, St.evicting, hlock, hl, hself, Pc.victim]
  have hphase : ∀ κ : Key, (s'.pc κ.1).phase κ.2 = (s.pc κ.1).phase κ.2 := by
    intro κ
    by_cases hκ : κ.1 = t
    · rw [hκ, hself, hp]
      rfl
    · rw [hother _ hκ]
  have hframes' : s'.frames (f.owner, f.upage) = [] := by
    have he : s'.frames (f.owner, f.upage) =
        (s.frames (f.owner, f.upage)).filter fun g => g.kpage ≠ f.kpage := by
      rw [St.frames, St.frames, ← hs', List.filter_comm]
      rfl
    rw [he, hframes]
    simp
  have hview : s'.view (f.owner, f.upage) = { s.view (f.owner, f.upage) with
      leaving := some (f.kpage, .clearKpage), frames := [] } := by
    have hph : (s'.pc f.owner).phase f.upage = (s.pc f.owner).phase f.upage :=
      hphase (f.owner, f.upage)
    simp only [St.view, hph, hleaving, hframes', if_true]
    rw [← hs']
    rfl
  have hL : Local s s' t (f.owner, f.upage) := by
    refine Local.of hother (fun w _ => hphase (t, w)) ?_ ?_ ?_ ?_ ?_ ?_ ?_ ?_ ?_
    · intro κ hκ
      rw [hleaving, hnone, if_neg (Ne.symm hκ)]
    · intro κ _
      rw [← hs']
      rfl
    · intro κ _
      rw [← hs']
      rfl
    · rw [← hs']
      rfl
    · intro κ hκ
      have hne : (s.view κ).place ≠ some f.kpage := fun hκp => hκ (h.place_inj hκp hplace)
      rw [← h.frames_filter_ne hne, ← hs']
      rfl
    · intro κ _
      rw [← hs']
      rfl
    · intro κ _
      rw [← hs']
      rfl
    · intro κ _ k _
      rw [← hs']
      rfl
    · intro κ _ k _
      rw [← hs']
      rfl
  have hserves := h.serves t
  rw [hp] at hserves
  have hsound : Sound s s' t := by
    refine ⟨by rw [← hs']; rfl, by rw [← hs']; rfl, hother, ?_, ?_, ?_, ?_, ?_, ?_, ?_, ?_⟩
    · intro t' _ hl'
      rw [hlock, hl']
    · intro _
      rw [hlock, hl]
    · intro v st hv
      rw [hself] at hv
      cases hv
      rfl
    · rw [hself]
      exact hserves
    · intro t' _
      rw [← hs']
      rfl
    · rw [hself, ← hs']
      exact (h.dir t).trans (by rw [hp]; rfl)
    · intro t' _ k _
      rw [← hs']
      rfl
    · intro k hk
      rw [hself] at hk
      cases hk
  have hplace' : (s'.view (f.owner, f.upage)).place = (s.view (f.owner, f.upage)).place := by
    rw [hplace, hview]
    rfl
  have hslot : (s'.view (f.owner, f.upage)).slot = (s.view (f.owner, f.upage)).slot := by
    rw [hview]
    simp [View.slot, St.view, hnone, EvictPc.slot]
  refine h.of_local hsound hL ?_ (hL.pages_keep h (by rw [← hs']; rfl) hplace' ?_)
    (hL.slots_keep h (by rw [← hs']; rfl) hslot) ?_ ?_ ?_ (by rw [← hs']; rfl) ?_
  · have hpage' : s'.page (f.owner, f.upage) = { s.page (f.owner, f.upage) with
        leaving := some (f.kpage, .clearKpage), frames := [] } := by
      simp only [St.page, hplace', hslot]
      rw [hview, ← hs']
      rfl
    rw [hpage']
    refine .chosen _ _ (hnone _) ?_
    rw [← hf']
    exact hframes
  · rw [hself, hp]
    rfl
  · rw [← hs']
    exact (List.filter_sublist.map _).nodup h.nodup
  · rw [← hs']
    exact h.pool
  · rw [← hs']
    exact h.bound _
  · rw [← hs']
    exact h.fresh _

/-- **One turn of the loop of `frame_evict`** keeps the invariant. -/
theorem Inv.sweep {i n : ℕ} (h : Inv s) (hp : s.pc t = .sweep c u i n) :
    Inv (sweep s t c u i n) := by
  have hl := h.evicts t (by rw [hp]; rfl)
  have hserves := h.serves t
  rw [hp] at hserves
  have hskip : ∀ {x : St}, Inv x → x.pc t = s.pc t → x.lock = s.lock →
      Inv (x.setPc t (.sweep c u (i + 1) n)) := by
    intro x hx hpc hlock
    refine hx.stay ?_ ?_ fun _ => by rw [hlock, hl]
    all_goals rw [hpc, hp]
    · intro w
      rfl
    · exact ⟨rfl, rfl, rfl, rfl, rfl, hserves⟩
  have hnext := fun hand => h.aux s.mmaps s.nextMapid s.call hand
  unfold Vm.sweep
  split
  · exact h.panic _
  · dsimp only
    split
    · exact h.panic _
    · next f hf =>
      split
      · exact hskip (hnext _) rfl rfl
      · next κ hpage =>
        split
        · exact hskip (hnext _) rfl rfl
        · next hpin =>
          split
          · exact h.panic _
          · split
            · exact hskip ((hnext _).setAccessed _ _) rfl rfl
            · exact h.sweep_chosen hp hf hpage (by simpa using hpin)

end Sweep

end Vm
end Pintos

import Pintos.Lib.Holders
import Pintos.Vm.Page

/-!
# Every action is a step of every page

The invariant of the paging code: the tables agree about each page and its bytes are where they should
be (`View.Shape` and `Page.Content`), every page of the user pool and every swap slot in use has one
holder, and the few facts about the locks and the page directories that this needs.
-/

namespace Pintos
namespace Vm

/-! ### The page of a state -/

/-- The victim that a process at `p` is evicting. -/
def Pc.victim : Pc → Option (Victim × EvictPc)
  | .evict _ _ st v => some (v, st)
  | _ => none

/-- The process is between `lock_acquire` and `lock_release` of `frame_evict`. -/
def Pc.evicts : Pc → Bool
  | .sweep _ _ _ _ | .evict _ _ _ _ | .evictUnlock _ _ _ => true
  | _ => false

/-- The frame that a process at `p` holds and that is not the frame of a page. -/
def Pc.flight : Pc → Option ℕ
  | .evictUnlock _ _ k | .makeFrame _ _ k | .push _ _ k | .freePage _ _ k
  | .unmap _ _ _ (.freePage k) => some k
  | _ => none

/-- The frame that a process at `p` holds and that is cleared, for `PAL_ZERO`. -/
def Pc.cleared : Pc → Option ℕ
  | .makeFrame c _ k | .push c _ k => if c.zero then some k else none
  | _ => none

/-- The process has a page directory. -/
def Pc.hasDir : Pc → Bool
  | .absent | .start | .noDir | .noDirClose | .exitPages => false
  | _ => true

/-- A call for a page of a mapping is for that page of the mapping. -/
def Caller.Serves : Caller → ℕ → Prop
  | .unmap _ m i, u => u = m.addr + i
  | _, _ => True

/-- The statements that `setup_stack` has. -/
def LoadPc.ofStack : LoadPc → Bool
  | .setPage false | .setKpage | .install | .free => true
  | _ => false

/-- The callers at `p` are called for the page that `p` is about. -/
def Pc.Serves : Pc → Prop
  | .alloc c u | .evictLock c u | .sweep c u _ _ | .evict c u _ _ | .evictUnlock c u _
  | .makeFrame c u _ | .push c u _ | .freePage c u _ => c.Serves u
  | .load c u _ st => c.Serves u ∧ (c = .setupStack → st.ofStack = true)
  | _ => True

/-- A process that goes from `p` to `q` does nothing that concerns more than one page. -/
structure Pc.Like (p q : Pc) : Prop where
  victim : p.victim = none
  victim' : q.victim = none
  flight : q.flight = p.flight
  cleared : q.cleared = p.cleared
  hasDir : q.hasDir = p.hasDir
  serves : q.Serves

theorem Pc.flight_of_cleared {p : Pc} {k : ℕ} (h : p.cleared = some k) : p.flight = some k := by
  cases p <;> simp_all [Pc.cleared, Pc.flight]

/-- The eviction that is going on. -/
def St.evicting (s : St) : Option (Victim × EvictPc) :=
  (s.lock .frame).bind fun t => (s.pc t).victim

def St.leaving (s : St) (κ : Key) : Option (ℕ × EvictPc) :=
  s.evicting.bind fun x => if x.1.page = κ then some (x.1.kpage, x.2) else none

def St.frames (s : St) (κ : Key) : List Frame :=
  s.frameList.filter fun f => f.owner = κ.1 ∧ f.upage = κ.2

def St.view (s : St) (κ : Key) : View where
  phase := (s.pc κ.1).phase κ.2
  leaving := s.leaving κ
  entry := s.spt κ
  pte := s.pte κ
  table := s.tables (κ.1, κ.2 / tableSize)
  frames := s.frames κ
  checked := s.checked κ

def St.page (s : St) (κ : Key) : Page where
  toView := s.view κ
  data := (s.view κ).place.elim blank s.mem
  saved := (s.view κ).slot.elim blank s.swap
  ghost := s.ghost κ

/-- Who holds a frame: a page, or a process that is about to give it to a page or to free it. -/
def St.holding (s : St) : Key ⊕ ℕ → Option ℕ :=
  Sum.elim (fun κ => (s.view κ).place) fun t => (s.pc t).flight

/-- The invariant. -/
structure Inv (s : St) : Prop where
  shape : ∀ κ, (s.view κ).Shape κ
  content : ∀ κ, (s.page κ).Content
  pages : Holders s.used s.holding
  slots : Holders s.swapUsed fun κ => (s.view κ).slot
  nodup : (s.frameList.map Frame.kpage).Nodup
  evicts : ∀ t, (s.pc t).evicts = true → s.lock .frame = some t
  victim : ∀ t v st, (s.pc t).victim = some (v, st) → v.owner = v.page.1
  serves : ∀ t, (s.pc t).Serves
  bound : ∀ κ, s.userPages ≤ κ.2 → s.spt κ = none ∧ (s.pte κ).present = false
  pool : ∀ k, s.used k = true → k < s.poolSize
  dir : ∀ t, s.pagedir t = (s.pc t).hasDir
  clean : ∀ t k, (s.pc t).cleared = some k → s.mem k = blank
  fresh : ∀ κ, (s.ghost κ).touched = false → (s.ghost κ).stale = false →
    (s.ghost κ).flat = fileBytes s (s.ghost κ).file (s.ghost κ).ofs (s.ghost κ).readBytes

/-! ### `Frame_list` -/

section FrameList

variable {l : List Frame} {k : ℕ}

/-- The frames after one with the frame `k` have other frames. -/
theorem ne_of_mem_tail {f g : Frame} (hn : ((f :: l).map Frame.kpage).Nodup) (hg : g ∈ l) :
    g.kpage ≠ f.kpage := by
  rw [List.map_cons, List.nodup_cons] at hn
  intro he
  exact hn.1 (he ▸ List.mem_map_of_mem hg)

theorem filter_tail {f : Frame} (hn : ((f :: l).map Frame.kpage).Nodup) :
    l.filter (fun g => g.kpage ≠ f.kpage) = l := by
  rw [List.filter_eq_self]
  intro g hg
  simpa using ne_of_mem_tail hn hg

theorem eraseIdx_eq_filter {i : ℕ} {f : Frame} (hn : (l.map Frame.kpage).Nodup)
    (hf : l[i]? = some f) : l.eraseIdx i = l.filter fun g => g.kpage ≠ f.kpage := by
  induction l generalizing i with
  | nil => simp at hf
  | cons a l ih =>
    cases i with
    | zero =>
      obtain rfl : a = f := by simpa using hf
      rw [List.filter_cons_of_neg (by simp), filter_tail hn, List.eraseIdx_cons_zero]
    | succ i =>
      have hf' : l[i]? = some f := by simpa using hf
      have ha : a.kpage ≠ f.kpage := (ne_of_mem_tail hn (List.mem_of_getElem? hf')).symm
      rw [List.filter_cons_of_pos (by simpa using ha), List.eraseIdx_cons_succ,
        ih (List.nodup_cons.1 hn).2 hf']

theorem removeFrame_frameList {s : St} (hn : (s.frameList.map Frame.kpage).Nodup) :
    (removeFrame s k).frameList = s.frameList.filter fun f => f.kpage ≠ k := by
  cases hi : s.frameList.findIdx? fun f => f.kpage = k with
  | none =>
    simp only [removeFrame, hi]
    rw [List.findIdx?_eq_none_iff] at hi
    symm
    rw [List.filter_eq_self]
    intro f hf
    simpa using hi f hf
  | some i =>
    simp only [removeFrame, hi]
    rw [List.findIdx?_eq_some_iff_getElem] at hi
    obtain ⟨hlt, hk, -⟩ := hi
    have hk' : s.frameList[i].kpage = k := by simpa using hk
    rw [eraseIdx_eq_filter hn (List.getElem?_eq_getElem hlt), hk']

theorem updateFirst_eq_map (hn : (l.map Frame.kpage).Nodup) (g : Frame → Frame) :
    updateFirst (fun f => f.kpage = k) g l = l.map fun f => if f.kpage = k then g f else f := by
  induction l with
  | nil => rfl
  | cons f l ih =>
    by_cases hf : f.kpage = k
    · have hl : l.map (fun h => if h.kpage = k then g h else h) = l := by
        rw [List.map_congr_left (g := id), List.map_id]
        intro h hh
        rw [if_neg (hf ▸ ne_of_mem_tail hn hh), id]
      simp [updateFirst, hf, hl]
    · simp [updateFirst, hf, ih (List.nodup_cons.1 hn).2]

end FrameList


/-! ### Pages of two states -/

section Congr

variable {s s' : St} {κ : Key}

theorem St.view_congr (hphase : (s'.pc κ.1).phase κ.2 = (s.pc κ.1).phase κ.2)
    (hleaving : s'.leaving κ = s.leaving κ) (hspt : s'.spt κ = s.spt κ) (hpte : s'.pte κ = s.pte κ)
    (htables : s'.tables (κ.1, κ.2 / tableSize) = s.tables (κ.1, κ.2 / tableSize))
    (hframes : s'.frames κ = s.frames κ) (hchecked : s'.checked κ = s.checked κ) :
    s'.view κ = s.view κ := by
  simp only [St.view, hphase, hleaving, hspt, hpte, htables, hframes, hchecked]

/-- Two states have the same page if its tables are the same, and the memory and the swap slot that it
holds. -/
theorem St.page_congr (hview : s'.view κ = s.view κ) (hghost : s'.ghost κ = s.ghost κ)
    (hmem : ∀ k, (s.view κ).place = some k → s'.mem k = s.mem k)
    (hswap : ∀ k, (s.view κ).slot = some k → s'.swap k = s.swap k) : s'.page κ = s.page κ := by
  have hdata : (s.view κ).place.elim blank s'.mem = (s.view κ).place.elim blank s.mem := by
    cases hp : (s.view κ).place with
    | none => rfl
    | some k => exact hmem k hp
  have hsaved : (s.view κ).slot.elim blank s'.swap = (s.view κ).slot.elim blank s.swap := by
    cases hp : (s.view κ).slot with
    | none => rfl
    | some k => exact hswap k hp
  simp only [St.page, hview, hghost, hdata, hsaved]

/-- Nobody but `t` takes or releases `Frame_lock`, and `t` evicts nothing. -/
theorem St.evicting_congr {t : ℕ} (hpc : ∀ t', t' ≠ t → s'.pc t' = s.pc t')
    (hlock : ∀ t', t' ≠ t → (s'.lock .frame = some t' ↔ s.lock .frame = some t'))
    (hv : (s.pc t).victim = none) (hv' : (s'.pc t).victim = none) : s'.evicting = s.evicting := by
  have key : ∀ x : St, (x.pc t).victim = none →
      (∀ t', t' ≠ t → x.lock .frame ≠ some t') → x.evicting = none := by
    intro x hx hne
    unfold St.evicting
    cases hl : x.lock .frame with
    | none => rfl
    | some t' =>
      obtain rfl : t' = t := by_contra fun h => hne t' h hl
      exact hx
  by_cases hex : ∃ t', t' ≠ t ∧ s.lock .frame = some t'
  · obtain ⟨t', ht', hl⟩ := hex
    simp only [St.evicting, hl, (hlock t' ht').2 hl, Option.bind_some, hpc t' ht']
  · push Not at hex
    rw [key s hv hex, key s' hv' fun t' ht' => fun h => hex t' ht' ((hlock t' ht').1 h)]

theorem fileBytes_congr (h : s'.files = s.files) : fileBytes s' = fileBytes s := by
  funext f ofs n b
  simp only [fileBytes, h]

end Congr

section Facts

variable {s : St} {κ : Key} {k : ℕ}

/-- A page has at most one frame, which is bound to nothing or to the page. -/
theorem View.Shape.frames_of_mem {v : View} {f : Frame} (hs : v.Shape κ) (hf : f ∈ v.frames) :
    v.leaving = none ∧ v.frames = [f] ∧ f = frameOf κ f.kpage f.page f.pinned ∧
      (f.page = none ∨ f.page = some κ) := by
  have hone : ∀ {k pg b}, v.frames = [frameOf κ k pg b] → (pg = none ∨ pg = some κ) →
      v.frames = [f] ∧ f = frameOf κ f.kpage f.page f.pinned ∧ (f.page = none ∨ f.page = some κ) := by
    intro k pg b he hpg
    rw [he, List.mem_singleton] at hf
    subst hf
    exact ⟨he, rfl, hpg⟩
  have hnil : v.frames ≠ [] := List.ne_nil_of_mem hf
  have hrest : v.Rest κ → v.leaving = none ∧ v.frames = [f] ∧
      f = frameOf κ f.kpage f.page f.pinned ∧ (f.page = none ∨ f.page = some κ) := by
    intro hr
    unfold View.Rest at hr
    split at hr
    · obtain ⟨b, e, k, -, -, -, -, he⟩ | ho := hr
      · exact ⟨by assumption, hone he (.inr rfl)⟩
      · exact absurd ho.2.2 hnil
    · exact absurd hr.1 hnil
  have ha := hs.agree
  cases hph : v.phase with simp only [View.Agree, hph] at ha
  | dead => exact absurd ha.2.2.2 hnil
  | idle => exact hrest ha
  | known | wait w => exact hrest ha.1
  | load k st => exact ⟨ha.1, hone ha.2.1 (.inl rfl)⟩
  | pinned =>
    obtain ⟨hl, e, k, -, -, -, -, he⟩ := ha
    exact ⟨hl, hone he (.inr rfl)⟩
  | cut k | drop k => exact ⟨ha.1, hone ha.2.1 (.inr rfl)⟩
  | dying slot | gone slot | bare => exact absurd ha.2.1 hnil

theorem St.mem_frames {f : Frame} : f ∈ s.frames κ ↔ f ∈ s.frameList ∧ κ = (f.owner, f.upage) := by
  simp only [St.frames, List.mem_filter, decide_eq_true_eq, Prod.ext_iff]
  tauto

namespace Inv

/-- An element of `Frame_list` is the frame of its page. -/
theorem frame (h : Inv s) {f : Frame} (hf : f ∈ s.frameList) :
    s.frames (f.owner, f.upage) = [f] ∧ (s.view (f.owner, f.upage)).place = some f.kpage ∧
      (f.page = none ∨ f.page = some (f.owner, f.upage)) := by
  have hmem : f ∈ (s.view (f.owner, f.upage)).frames := St.mem_frames.2 ⟨hf, rfl⟩
  obtain ⟨hl, he, -, hpg⟩ := (h.shape (f.owner, f.upage)).frames_of_mem hmem
  exact ⟨he, by simp only [View.place, hl, he], hpg⟩

theorem place_inj (h : Inv s) {κ' : Key} (hp : (s.view κ).place = some k)
    (hp' : (s.view κ').place = some k) : κ = κ' :=
  Sum.inl.inj (h.pages.inj (.inl κ) (.inl κ') k hp hp')

theorem place_ne_flight (h : Inv s) {t : ℕ} (hp : (s.view κ).place = some k) :
    (s.pc t).flight ≠ some k := fun hf =>
  Sum.inl_ne_inr (h.pages.inj (.inl κ) (.inr t) k hp hf)

theorem slot_inj (h : Inv s) {κ' : Key} (hp : (s.view κ).slot = some k)
    (hp' : (s.view κ').slot = some k) : κ = κ' :=
  h.slots.inj κ κ' k hp hp'

/-- The frames of a page that does not hold the frame `k`. -/
theorem frames_filter_ne (h : Inv s) (hp : (s.view κ).place ≠ some k) :
    (s.frameList.filter fun f => f.kpage ≠ k).filter (fun f => f.owner = κ.1 ∧ f.upage = κ.2) =
      s.frames κ := by
  rw [List.filter_filter]
  apply List.filter_congr
  intro f hf
  by_cases hκ : f.owner = κ.1 ∧ f.upage = κ.2
  · have : f.kpage ≠ k := by
      rintro rfl
      obtain ⟨-, hpl, -⟩ := h.frame hf
      rw [hκ.1, hκ.2] at hpl
      exact hp hpl
    simp [hκ, this]
  · simp [hκ]

end Inv

end Facts

/-! ### Rules for one action -/

section Rules

variable {s s' : St} {t : ℕ} {κ : Key} {k : ℕ}

/-- Only `t` does something, and of the pages only `κ` may change. -/
structure Local (s s' : St) (t : ℕ) (κ : Key) : Prop where
  pc : ∀ t', t' ≠ t → s'.pc t' = s.pc t'
  page : ∀ κ', κ' ≠ κ → s'.page κ' = s.page κ'

namespace Local

theorem view (hL : Local s s' t κ) {κ' : Key} (hne : κ' ≠ κ) : s'.view κ' = s.view κ' :=
  congrArg Page.toView (hL.page κ' hne)

theorem holding (hL : Local s s' t κ) {x : Key ⊕ ℕ} (hκ : x ≠ .inl κ) (ht : x ≠ .inr t) :
    s'.holding x = s.holding x := by
  cases x with
  | inl κ' =>
    have hne : κ' ≠ κ := fun h => hκ (congrArg Sum.inl h)
    show (s'.view κ').place = (s.view κ').place
    rw [hL.view hne]
  | inr t' =>
    have hne : t' ≠ t := fun h => ht (congrArg Sum.inr h)
    show (s'.pc t').flight = (s.pc t').flight
    rw [hL.pc t' hne]

variable (h : Inv s) (hL : Local s s' t κ)
include h hL

/-- No frame changes hands. -/
theorem pages_keep (hu : s'.used = s.used) (hp : (s'.view κ).place = (s.view κ).place)
    (hf : (s'.pc t).flight = (s.pc t).flight) : Holders s'.used s'.holding := by
  refine h.pages.keep hu fun x => ?_
  by_cases hκ : x = .inl κ
  · subst hκ
    exact hp
  · by_cases ht : x = .inr t
    · subst ht
      exact hf
    · exact hL.holding hκ ht

/-- `t` allocates the frame `k`. -/
theorem pages_take (hk : s.used k = false) (hu : s'.used = Function.update s.used k true)
    (hp : (s'.view κ).place = (s.view κ).place) (hf : (s.pc t).flight = none)
    (hf' : (s'.pc t).flight = some k) : Holders s'.used s'.holding := by
  refine h.pages.take (h := .inr t) hk hf (by simp [hu]) (fun x hx => by simp [hu, hx]) hf' ?_
  intro x hx
  by_cases hκ : x = .inl κ
  · subst hκ
    exact hp
  · exact hL.holding hκ hx

/-- `t` frees the frame `k`. -/
theorem pages_give (hu : s'.used = Function.update s.used k false)
    (hp : (s'.view κ).place = (s.view κ).place) (hf : (s.pc t).flight = some k)
    (hf' : (s'.pc t).flight = none) : Holders s'.used s'.holding := by
  refine h.pages.give (h := .inr t) hf (by simp [hu]) (fun x hx => by simp [hu, hx]) hf' ?_
  intro x hx
  by_cases hκ : x = .inl κ
  · subst hκ
    exact hp
  · exact hL.holding hκ hx

/-- The frame `k` of the page is freed. -/
theorem pages_free (hu : s'.used = Function.update s.used k false)
    (hp : (s.view κ).place = some k) (hp' : (s'.view κ).place = none)
    (hf : (s'.pc t).flight = (s.pc t).flight) : Holders s'.used s'.holding := by
  refine h.pages.give (h := .inl κ) hp (by simp [hu]) (fun x hx => by simp [hu, hx]) hp' ?_
  intro x hx
  by_cases ht : x = .inr t
  · subst ht
    exact hf
  · exact hL.holding hx ht

/-- `t` takes the frame `k` from the page. -/
theorem pages_out (hu : s'.used = s.used) (hp : (s.view κ).place = some k)
    (hp' : (s'.view κ).place = none) (hf : (s.pc t).flight = none)
    (hf' : (s'.pc t).flight = some k) : Holders s'.used s'.holding :=
  h.pages.move (h := .inl κ) (i := .inr t) hp hf hu hp' hf' fun _ hx hy => hL.holding hx hy

/-- `t` gives the frame `k` to the page. -/
theorem pages_in (hu : s'.used = s.used) (hf : (s.pc t).flight = some k)
    (hf' : (s'.pc t).flight = none) (hp : (s.view κ).place = none)
    (hp' : (s'.view κ).place = some k) : Holders s'.used s'.holding :=
  h.pages.move (h := .inr t) (i := .inl κ) hf hp hu hf' hp' fun _ hx hy => hL.holding hy hx

theorem slots_keep (hu : s'.swapUsed = s.swapUsed) (hp : (s'.view κ).slot = (s.view κ).slot) :
    Holders s'.swapUsed fun κ => (s'.view κ).slot := by
  refine h.slots.keep hu fun κ' => ?_
  by_cases hκ : κ' = κ
  · subst hκ
    exact hp
  · rw [hL.view hκ]

theorem slots_take (hk : s.swapUsed k = false)
    (hu : s'.swapUsed = Function.update s.swapUsed k true) (hp : (s.view κ).slot = none)
    (hp' : (s'.view κ).slot = some k) : Holders s'.swapUsed fun κ => (s'.view κ).slot := by
  refine h.slots.take (h := κ) hk hp (by simp [hu]) (fun x hx => by simp [hu, hx]) hp' ?_
  intro κ' hκ
  rw [hL.view hκ]

theorem slots_give (hu : s'.swapUsed = Function.update s.swapUsed k false)
    (hp : (s.view κ).slot = some k) (hp' : (s'.view κ).slot = none) :
    Holders s'.swapUsed fun κ => (s'.view κ).slot := by
  refine h.slots.give (h := κ) hp (by simp [hu]) (fun x hx => by simp [hu, hx]) hp' ?_
  intro κ' hκ
  rw [hL.view hκ]

end Local

/-- What an action of `t` must do besides, for the invariant to survive it. -/
structure Sound (s s' : St) (t : ℕ) : Prop where
  userPages : s'.userPages = s.userPages
  poolSize : s'.poolSize = s.poolSize
  pc : ∀ t', t' ≠ t → s'.pc t' = s.pc t'
  lock : ∀ t', t' ≠ t → s.lock .frame = some t' → s'.lock .frame = some t'
  evicts : (s'.pc t).evicts = true → s'.lock .frame = some t
  victim : ∀ v st, (s'.pc t).victim = some (v, st) → v.owner = v.page.1
  serves : (s'.pc t).Serves
  pagedir : ∀ t', t' ≠ t → s'.pagedir t' = s.pagedir t'
  dir : s'.pagedir t = (s'.pc t).hasDir
  flight : ∀ t', t' ≠ t → ∀ k, (s.pc t').flight = some k → s'.mem k = s.mem k
  clean : ∀ k, (s'.pc t).cleared = some k → s'.mem k = blank

/-- **The rule for an action**: it is a step of every page. -/
theorem Inv.of_steps (h : Inv s) (hs : Sound s s' t)
    (hsteps : ∀ κ, PageStep κ (s.page κ) (s'.page κ))
    (hpages : Holders s'.used s'.holding) (hslots : Holders s'.swapUsed fun κ => (s'.view κ).slot)
    (hnodup : (s'.frameList.map Frame.kpage).Nodup) (hpool : ∀ k, s'.used k = true → k < s.poolSize)
    (hbound : ∀ κ, s.userPages ≤ κ.2 → s'.spt κ = none ∧ (s'.pte κ).present = false)
    (hfresh : ∀ κ, (s'.ghost κ).touched = false → (s'.ghost κ).stale = false →
      (s'.ghost κ).flat = fileBytes s' (s'.ghost κ).file (s'.ghost κ).ofs (s'.ghost κ).readBytes) :
    Inv s' where
  shape κ := (h.shape κ).step (hsteps κ)
  content κ := (h.content κ).step (h.shape κ) (hsteps κ)
  pages := hpages
  slots := hslots
  nodup := hnodup
  evicts t' ht' := by
    by_cases he : t' = t
    · subst he
      exact hs.evicts ht'
    · rw [hs.pc t' he] at ht'
      exact hs.lock t' he (h.evicts t' ht')
  victim t' v st hv := by
    by_cases he : t' = t
    · subst he
      exact hs.victim v st hv
    · rw [hs.pc t' he] at hv
      exact h.victim t' v st hv
  serves t' := by
    by_cases he : t' = t
    · subst he
      exact hs.serves
    · rw [hs.pc t' he]
      exact h.serves t'
  bound κ hκ := hbound κ (hs.userPages ▸ hκ)
  pool k hk := hs.poolSize ▸ hpool k hk
  dir t' := by
    by_cases he : t' = t
    · subst he
      exact hs.dir
    · rw [hs.pagedir t' he, hs.pc t' he, h.dir t']
  clean t' k hk := by
    by_cases he : t' = t
    · subst he
      exact hs.clean k hk
    · rw [hs.pc t' he] at hk
      rw [hs.flight t' he k (Pc.flight_of_cleared hk)]
      exact h.clean t' k hk
  fresh := hfresh

/-- Everything but the tables of the pages, the places of the processes and the locks is the same. -/
structure Quiet (s s' : St) : Prop where
  userPages : s'.userPages = s.userPages
  poolSize : s'.poolSize = s.poolSize
  pagedir : s'.pagedir = s.pagedir
  tables : s'.tables = s.tables
  frameList : s'.frameList = s.frameList
  used : s'.used = s.used
  mem : s'.mem = s.mem
  swapUsed : s'.swapUsed = s.swapUsed
  swap : s'.swap = s.swap
  files : s'.files = s.files
  ghost : s'.ghost = s.ghost

/-- An action of `t` that changes tables of the page `κ` only, and neither its frame nor its slot. -/
structure Tables (s s' : St) (t : ℕ) (κ : Key) : Prop extends Quiet s s' where
  pc : ∀ t', t' ≠ t → s'.pc t' = s.pc t'
  phase : ∀ u, (t, u) ≠ κ → (s'.pc t).phase u = (s.pc t).phase u
  lock : ∀ t', t' ≠ t → s.lock .frame = some t' → s'.lock .frame = some t'
  leaving : ∀ κ', κ' ≠ κ → s'.leaving κ' = s.leaving κ'
  spt : ∀ κ', κ' ≠ κ → s'.spt κ' = s.spt κ'
  pte : ∀ κ', κ' ≠ κ → s'.pte κ' = s.pte κ'
  checked : ∀ κ', κ' ≠ κ → s'.checked κ' = s.checked κ'
  evicts : (s'.pc t).evicts = true → s'.lock .frame = some t
  victim : ∀ v st, (s'.pc t).victim = some (v, st) → v.owner = v.page.1
  serves : (s'.pc t).Serves
  cleared : (s'.pc t).cleared = (s.pc t).cleared
  hasDir : (s'.pc t).hasDir = (s.pc t).hasDir
  bound : s.spt κ = none → s'.spt κ = none
  present : (s'.pte κ).present = true → (s.pte κ).present = true

namespace Tables

variable (h : Tables s s' t κ)
include h

theorem sound (hi : Inv s) : Sound s s' t where
  userPages := h.userPages
  poolSize := h.poolSize
  pc := h.pc
  lock := h.lock
  evicts := h.evicts
  victim := h.victim
  serves := h.serves
  pagedir t' _ := by rw [h.pagedir]
  dir := by rw [h.pagedir, hi.dir t, h.hasDir]
  flight t' _ k _ := by rw [h.mem]
  clean k hk := by
    rw [h.cleared] at hk
    rw [h.mem]
    exact hi.clean t k hk

theorem local_ : Local s s' t κ where
  pc := h.pc
  page κ' hκ := by
    refine St.page_congr (St.view_congr ?_ (h.leaving κ' hκ) (h.spt κ' hκ) (h.pte κ' hκ) ?_ ?_
      (h.checked κ' hκ)) ?_ ?_ ?_
    · by_cases he : κ'.1 = t
      · subst he
        exact h.phase κ'.2 hκ
      · rw [h.pc κ'.1 he]
    · rw [h.tables]
    · rw [St.frames, St.frames, h.frameList]
    · rw [h.ghost]
    · intro k _
      rw [h.mem]
    · intro k _
      rw [h.swap]

end Tables

/-- The rule for such an action. -/
theorem Inv.of_tables (h : Inv s) (hT : Tables s s' t κ)
    (hplace : (s'.view κ).place = (s.view κ).place) (hslot : (s'.view κ).slot = (s.view κ).slot)
    (hflight : (s'.pc t).flight = (s.pc t).flight)
    (hstep : PageStep κ (s.page κ) { s.page κ with
      phase := (s'.pc κ.1).phase κ.2, leaving := s'.leaving κ, entry := s'.spt κ
      pte := s'.pte κ, checked := s'.checked κ }) : Inv s' := by
  have hL := hT.local_
  refine h.of_steps (hT.sound h) ?_ (hL.pages_keep h hT.used hplace hflight)
    (hL.slots_keep h hT.swapUsed hslot) (hT.frameList ▸ h.nodup) (fun k hk => h.pool k (hT.used ▸ hk))
    ?_ ?_
  · intro κ'
    by_cases hκ : κ' = κ
    · subst hκ
      have hpage : s'.page κ' = { s.page κ' with
          phase := (s'.pc κ'.1).phase κ'.2, leaving := s'.leaving κ', entry := s'.spt κ'
          pte := s'.pte κ', checked := s'.checked κ' } := by
        simp only [St.page, hplace, hslot, hT.mem, hT.swap, hT.ghost]
        simp only [St.view, St.frames, hT.tables, hT.frameList]
      rw [hpage]
      exact hstep
    · rw [hL.page κ' hκ]
      exact .same _
  · intro κ' hκ'
    obtain ⟨hs, hp⟩ := h.bound κ' hκ'
    by_cases hκ : κ' = κ
    · subst hκ
      refine ⟨hT.bound hs, ?_⟩
      by_contra hne
      rw [hT.present (by simpa using hne)] at hp
      cases hp
    · rw [hT.spt κ' hκ, hT.pte κ' hκ]
      exact ⟨hs, hp⟩
  · intro κ'
    rw [hT.ghost]
    intro ht hst
    rw [fileBytes_congr hT.files]
    exact h.fresh κ' ht hst

end Rules

/-! ### A process goes from one place to another -/

section Goto

variable {s : St} {t : ℕ} {p : Pc}

theorem quiet_setPc (s : St) (t : ℕ) (p : Pc) : Quiet s (s.setPc t p) :=
  ⟨rfl, rfl, rfl, rfl, rfl, rfl, rfl, rfl, rfl, rfl, rfl⟩

theorem leaving_setPc (hv : (s.pc t).victim = none) (hv' : p.victim = none) (κ : Key) :
    (s.setPc t p).leaving κ = s.leaving κ := by
  have he : (s.setPc t p).evicting = s.evicting :=
    St.evicting_congr (fun _ h => s.setPc_of_ne p h) (fun _ _ => Iff.rfl) hv (by simpa using hv')
  simp only [St.leaving, he]

/-- The slot of a page depends on what its process does only where `handle_mm_fault` frees it. -/
theorem View.slot_congr {v : View} {ph : Phase} (h : v.phase.freed = false)
    (h' : ph.freed = false) : View.slot { v with phase := ph } = v.slot := by
  simp only [View.slot, h, h']

/-- The process goes on at `p`, where it does something else with the page `u` and with no other. -/
theorem Inv.goto (h : Inv s) (u : ℕ) (hphase : ∀ v, v ≠ u → p.phase v = (s.pc t).phase v)
    (hp : (s.pc t).Like p) (he : p.evicts = true → s.lock .frame = some t)
    (hslot : ((s.pc t).phase u).freed = false) (hslot' : (p.phase u).freed = false)
    (hstep : PageStep (t, u) (s.page (t, u)) { s.page (t, u) with phase := p.phase u }) :
    Inv (s.setPc t p) := by
  have hleaving : ∀ κ, (s.setPc t p).leaving κ = s.leaving κ := leaving_setPc hp.victim hp.victim'
  have hview : (s.setPc t p).view (t, u) = { s.view (t, u) with phase := p.phase u } := by
    simp only [St.view, hleaving, St.setPc_self]
    rfl
  refine h.of_tables (t := t) (κ := (t, u)) ⟨quiet_setPc s t p, fun _ h => s.setPc_of_ne p h, ?_,
    fun _ _ => id, fun _ _ => hleaving _, fun _ _ => rfl, fun _ _ => rfl, fun _ _ => rfl,
    ?_, ?_, ?_, ?_, ?_, id, id⟩ ?_ ?_ ?_ ?_
  · intro v hne
    rw [St.setPc_self]
    exact hphase v fun hvu => hne (by rw [hvu])
  · rw [St.setPc_self]
    exact he
  · intro v st hvs
    rw [St.setPc_self, hp.victim'] at hvs
    cases hvs
  · rw [St.setPc_self]
    exact hp.serves
  · rw [St.setPc_self]
    exact hp.cleared
  · rw [St.setPc_self]
    exact hp.hasDir
  · rw [hview]
    rfl
  · rw [hview]
    exact View.slot_congr hslot hslot'
  · rw [St.setPc_self]
    exact hp.flight
  · simp only [St.setPc_self, hleaving]
    exact hstep

/-- The process goes on at `p`, where it does the same with every page. -/
theorem Inv.stay (h : Inv s) (hphase : ∀ v, p.phase v = (s.pc t).phase v) (hp : (s.pc t).Like p)
    (he : p.evicts = true → s.lock .frame = some t) : Inv (s.setPc t p) := by
  have hview : ∀ κ, (s.setPc t p).view κ = s.view κ := by
    intro κ
    refine St.view_congr ?_ (leaving_setPc hp.victim hp.victim' κ) rfl rfl rfl rfl rfl
    by_cases hκ : κ.1 = t
    · rw [hκ, St.setPc_self]
      exact hphase κ.2
    · rw [s.setPc_of_ne p hκ]
  have hpage : ∀ κ, (s.setPc t p).page κ = s.page κ := fun κ =>
    St.page_congr (hview κ) rfl (fun _ _ => rfl) fun _ _ => rfl
  have hL : Local s (s.setPc t p) t (t, 0) := ⟨fun _ h => s.setPc_of_ne p h, fun κ _ => hpage κ⟩
  refine h.of_steps (t := t) ⟨rfl, rfl, fun _ h => s.setPc_of_ne p h, fun _ _ => id, ?_, ?_, ?_,
    fun _ _ => rfl, ?_, fun _ _ _ _ => rfl, ?_⟩ ?_ (hL.pages_keep h rfl (by rw [hview]) ?_)
    (hL.slots_keep h rfl (by rw [hview])) h.nodup h.pool h.bound h.fresh
  · rw [St.setPc_self]
    exact he
  · intro v st hvs
    rw [St.setPc_self, hp.victim'] at hvs
    cases hvs
  · rw [St.setPc_self]
    exact hp.serves
  · rw [St.setPc_self, hp.hasDir]
    exact h.dir t
  · intro k hk
    rw [St.setPc_self, hp.cleared] at hk
    exact h.clean t k hk
  · intro κ
    rw [hpage κ]
    exact .same _
  · rw [St.setPc_self]
    exact hp.flight

end Goto

/-! ### The process turns to a page or away from it -/

section Turn

variable {v : View} {κ : Key} {e : Entry}

namespace View.Shape

theorem to_known (hs : v.Shape κ) (h : v.phase = .idle) (he : v.entry ≠ none) :
    View.Shape κ { v with phase := .known } := by
  refine ⟨?_, fun hc => ?_⟩
  · have ha := hs.agree
    simp only [View.Agree, h] at ha
    exact ⟨ha, he⟩
  · obtain ⟨-, hl, hin, hw⟩ := hs.held hc
    exact ⟨.inr (.inl rfl), hl, hin, hw⟩

theorem to_wait {w : Wait} (hs : v.Shape κ) (h : v.phase = .idle ∨ v.phase = .known)
    (he : v.entry = some e) (hk : e.kpage = none) (hw : w ≠ .plain → v.leaving = none)
    (hstack : w ≠ .stack) : View.Shape κ { v with phase := .wait w } := by
  have hr : v.Rest κ := by
    have ha := hs.agree
    obtain h | h := h <;> simp only [View.Agree, h] at ha
    · exact ha
    · exact ha.1
  refine ⟨⟨hr, hw, e, he, hk, fun h => absurd h hstack⟩, View.held_of_unchecked ?_⟩
  refine hs.unchecked_of_kpage fun e' he' => ?_
  rw [he] at he'
  cases he'
  exact hk

theorem wait_to_idle {w : Wait} (hs : v.Shape κ) (h : v.phase = .wait w) :
    View.Shape κ { v with phase := .idle } := by
  have ha := hs.agree
  simp only [View.Agree, h] at ha
  exact ⟨ha.1, View.held_of_unchecked (hs.unchecked (by simp [h]))⟩

theorem wait_to_dying {w : Wait} (hs : v.Shape κ) (h : v.phase = .wait w) (hl : v.leaving = none) :
    View.Shape κ { v with phase := .dying none } := by
  obtain ⟨hc, hp, hf, e, he, hk, -⟩ := hs.waits h hl
  exact ⟨⟨hl, hf, hp, e, he, hk, fun hn => absurd rfl hn⟩, View.held_of_unchecked hc⟩

theorem dying_slot {slot : ℕ} (hs : v.Shape κ) (h : v.phase = .dying none) (he : v.entry = some e)
    (hslot : e.swapSlot = some slot) : View.Shape κ { v with phase := .dying (some slot) } := by
  have ha := hs.agree
  simp only [View.Agree, h] at ha
  obtain ⟨hl, hf, hp, e', he', hk, -⟩ := ha
  rw [he] at he'
  cases he'
  exact ⟨⟨hl, hf, hp, e, he, hk, fun _ => hslot⟩,
    View.held_of_unchecked (hs.unchecked (by simp [h]))⟩

theorem gone_slot {slot : ℕ} (hs : v.Shape κ) (h : v.phase = .gone none) (he : v.entry = some e)
    (hk : e.kpage = none) (hslot : e.swapSlot = some slot) :
    View.Shape κ { v with phase := .gone (some slot) } := by
  have ha := hs.agree
  simp only [View.Agree, h] at ha
  obtain ⟨hl, hf, hall, -⟩ := ha
  exact ⟨⟨hl, hf, hall, fun _ => ⟨e, he, hk, hslot⟩⟩,
    View.held_of_unchecked (hs.unchecked (by simp [h]))⟩

end View.Shape

end Turn

section Actions

variable {s s' : St} {t : ℕ} {κ : Key}

/-- How to see that an action concerns only `t` and `κ`. -/
theorem Local.of (hpc : ∀ t', t' ≠ t → s'.pc t' = s.pc t')
    (hphase : ∀ u, (t, u) ≠ κ → (s'.pc t).phase u = (s.pc t).phase u)
    (hleaving : ∀ κ', κ' ≠ κ → s'.leaving κ' = s.leaving κ')
    (hspt : ∀ κ', κ' ≠ κ → s'.spt κ' = s.spt κ') (hpte : ∀ κ', κ' ≠ κ → s'.pte κ' = s.pte κ')
    (htables : s'.tables = s.tables) (hframes : ∀ κ', κ' ≠ κ → s'.frames κ' = s.frames κ')
    (hchecked : ∀ κ', κ' ≠ κ → s'.checked κ' = s.checked κ')
    (hghost : ∀ κ', κ' ≠ κ → s'.ghost κ' = s.ghost κ')
    (hmem : ∀ κ', κ' ≠ κ → ∀ k, (s.view κ').place = some k → s'.mem k = s.mem k)
    (hswap : ∀ κ', κ' ≠ κ → ∀ k, (s.view κ').slot = some k → s'.swap k = s.swap k) :
    Local s s' t κ where
  pc := hpc
  page κ' hκ := by
    refine St.page_congr (St.view_congr ?_ (hleaving κ' hκ) (hspt κ' hκ) (hpte κ' hκ) ?_
      (hframes κ' hκ) (hchecked κ' hκ)) (hghost κ' hκ) (hmem κ' hκ) (hswap κ' hκ)
    · by_cases he : κ'.1 = t
      · subst he
        exact hphase κ'.2 hκ
      · rw [hpc κ'.1 he]
    · rw [htables]

/-- **The rule for an action that concerns one page.** -/
theorem Inv.of_local (h : Inv s) (hs : Sound s s' t) (hL : Local s s' t κ)
    (hstep : PageStep κ (s.page κ) (s'.page κ))
    (hpages : Holders s'.used s'.holding) (hslots : Holders s'.swapUsed fun κ => (s'.view κ).slot)
    (hnodup : (s'.frameList.map Frame.kpage).Nodup) (hpool : ∀ k, s'.used k = true → k < s.poolSize)
    (hbound : s.userPages ≤ κ.2 → s'.spt κ = none ∧ (s'.pte κ).present = false)
    (hfiles : s'.files = s.files)
    (hfresh : (s'.ghost κ).touched = false → (s'.ghost κ).stale = false →
      (s'.ghost κ).flat = fileBytes s (s'.ghost κ).file (s'.ghost κ).ofs (s'.ghost κ).readBytes) :
    Inv s' := by
  refine h.of_steps hs ?_ hpages hslots hnodup hpool ?_ ?_
  · intro κ'
    by_cases hκ : κ' = κ
    · subst hκ
      exact hstep
    · rw [hL.page κ' hκ]
      exact .same _
  · intro κ' hb
    by_cases hκ : κ' = κ
    · subst hκ
      exact hbound hb
    · have hv := hL.view hκ
      have hspt : s'.spt κ' = s.spt κ' := congrArg View.entry hv
      have hpte : s'.pte κ' = s.pte κ' := congrArg View.pte hv
      rw [hspt, hpte]
      exact h.bound κ' hb
  · intro κ'
    rw [fileBytes_congr hfiles]
    by_cases hκ : κ' = κ
    · subst hκ
      exact hfresh
    · have hg : s'.ghost κ' = s.ghost κ' := congrArg Page.ghost (hL.page κ' hκ)
      rw [hg]
      exact h.fresh κ'

/-- Nobody evicts before or after, or the same process does. -/
theorem Inv.setLock (h : Inv s) {L : Lock} {o : Option ℕ}
    (hev : (s.setLock L o).evicting = s.evicting)
    (hk : ∀ t, (s.pc t).evicts = true → (s.setLock L o).lock .frame = some t) :
    Inv (s.setLock L o) := by
  have hview : ∀ κ, (s.setLock L o).view κ = s.view κ := fun κ =>
    St.view_congr rfl (by simp only [St.leaving, hev]) rfl rfl rfl rfl rfl
  have hpage : ∀ κ, (s.setLock L o).page κ = s.page κ := fun κ =>
    St.page_congr (hview κ) rfl (fun _ _ => rfl) fun _ _ => rfl
  have hhold : (s.setLock L o).holding = s.holding := by
    funext x
    cases x with
    | inl κ => exact congrArg View.place (hview κ)
    | inr t => rfl
  exact {
    shape := fun κ => by rw [hview]; exact h.shape κ
    content := fun κ => by rw [hpage]; exact h.content κ
    pages := by rw [hhold]; exact h.pages
    slots := by simp only [hview]; exact h.slots
    nodup := h.nodup
    evicts := hk
    victim := h.victim
    serves := h.serves
    bound := h.bound
    pool := h.pool
    dir := h.dir
    clean := h.clean
    fresh := h.fresh }

theorem Pc.not_evicts_of {p : Pc} (h : p.evicts = false) : p.victim = none := by
  cases p <;> simp_all [Pc.evicts, Pc.victim]

/-- A process takes a lock. -/
theorem Inv.acquire (h : Inv s) {L : Lock} (ha : acquire s t L = some s') : Inv s' := by
  unfold Vm.acquire at ha
  split at ha
  · next hfree =>
    cases ha
    -- nobody was evicting if the lock was free
    have hnone : L = .frame → ∀ t, (s.pc t).evicts = false := by
      rintro rfl t'
      by_contra hne
      rw [h.evicts t' (by simpa using hne)] at hfree
      cases hfree
    by_cases hL : L = .frame
    · subst hL
      refine h.setLock ?_ fun t' ht' => by rw [hnone rfl t'] at ht'; cases ht'
      simp [St.evicting, St.setLock, hfree, Pc.not_evicts_of (hnone rfl t)]
    · have hlock : (s.setLock L (some t)).lock .frame = s.lock .frame := by
        simp [St.setLock, Ne.symm hL]
      exact h.setLock (by simp [St.evicting, hlock]; rfl) fun t' ht' => by
        rw [hlock]
        exact h.evicts t' ht'
  · cases ha

/-- A process releases a lock. -/
theorem Inv.release (h : Inv s) {L : Lock}
    (hp : L = .frame → (s.pc t).evicts = false ∧ s.lock .frame = some t) :
    Inv (s.setLock L none) := by
  by_cases hL : L = .frame
  · subst hL
    obtain ⟨hp, hl⟩ := hp rfl
    refine h.setLock ?_ fun t' ht' => ?_
    · simp [St.evicting, St.setLock, hl, Pc.not_evicts_of hp]
    · have := h.evicts t' ht'
      rw [hl] at this
      cases this
      rw [hp] at ht'
      cases ht'
  · have hlock : (s.setLock L none).lock .frame = s.lock .frame := by
      simp [St.setLock, Ne.symm hL]
    exact h.setLock (by simp [St.evicting, hlock]; rfl) fun t' ht' => by
      rw [hlock]
      exact h.evicts t' ht'

end Actions

end Vm
end Pintos

import Pintos.Lib.Cursor
import Pintos.Vm.Clock

/-!
# `Frame_list` and `Clock_hand` in memory

In `Pintos.Vm.Paging` the clock hand is a place in `Frame_list`. In `vm/frame.c` it is a pointer to a list
element, which lies in a `struct frame` that is freed when the frame is; `frame_free`, `frame_remove_owner` and
`frame_evict` move the hand on before they remove an element.

* `Table` — the list with the addresses of its elements, and the pointer;
* `kernel` — the paging code, with what each action does to the table;
* `Table.Shows` — the table shows the `Frame_list` and the hand of a state. Every action keeps this up
  (`Table.Shows.step`), and no list function is ever called with an element that is not in the list.
-/

namespace Pintos
namespace Vm

open Cursor

variable {s s' : St} {t u k i n addr : ℕ} {κ : Key} {a : Act} {ok : Bool}

/-- `Frame_list` and `Clock_hand`. -/
structure Table where
  -- The elements of the list, by their addresses.
  list : List ℕ
  -- The `struct frame` at an address.
  frame : ℕ → Frame
  -- `Clock_hand`.
  hand : Ptr ℕ

namespace Table

variable {T T' : Table}

/-- The frames of the list. -/
def frames (T : Table) : List Frame := T.list.map T.frame

/-- `list_remove`, after the hand has been moved on. -/
def remove (T : Table) (a : ℕ) : Option Table :=
  (moveOn T.list a T.hand).map fun p => { T with list := T.list.erase a, hand := p }

/-- The end of `frame_alloc`, with the new `struct frame` at an address. -/
def pushBack (T : Table) (a : ℕ) (f : Frame) : Table :=
  { T with list := T.list ++ [a], frame := Function.update T.frame a f }

/-- The frame that the loops of `frame_free`, `frame_install` and `frame_pin_resident` come to. -/
def find (T : Table) (k : ℕ) : Option ℕ := T.list.find? fun a => (T.frame a).kpage = k

/-- Change the frame that is found. -/
def setFrame (T : Table) (k : ℕ) (g : Frame → Frame) : Table :=
  match T.find k with
  | none => T
  | some a => { T with frame := Function.update T.frame a (g (T.frame a)) }

def frameInstall (T : Table) (k : ℕ) (page : Key) : Table :=
  T.setFrame k fun f => { f with page := some page, pinned := false }

def framePinResident (T : Table) : Option ℕ → Table
  | none => T
  | some k => T.setFrame k fun f => { f with pinned := true }

def frameUnpinOwner (T : Table) (t : ℕ) : Table :=
  { T with frame := fun a =>
      if a ∈ T.list ∧ (T.frame a).owner = t ∧ (T.frame a).page ≠ none then
        { T.frame a with pinned := false }
      else T.frame a }

def frameFree (T : Table) (k : ℕ) : Option Table :=
  match T.find k with
  | none => some T
  | some a => T.remove a

def frameRemoveOwner (T : Table) (t : ℕ) : Option Table :=
  (removeAll (fun a => (T.frame a).owner = t) T.list T.list T.hand).map fun r =>
    { T with list := r.1, hand := r.2 }

/-- One turn of the loop of `frame_evict`, with the removal of the victim. -/
def turn (T : Table) (accessed : Frame → Bool) : Option Table :=
  match if T.hand = .null ∨ T.hand = .tail then begin T.list else T.hand with
  | .null => none
  | .tail => some { T with hand := .tail }
  | .elem a =>
    (next a T.list).bind fun p =>
      let T' := { T with hand := p }
      if (T.frame a).evictable && !accessed (T.frame a) then T'.remove a else some T'

/-- What the code of a process at its place does to the table. A new `struct frame` lies at `addr`. -/
def body (T : Table) (s : St) (t addr : ℕ) : Option Table :=
  match s.pc t with
  | .push _ u k =>
    some (T.pushBack addr { kpage := k, upage := u, owner := t, page := none, pinned := true })
  | .load _ u k .install => some (T.frameInstall k (t, u))
  | .load _ _ k .free | .unmap _ _ _ (.frameFree k) => T.frameFree k
  | .pin u => some (T.framePinResident ((s.spt (t, u)).bind Entry.kpage))
  | .unmap _ m i .pin => some (T.framePinResident ((s.spt (t, m.addr + i)).bind Entry.kpage))
  | .unpin => some (T.frameUnpinOwner t)
  | .exitFrames => T.frameRemoveOwner t
  | .sweep _ _ i n =>
    if 2 * n ≤ i then some T else T.turn fun f => (s.pte (f.owner, f.upage)).accessed
  | _ => some T

/-- The process does not have to take a lock first. -/
def entered (s : St) (t : ℕ) : Bool := (s.pc t).section.all fun L => s.lock L = some t

/-- What an action does to the table. -/
def step (T : Table) (s : St) (addr : ℕ) : Act → Option Table
  | .go t _ => if entered s t then T.body s t addr else some T
  | _ => some T

/-- The table shows the `Frame_list` and the hand of this state. -/
structure Shows (T : Table) (s : St) : Prop where
  nodup : T.list.Nodup
  frames : T.frames = s.frameList
  hand : Points T.list T.hand s.hand

end Table

/-- The paging code with the table. A `struct frame` is allocated at an address that is not in use. -/
def kernel : System (St × Table) (Act × ℕ) where
  init x := sys.init x.1 ∧ x.2.list = [] ∧ x.2.hand = .null
  step x a :=
    if a.2 ∈ x.2.list then none
    else (step x.1 a.1).bind fun s' => (x.2.step x.1 a.2 a.1).map fun T' => (s', T')

namespace Table

variable {T T' : Table}

/-! ### The functions of `vm/frame.c` -/

theorem Shows.congr (h : T.Shows s) (hf : s'.frameList = s.frameList) (hh : s'.hand = s.hand) :
    T.Shows s' :=
  ⟨h.nodup, hf ▸ h.frames, hh ▸ h.hand⟩

theorem Shows.getElem? (h : T.Shows s) (i : ℕ) : s.frameList[i]? = T.list[i]?.map T.frame := by
  rw [← h.frames, Table.frames, List.getElem?_map]

theorem Shows.pushBack (h : T.Shows s) (ha : addr ∉ T.list) (f : Frame) :
    (T.pushBack addr f).Shows { s with frameList := s.frameList ++ [f] } where
  nodup := by
    rw [Table.pushBack, List.nodup_append]
    refine ⟨h.nodup, List.nodup_singleton _, fun a hmem b hb => ?_⟩
    rw [List.mem_singleton] at hb
    rintro rfl
    exact ha (hb ▸ hmem)
  frames := by
    have hold : T.list.map (Function.update T.frame addr f) = T.list.map T.frame := by
      refine List.map_congr_left fun a hmem => Function.update_of_ne ?_ _ _
      rintro rfl
      exact ha hmem
    simp only [Table.frames, Table.pushBack, List.map_append, hold, List.map_singleton,
      Function.update_self]
    rw [← h.frames, Table.frames]
  hand := h.hand.append_right _

/-- One frame changes. -/
theorem map_update_first {p : Frame → Bool} {g : Frame → Frame} {l : List ℕ} (hn : l.Nodup)
    (frame : ℕ → Frame) {a : ℕ} (ha : l.find? (fun a => p (frame a)) = some a) :
    l.map (Function.update frame a (g (frame a))) = updateFirst p g (l.map frame) := by
  induction l with
  | nil => simp at ha
  | cons b l ih =>
    rw [List.nodup_cons] at hn
    rw [List.find?_cons] at ha
    rw [List.map_cons, List.map_cons, updateFirst]
    split at ha
    · next hp =>
      cases ha
      rw [if_pos hp, Function.update_self, List.map_congr_left]
      refine fun c hc => Function.update_of_ne ?_ _ _
      rintro rfl
      exact hn.1 hc
    · next hp =>
      rw [if_neg (by simpa using hp), Function.update_of_ne, ih hn.2 ha]
      rintro rfl
      exact hn.1 (List.mem_of_find?_eq_some ha)

theorem updateFirst_of_none {p : Frame → Bool} {g : Frame → Frame} {l : List Frame}
    (h : ∀ f ∈ l, p f = false) : updateFirst p g l = l := by
  induction l with
  | nil => rfl
  | cons f l ih =>
    rw [List.forall_mem_cons] at h
    rw [updateFirst, if_neg (by simp [h.1]), ih h.2]

theorem Shows.setFrame (h : T.Shows s) (k : ℕ) (g : Frame → Frame) :
    (T.setFrame k g).Shows (s.setFrame k g) := by
  unfold Table.setFrame
  cases hfind : T.find k with
  | none =>
    refine h.congr ?_ rfl
    refine updateFirst_of_none fun f hf => ?_
    rw [← h.frames] at hf
    obtain ⟨a, ha, rfl⟩ := List.mem_map.mp hf
    have := List.find?_eq_none.mp hfind a ha
    simpa using this
  | some a =>
    refine ⟨h.nodup, ?_, h.hand⟩
    have := map_update_first (p := fun f => f.kpage = k) (g := g) h.nodup T.frame hfind
    rw [Table.frames, this, ← Table.frames, h.frames]
    rfl

theorem Shows.framePinResident (h : T.Shows s) {x : St} (hx : pinResident s κ = some x) :
    (T.framePinResident ((s.spt κ).bind Entry.kpage)).Shows x := by
  unfold pinResident at hx
  split at hx
  · cases hx
  · next k hk =>
    split at hx
    · cases hx
      rw [hk]
      exact h.setFrame k fun f => { f with pinned := true }
    · cases hx

theorem Shows.framePinResident_none (h : T.Shows s) (hx : pinResident s κ = none) :
    (T.framePinResident ((s.spt κ).bind Entry.kpage)).Shows s := by
  unfold pinResident at hx
  split at hx
  · next hk =>
    rw [hk]
    exact h
  · next k hk =>
    split at hx
    · cases hx
    · next hany =>
      rw [hk]
      have hset := h.setFrame k fun f => { f with pinned := true }
      refine hset.congr ?_ rfl
      refine (updateFirst_of_none fun f hf => ?_).symm
      simp only [List.any_eq_true, not_exists, not_and] at hany
      simpa using hany f hf

theorem Shows.frameUnpinOwner (h : T.Shows s) (t : ℕ) :
    (T.frameUnpinOwner t).Shows (unpinOwner s t) where
  nodup := h.nodup
  frames := by
    simp only [Table.frames, Table.frameUnpinOwner, unpinOwner, ← h.frames, List.map_map]
    refine List.map_congr_left fun a ha => ?_
    simp [ha]
  hand := h.hand

/-- An element is removed. -/
theorem Shows.remove (h : T.Shows s) {a : ℕ} (ha : T.list[i]? = some a) :
    ∃ T', T.remove a = some T' ∧
      T'.Shows { s with
        frameList := s.frameList.eraseIdx i
        hand := handAfterRemove s.hand i s.frameList.length } := by
  obtain ⟨p, hp, hpt⟩ := points_remove h.nodup ha h.hand
  refine ⟨_, by rw [Table.remove, hp]; rfl, h.nodup.erase a, ?_, ?_⟩
  · simp only [Table.frames]
    rw [erase_eq_eraseIdx h.nodup ha, ← h.frames, Table.frames]
    simp only [List.eraseIdx_eq_take_drop_succ, List.map_append, List.map_take, List.map_drop]
  · have hlen : s.frameList.length = T.list.length := by
      rw [← h.frames, Table.frames, List.length_map]
    rw [hlen]
    exact hpt

theorem Shows.frameFree (h : T.Shows s) (k : ℕ) :
    ∃ T', T.frameFree k = some T' ∧ T'.Shows (removeFrame s k) := by
  have hidx : s.frameList.findIdx? (fun f => f.kpage = k) =
      T.list.findIdx? fun a => (T.frame a).kpage = k := by
    rw [← h.frames, Table.frames, List.findIdx?_map]
    rfl
  unfold Table.frameFree removeFrame
  rw [hidx]
  cases hfind : T.find k with
  | none =>
    rw [List.findIdx?_eq_none_iff.mpr fun a ha => by simpa using List.find?_eq_none.mp hfind a ha]
    exact ⟨T, rfl, h⟩
  | some a =>
    obtain ⟨hp, as, bs, hl, has⟩ := List.find?_eq_some_iff_append.mp hfind
    have hi : T.list.findIdx? (fun a => (T.frame a).kpage = k) = some as.length := by
      rw [hl, List.findIdx?_append, List.findIdx?_eq_none_iff.mpr (by simpa using has),
        List.findIdx?_cons, hp]
      simp
    rw [hi]
    exact h.remove (by rw [hl]; simp)

theorem Shows.frameRemoveOwner (h : T.Shows s) (t : ℕ) :
    ∃ T', T.frameRemoveOwner t = some T' ∧ T'.Shows (removeOwner s t) := by
  have hnodup : ([] ++ T.list).Nodup := h.nodup
  have hall := points_removeAll (fun a => (T.frame a).owner = t) T.list hnodup h.hand
  obtain ⟨p, hp, hpt⟩ := hall
  simp only [List.nil_append] at hp hpt
  have hkeep : (fun f : Frame => decide (f.owner ≠ t)) ∘ T.frame =
      fun a => !decide ((T.frame a).owner = t) := by
    funext a
    simp
  refine ⟨_, by rw [Table.frameRemoveOwner, hp]; rfl, h.nodup.filter _, ?_, ?_⟩
  · simp only [Table.frames, removeOwner, ← h.frames, List.filter_map, hkeep]
  · convert hpt using 1
    simp only [removeOwner, ← h.frames, Table.frames, List.filter_map, hkeep, List.length_map,
      List.countP_map, ← List.map_take, placeAfterAll, List.length_nil, Nat.zero_add,
      ← List.countP_eq_length_filter]
    cases s.hand with
    | none => rfl
    | some h =>
      cases h with
      | zero | succ h => simp

/-- Where a turn of the clock looks. -/
theorem Shows.start (h : T.Shows s) :
    if T.list = [] then (if T.hand = .null ∨ T.hand = .tail then begin T.list else T.hand) = .tail
    else ∃ a, (if T.hand = .null ∨ T.hand = .tail then begin T.list else T.hand) = .elem a ∧
      T.list[s.handPos]? = some a := by
  have hlen : s.frameList.length = T.list.length := by
    rw [← h.frames, Table.frames, List.length_map]
  have hhand := h.hand
  have hzero : s.hand = none → s.handPos = 0 := by
    intro hnone
    simp only [St.handPos, hnone]
  have hwrap : s.hand = none → if T.list = [] then begin T.list = .tail
      else ∃ a, begin T.list = .elem a ∧ T.list[s.handPos]? = some a := by
    intro hnone
    rw [hzero hnone]
    cases hl : T.list with
    | nil => rfl
    | cons a l =>
      rw [if_neg (List.cons_ne_nil _ _)]
      exact ⟨a, rfl, rfl⟩
  cases hp : T.hand with
  | null | tail =>
    rw [hp] at hhand
    simpa using hwrap hhand
  | elem a =>
    rw [hp] at hhand
    obtain ⟨j, hj, ha⟩ := hhand
    obtain ⟨hlt, -⟩ := List.getElem?_eq_some_iff.mp ha
    have hpos : s.handPos = j := by
      simp only [St.handPos, hj]
      rw [if_pos (by omega)]
    rw [if_neg (List.ne_nil_of_mem (List.mem_of_getElem? ha)), hpos]
    exact ⟨a, by simp, ha⟩

/-- A turn looks at the frame where the hand is, and moves the hand on. -/
theorem Shows.turn_eq (h : T.Shows s) {a : ℕ} (ha : T.list[s.handPos]? = some a)
    (accessed : Frame → Bool) :
    ∃ p, next a T.list = some p ∧
      T.turn accessed = if (T.frame a).evictable && !accessed (T.frame a) then
        { T with hand := p }.remove a else some { T with hand := p } := by
  have hstart := h.start
  rw [if_neg (List.ne_nil_of_mem (List.mem_of_getElem? ha))] at hstart
  obtain ⟨b, hb, hpos⟩ := hstart
  obtain rfl : b = a := Option.some.inj (hpos.symm.trans ha)
  obtain ⟨p, hp, -⟩ := next_eq h.nodup ha
  refine ⟨p, hp, ?_⟩
  unfold Table.turn
  rw [hb]
  simp only [hp, Option.bind_some]

/-- **A turn of the clock.** -/
theorem Shows.turn (h : T.Shows s) (hi : ¬ 2 * n ≤ i) (t u : ℕ) (c : Caller)
    (hdir : ∀ f ∈ s.frameList, s.pagedir f.owner = true) :
    ∃ T', T.turn (fun f => (s.pte (f.owner, f.upage)).accessed) = some T' ∧
      T'.Shows (sweep s t c u i n) := by
  have hlen : s.frameList.length = T.list.length := by
    rw [← h.frames, Table.frames, List.length_map]
  unfold sweep
  rw [if_neg hi]
  dsimp only
  cases hpos : T.list[s.handPos]? with
  | none =>
    -- the list is empty
    have hnil : T.list = [] := by
      rw [List.getElem?_eq_none_iff] at hpos
      by_contra hne
      have := St.handPos_lt (s := s) (by rw [hlen]; exact List.length_pos_iff.mpr hne)
      omega
    have hstart := h.start
    rw [if_pos hnil] at hstart
    have hnone : s.hand = none := by
      have hhand := h.hand
      rw [hnil] at hhand
      cases hp : T.hand with
      | null | tail => rwa [hp] at hhand
      | elem a =>
        rw [hp] at hhand
        obtain ⟨j, -, ha⟩ := hhand
        simp at ha
    rw [h.getElem?, hpos]
    unfold Table.turn
    rw [hstart]
    exact ⟨_, rfl, h.nodup, h.frames, hnone⟩
  | some a =>
    have hget : s.frameList[s.handPos]? = some (T.frame a) := by
      rw [h.getElem?, hpos, Option.map_some]
    obtain ⟨p, hp, hturn⟩ := h.turn_eq hpos fun f => (s.pte (f.owner, f.upage)).accessed
    obtain ⟨q, hq, hpt⟩ := next_eq h.nodup hpos
    obtain rfl : q = p := Option.some.inj (hq.symm.trans hp)
    have hnext : Shows { T with hand := q }
        { s with hand := if s.handPos + 1 < s.frameList.length then some (s.handPos + 1) else none } := by
      refine ⟨h.nodup, h.frames, ?_⟩
      rw [hlen]
      exact hpt
    rw [hturn, hget]
    dsimp only
    cases hpage : (T.frame a).page with
    | none =>
      rw [if_neg (by simp [Frame.evictable, hpage])]
      exact ⟨_, rfl, hnext.congr rfl rfl⟩
    | some κ =>
      dsimp only
      by_cases hpin : (T.frame a).pinned = true
      · rw [if_neg (by simp [Frame.evictable, hpin]), if_pos hpin]
        exact ⟨_, rfl, hnext.congr rfl rfl⟩
      · have hdir' : ¬ (!s.pagedir (T.frame a).owner) = true := by
          simp [hdir _ (List.mem_of_getElem? hget)]
        rw [if_neg hpin, if_neg hdir']
        by_cases hacc : (s.pte ((T.frame a).owner, (T.frame a).upage)).accessed = true
        · rw [if_pos hacc, if_neg (by simp [hacc])]
          exact ⟨_, rfl, hnext.congr rfl rfl⟩
        · rw [if_neg hacc, if_pos (by simp [Frame.evictable, hpage, hpin, hacc])]
          obtain ⟨T', hT', hshows⟩ := hnext.remove (a := a) hpos
          refine ⟨T', hT', hshows.congr rfl ?_⟩
          show (if s.handPos + 1 < s.frameList.length then some s.handPos else none) =
            handAfterRemove (if s.handPos + 1 < s.frameList.length then some (s.handPos + 1) else none)
              s.handPos s.frameList.length
          by_cases hlast : s.handPos + 1 < s.frameList.length
          · simp [hlast, handAfterRemove]
          · simp [hlast, handAfterRemove]

/-! ### Every action -/

theorem body_of_away {p : Pc} (hp : s.pc t = p) (hsec : p.section ≠ some .frame)
    (hsw : p.sweeps = false) : T.body s t addr = some T := by
  unfold Table.body
  rw [hp]
  cases p with
  | load c u k st | unmap why m i st => cases st <;> first | rfl | exact absurd rfl hsec
  | unpin | push c u k | pin u | exitFrames => exact absurd rfl hsec
  | sweep c u i n => cases hsw
  | _ => rfl

end Table

/-- A frame belongs to a process with a page directory. -/
theorem Inv.pagedir_of_frame (h : Inv s) {f : Frame} (hf : f ∈ s.frameList) :
    s.pagedir f.owner = true := by
  have hmem : f ∈ (s.view (f.owner, f.upage)).frames := St.mem_frames.2 ⟨hf, rfl⟩
  have hnil : (s.view (f.owner, f.upage)).frames ≠ [] := List.ne_nil_of_mem hmem
  have hagree := (h.shape (f.owner, f.upage)).agree
  have hphase : (s.view (f.owner, f.upage)).phase = (s.pc f.owner).phase f.upage := rfl
  rw [h.dir f.owner]
  by_contra hdir
  obtain hdead | hbare : (s.view (f.owner, f.upage)).phase = .dead ∨
      (s.view (f.owner, f.upage)).phase = .bare := by
    rw [hphase]
    cases hp : s.pc f.owner with
    | absent | start | noDir | noDirClose => exact .inl rfl
    | exitPages => exact .inr rfl
    | _ => exact absurd (by rw [hp]; rfl) hdir
  · simp only [View.Agree, hdead] at hagree
    exact hnil hagree.2.2.2
  · simp only [View.Agree, hbare] at hagree
    exact hnil hagree.2.1

/-- A process that loads a page has its entry. -/
theorem Inv.spt_of_load (h : Inv s) {c : Caller} {st : LoadPc} (hp : s.pc t = .load c u k st) :
    ∃ e, s.spt (t, u) = some e := by
  have hphase : (s.view (t, u)).phase = .load k st := by simp [St.view, hp, Pc.phase]
  have hagree := (h.shape (t, u)).agree
  simp only [View.Agree, hphase] at hagree
  obtain ⟨e, he, -⟩ := hagree.2.2
  exact ⟨e, he⟩

namespace Table

variable {T T' : Table}

/-- The code of a process keeps the table up to date. -/
theorem Shows.body (h : T.Shows s) (hi : Inv s) (hb : Vm.body s t ok = some s') (ha : addr ∉ T.list) :
    ∃ T', T.body s t addr = some T' ∧ T'.Shows s' := by
  by_cases hsec : (s.pc t).section = some .frame
  · cases hp : s.pc t with
    | unpin =>
      simp only [Vm.body, hp] at hb
      cases hb
      exact ⟨_, by simp only [Table.body, hp], (h.frameUnpinOwner t).congr rfl rfl⟩
    | push c u k =>
      simp only [Vm.body, hp] at hb
      cases hb
      exact ⟨_, by simp only [Table.body, hp], (h.pushBack ha _).congr rfl rfl⟩
    | pin u =>
      simp only [Vm.body, hp] at hb
      refine ⟨T.framePinResident ((s.spt (t, u)).bind Entry.kpage), by simp only [Table.body, hp], ?_⟩
      split at hb
      · next x hx =>
        cases hb
        exact (h.framePinResident hx).congr rfl rfl
      · next hx =>
        cases hb
        exact (h.framePinResident_none hx).congr rfl rfl
    | exitFrames =>
      simp only [Vm.body, hp] at hb
      cases hb
      obtain ⟨T', hT', hshows⟩ := h.frameRemoveOwner t
      exact ⟨T', by simp only [Table.body, hp, hT'], hshows.congr rfl rfl⟩
    | load c u k st =>
      obtain ⟨e, he⟩ := hi.spt_of_load hp
      simp only [Vm.body, hp, he] at hb
      cases hb
      cases st with
      | install =>
        refine ⟨T.frameInstall k (t, u), by simp only [Table.body, hp], ?_⟩
        have haway := away_finish (s.setFrame k fun f => { f with page := some (t, u), pinned := false })
          t c u true
        exact (h.setFrame k _).congr haway.frameList haway.hand
      | free =>
        obtain ⟨T', hT', hshows⟩ := h.frameFree k
        exact ⟨T', by simp only [Table.body, hp, hT'], hshows.congr rfl rfl⟩
      | _ =>
        rw [hp] at hsec
        cases hsec
    | unmap why m i st =>
      simp only [Vm.body, hp] at hb
      cases hb
      cases st with
      | pin =>
        refine ⟨T.framePinResident ((s.spt (t, m.addr + i)).bind Entry.kpage),
          by simp only [Table.body, hp], ?_⟩
        simp only [unmap]
        split
        · next x hx => exact (h.framePinResident hx).congr rfl rfl
        · next hx => exact (h.framePinResident_none hx).congr rfl rfl
      | frameFree k =>
        obtain ⟨T', hT', hshows⟩ := h.frameFree k
        exact ⟨T', by simp only [Table.body, hp, hT'], hshows.congr rfl rfl⟩
      | _ =>
        rw [hp] at hsec
        cases hsec
    | evict c u st v =>
      rw [hp] at hsec
      cases st <;> cases hsec
    | _ =>
      rw [hp] at hsec
      cases hsec
  · cases hsw : (s.pc t).sweeps with
    | false =>
      have haway := away_body hb hsw hsec
      exact ⟨T, body_of_away rfl hsec hsw, h.congr haway.frameList haway.hand⟩
    | true =>
      cases hp : s.pc t with
      | sweep c u i n =>
        simp only [Vm.body, hp] at hb
        cases hb
        simp only [Table.body, hp]
        by_cases hlast : 2 * n ≤ i
        · rw [if_pos hlast]
          refine ⟨T, rfl, ?_⟩
          rw [sweep, if_pos hlast]
          exact h.congr rfl rfl
        · rw [if_neg hlast]
          exact h.turn hlast t u c fun f hf => hi.pagedir_of_frame hf
      | _ =>
        rw [hp] at hsw
        cases hsw

/-- A process works on `Frame_list` only where it goes on. -/
theorem frameList_of_not_go (hs : Vm.step s a = some s') (hgo : ∀ t ok, a ≠ .go t ok) :
    s'.frameList = s.frameList ∧ s'.hand = s.hand := by
  cases hacc : a.access with
  | false => exact ⟨(away_step hs hgo hacc).frameList, (away_step hs hgo hacc).hand⟩
  | true =>
    cases step_cases hs with
    | load | store => exact ⟨rfl, rfl⟩
    | _ => cases hacc

/-- **Every action keeps the table up to date**, and none calls a list function with a wild pointer. -/
theorem Shows.step (h : T.Shows s) (hi : Inv s) (hs : Vm.step s a = some s') (ha : addr ∉ T.list) :
    ∃ T', T.step s addr a = some T' ∧ T'.Shows s' := by
  by_cases hgo : ∃ t ok, a = .go t ok
  · obtain ⟨t, ok, rfl⟩ := hgo
    have hg := go_of_step hs
    simp only [Table.step]
    obtain ⟨hp, -, rfl⟩ | ⟨c, u, hp, -, rfl⟩ | ⟨hsec, hb⟩ | ⟨L, x, hsec, hl, hb, rfl⟩ | ⟨L, hsec, hl, rfl⟩ :=
      go_cases hg
    · refine ⟨T, by simp [entered, hp, Pc.section, Table.body], ?_⟩
      split <;> exact h.congr rfl rfl
    · exact ⟨T, by simp [entered, hp, Pc.section, Table.body], h.congr rfl rfl⟩
    · rw [if_pos (by simp [entered, hsec])]
      exact h.body hi hb ha
    · rw [if_pos (by simp [entered, hsec, hl])]
      obtain ⟨T', hT', hshows⟩ := h.body hi hb ha
      exact ⟨T', hT', hshows.congr rfl rfl⟩
    · rw [if_neg (by simp [entered, hsec, hl])]
      exact ⟨T, rfl, h.congr rfl rfl⟩
  · have hgo' : ∀ t ok, a ≠ .go t ok := fun t ok heq => hgo ⟨t, ok, heq⟩
    have hT : T.step s addr a = some T := by
      cases a with
      | go t ok => exact absurd rfl (hgo' t ok)
      | _ => rfl
    have hsame := frameList_of_not_go hs hgo'
    exact ⟨T, hT, h.congr hsame.1 hsame.2⟩

end Table

/-! ### Every run -/

/-- A step of the code with the table. -/
theorem kernel_step {x y : St × Table} {b : Act × ℕ} :
    kernel.step x b = some y ↔
      b.2 ∉ x.2.list ∧ step x.1 b.1 = some y.1 ∧ x.2.step x.1 b.2 b.1 = some y.2 := by
  simp only [kernel]
  split
  · next hmem => simp [hmem]
  · next hmem =>
    simp only [hmem, not_false_eq_true, true_and, Option.bind_eq_some_iff, Option.map_eq_some_iff]
    constructor
    · rintro ⟨s', hs, T', hT, rfl⟩
      exact ⟨hs, hT⟩
    · rintro ⟨hs, hT⟩
      exact ⟨y.1, hs, y.2, hT, rfl⟩

/-- **The table shows the state in every run.** -/
theorem shows_of_reachable {x : St × Table} (h : kernel.Reachable x) : Good x.1 ∧ x.2.Shows x.1 := by
  refine h.invariant (P := fun x => Good x.1 ∧ x.2.Shows x.1) ?_ ?_
  · rintro ⟨s, T⟩ ⟨hs, hlist, hhand⟩
    refine ⟨⟨Inv.initial hs, maps_init hs⟩, ?_⟩
    obtain ⟨_, _, _, _, _, _, rfl⟩ := hs
    dsimp only at hlist hhand ⊢
    refine ⟨by rw [hlist]; exact List.nodup_nil, by rw [Table.frames, hlist]; rfl, ?_⟩
    rw [hhand]
    rfl
  · rintro x b y ⟨hgood, hshows⟩ - hstep
    obtain ⟨hfresh, hs, hT⟩ := kernel_step.mp hstep
    obtain ⟨T', hT', hshows'⟩ := hshows.step hgood.inv hs hfresh
    rw [hT] at hT'
    cases hT'
    exact ⟨hgood.step hs, hshows'⟩

end Vm
end Pintos

import Pintos.Vm.Flow

/-!
# The mappings of a process

What `mmap` and `page_unmap` rely on: the pages of a mapping have the entries that `mmap` made for them
until `page_unmap` deletes them, no two mappings share a page, and `mmap` finds the pages free.
-/

namespace Pintos
namespace Vm

def Caller.unmapping : Caller → Option (Mapping × ℕ)
  | .unmap _ m i => some (m, i)
  | _ => none

/-- The mapping that `page_unmap` is deleting, and the page it has come to. -/
def Pc.unmapping : Pc → Option (Mapping × ℕ)
  | .unmap _ m i _ => some (m, i)
  | p => p.caller.bind Caller.unmapping

/-- The mapping that the process is making or deleting. -/
def Pc.mapping : Pc → Option Mapping
  | .mmap m => some m
  | p => p.unmapping.map Prod.fst

/-- `page_unmap` is in the body of its loop. -/
def Pc.inside : Pc → Bool
  | .unmap _ _ _ .find | .unmap _ _ _ .close => false
  | _ => true

/-- The process has no mappings there. -/
def Pc.mapless : Pc → Bool
  | .absent | .start | .noDir | .noDirClose | .exitFrames | .exitEntries | .exitSlot _ _ | .exitDir
  | .exitPages => true
  | _ => false

/-- What `page_add_mmap` writes into the entry of page `i`. -/
def Mapping.origin (m : Mapping) (len i : ℕ) : Origin :=
  { mapped := true, writable := true, file := m.file, ofs := i * pgSize, readBytes := mapBytes len i }

/-- The mappings `l` of a process at `p` with the entries `o`. -/
structure Maps (userPages : ℕ) (len : ℕ → ℕ) (p : Pc) (l : List Mapping) (next : ℕ)
    (o : ℕ → Option Origin) : Prop where
  ids : l.Pairwise fun m m' => m.mapid ≠ m'.mapid
  next : ∀ m ∈ l, m.mapid < next
  range : ∀ m ∈ l, m.pageCnt ≤ mapPages (len m.file) ∧ ∀ i < m.pageCnt, m.addr + i < userPages
  entries : ∀ m ∈ l, ∀ i < m.pageCnt, (∀ j, p.unmapping = some (m, j) → j ≤ i) →
    o (m.addr + i) = some (m.origin (len m.file) i)
  disjoint : ∀ m ∈ l, ∀ m' ∈ l, ∀ i < m.pageCnt, ∀ i' < m'.pageCnt, m.addr + i = m'.addr + i' → m = m'
  current : ∀ m, p.mapping = some m → m ∈ l
  inside : ∀ m i, p.unmapping = some (m, i) → p.inside = true → i < m.pageCnt
  new : ∀ m, p = .mmap m → ∀ i, m.pageCnt ≤ i → i < mapPages (len m.file) →
    m.addr + i < userPages ∧ o (m.addr + i) = none
  mapless : p.mapless = true → l = []

def St.maps (s : St) (t : ℕ) : Prop :=
  Maps s.userPages (fun f => (s.files f).len) (s.pc t) (s.mmaps t) (s.nextMapid t)
    fun u => s.origin (t, u)

section Rules

variable {U n : ℕ} {len : ℕ → ℕ} {p q : Pc} {l : List Mapping} {o : ℕ → Option Origin} {m : Mapping}
  {i u : ℕ} {c : Caller} {why : Why}

namespace Maps

/-- A process without mappings. -/
theorem of_nil (hp : p.mapping = none) : Maps U len p [] n o where
  ids := .nil
  next := by simp
  range := by simp
  entries := by simp
  disjoint := by simp
  current m hm := by
    rw [hp] at hm
    cases hm
  inside m i hm := by
    have : p.mapping = some m := by
      cases p <;> simp_all [Pc.mapping, Pc.unmapping, Pc.caller]
    rw [hp] at this
    cases this
  new m hm := by
    subst hm
    cases hp
  mapless _ := rfl

/-- The process goes on at `q`. -/
theorem goto (h : Maps U len p l n o)
    (hun : ∀ m j, p.unmapping = some (m, j) → ∃ j', j ≤ j' ∧ q.unmapping = some (m, j'))
    (hcur : ∀ m, q.mapping = some m → m ∈ l)
    (hin : ∀ m j, q.unmapping = some (m, j) → q.inside = true → j < m.pageCnt)
    (hnew : ∀ m, q ≠ .mmap m) (hless : q.mapless = true → l = []) : Maps U len q l n o where
  ids := h.ids
  next := h.next
  range := h.range
  entries m hm i hi hj := by
    refine h.entries m hm i hi fun j hpj => ?_
    obtain ⟨j', hjj, hq⟩ := hun m j hpj
    exact Nat.le_trans hjj (hj j' hq)
  disjoint := h.disjoint
  current := hcur
  inside := hin
  new m hm := absurd hm (hnew m)
  mapless := hless

/-- From a place where the process is not deleting a mapping to one where it does nothing with one. -/
theorem leave (h : Maps U len p l n o) (hp : p.unmapping = none) (hq : q.mapping = none)
    (hless : q.mapless = true → p.mapless = true) : Maps U len q l n o := by
  have hqu : q.unmapping = none := by
    cases q <;> simp_all [Pc.mapping, Pc.unmapping]
  refine h.goto ?_ ?_ ?_ ?_ fun hm => h.mapless (hless hm)
  · intro m j hm
    rw [hp] at hm
    cases hm
  · intro m hm
    rw [hq] at hm
    cases hm
  · intro m j hm
    rw [hqu] at hm
    cases hm
  · rintro m rfl
    cases hq

/-- The caller of `frame_alloc` stays the same, or the process returns to it. -/
theorem same_unmapping (h : Maps U len p l n o) (hu : q.unmapping = p.unmapping)
    (hin : q.inside = true → p.inside = true) (hmap : ∀ m, q ≠ .mmap m)
    (hless : q.mapless = true → p.mapless = true) : Maps U len q l n o := by
  refine h.goto ?_ ?_ ?_ hmap fun hm => h.mapless (hless hm)
  · intro m j hm
    exact ⟨j, Nat.le_refl j, hu.trans hm⟩
  · intro m hm
    refine h.current m ?_
    have hq : q.unmapping.map Prod.fst = some m := by
      cases q with
      | mmap m' => exact absurd rfl (hmap m')
      | _ => exact hm
    rw [hu] at hq
    cases p with
    | mmap m' => simp [Pc.unmapping, Pc.caller] at hq
    | _ => exact hq
  · intro m j hm hi
    exact h.inside m j (hu ▸ hm) (hin hi)

theorem back_unmapping (c : Caller) (u : ℕ) (ok : Bool) :
    (c.back u ok).unmapping = c.unmapping ∧ (c.back u ok).mapless = false ∧
      ∀ m, c.back u ok ≠ .mmap m := by
  cases c with
  | fault source => cases source <;> cases ok <;> exact ⟨rfl, rfl, nofun⟩
  | _ => cases ok <;> exact ⟨rfl, rfl, nofun⟩

theorem of_back {ok : Bool} (h : Maps U len p l n o) (hc : p.caller = some c) :
    Maps U len (c.back u ok) l n o := by
  obtain ⟨hb, hl, hm⟩ := back_unmapping c u ok
  have hp : p.unmapping = c.unmapping ∧ p.inside = true := by
    cases p <;> simp_all [Pc.unmapping, Pc.caller, Pc.inside]
  refine h.same_unmapping (hb.trans hp.1.symm) (fun _ => hp.2) hm ?_
  rw [hl]
  exact nofun

/-- **The process goes on**, at a place where it makes, deletes and forgets nothing. -/
theorem goes (h : Maps U len p l n o) (hn : Next p q)
    (hmap : ∀ m m', p = .mmap m → q = .mmap m' → q = p)
    (hclose : ∀ why m i, p = .unmap why m i .close → q = p)
    (hexit : p = .exitUnmap → (∀ m, q.mapping = some m → m ∈ l) ∧ (q.mapless = true → l = [])) :
    Maps U len q l n o := by
  cases hn with
  | same => exact h
  | noDir | noDirClose | exitFrames | exitEntries | exitSlot u slot | exitDir | exitPages =>
    exact h.leave rfl rfl fun _ => rfl
  | construct | file | unpin | pinned u | notPinned u | mapped m | threadExit | exitFiles | exitExec =>
    exact h.leave rfl rfl nofun
  | loadDone b => cases b <;> exact h.leave rfl rfl nofun
  | full c u | frame c u k | skip c u i n | chosen c u i n v | evict c u st st' v | evicted c u st v
  | unlock c u k | made c u k | push c u k st | load c u k st st' | notLoaded c u k | unmapFault why m i =>
    exact h.same_unmapping rfl (fun _ => rfl) nofun nofun
  | noFrame c u k | loaded c u k | freePage c u k => exact h.of_back rfl
  | mapPage m =>
    have := congrArg Mapping.pageCnt (Pc.mmap.inj (hmap m _ rfl rfl))
    simp at this
  | mapFail m =>
    refine h.goto nofun ?_ nofun nofun nofun
    rintro _ ⟨⟩
    exact h.current m rfl
  | unmapFind why m i hi =>
    refine h.goto (fun m j hm => ⟨j, Nat.le_refl j, hm⟩) h.current ?_ nofun nofun
    rintro _ _ ⟨⟩ _
    exact hi
  | unmapEnd why m i => exact h.same_unmapping rfl nofun nofun nofun
  | unmap why m i st st' hst hst' =>
    refine h.same_unmapping rfl (fun _ => ?_) nofun nofun
    cases st with
    | find => exact absurd rfl hst
    | close =>
      have := hclose why m i rfl
      simp only [Pc.unmap.injEq] at this
      exact absurd this.2.2.2 hst'
    | _ => rfl
  | unmapNext why m i st =>
    refine h.goto ?_ ?_ nofun nofun nofun
    · rintro _ _ ⟨⟩
      exact ⟨i + 1, by omega, rfl⟩
    · rintro _ ⟨⟩
      exact h.current m rfl
  | unmapped why m i =>
    have := hclose why m i rfl
    split at this <;> cases this
  | exitUnmap m => exact h.goto nofun (hexit rfl).1 nofun nofun nofun
  | exitUnmapped => exact h.goto nofun nofun nofun nofun (hexit rfl).2

theorem goes_plain (h : Maps U len p l n o) (hn : Next p q) (hp : p.edits = false) :
    Maps U len q l n o := by
  refine h.goes hn ?_ ?_ ?_
  · rintro m m' rfl
    cases hp
  · rintro why m i rfl
    cases hp
  · rintro rfl
    cases hp

/-- `page_unmap` deletes the entry of its page. -/
theorem delete {st : UnmapPc} (h : Maps U len (.unmap why m i st) l n o)
    (hst : (Pc.unmap why m i st).inside = true) :
    Maps U len (.unmap why m (i + 1) .find) l n (Function.update o (m.addr + i) none) where
  ids := h.ids
  next := h.next
  range := h.range
  entries m' hm' i' hi' hj := by
    have hm : m ∈ l := h.current m rfl
    have hi : i < m.pageCnt := h.inside m i rfl hst
    have hne : m'.addr + i' ≠ m.addr + i := by
      intro he
      obtain rfl : m' = m := h.disjoint m' hm' m hm i' hi' i hi he
      have := hj (i + 1) rfl
      omega
    rw [Function.update_of_ne hne]
    refine h.entries m' hm' i' hi' fun j hpj => ?_
    obtain ⟨rfl, rfl⟩ : m = m' ∧ i = j := by simpa [Pc.unmapping] using hpj
    have := hj (i + 1) rfl
    omega
  disjoint := h.disjoint
  current m' hm' := by
    cases hm'
    exact h.current m rfl
  inside := nofun
  new := nofun
  mapless := nofun

/-- `page_unmap` is done with the mapping. -/
theorem close (h : Maps U len (.unmap why m i .close) l n o) (hq : q = .exitUnmap ∨ q = .run) :
    Maps U len q (l.filter fun m' => m'.mapid ≠ m.mapid) n o := by
  have hmap : q.mapping = none ∧ q.unmapping = none ∧ q.mapless = false := by
    obtain rfl | rfl := hq <;> exact ⟨rfl, rfl, rfl⟩
  have hmem : ∀ m', m' ∈ l.filter (fun m' => m'.mapid ≠ m.mapid) → m' ∈ l ∧ m' ≠ m := by
    intro m' hm'
    obtain ⟨h1, h2⟩ := List.mem_filter.1 hm'
    refine ⟨h1, ?_⟩
    rintro rfl
    simp at h2
  refine ⟨h.ids.filter _, ?_, ?_, ?_, ?_, ?_, ?_, ?_, ?_⟩
  · intro m' hm'
    exact h.next m' (hmem m' hm').1
  · intro m' hm'
    exact h.range m' (hmem m' hm').1
  · intro m' hm' i' hi' _
    refine h.entries m' (hmem m' hm').1 i' hi' fun j hj => ?_
    obtain ⟨rfl, -⟩ : m = m' ∧ i = j := by simpa [Pc.unmapping] using hj
    exact absurd rfl (hmem m hm').2
  · intro m1 h1 m2 h2
    exact h.disjoint m1 (hmem m1 h1).1 m2 (hmem m2 h2).1
  · intro m' hm'
    rw [hmap.1] at hm'
    cases hm'
  · intro m' j hm'
    rw [hmap.2.1] at hm'
    cases hm'
  · rintro m' rfl
    cases hmap.1
  · rw [hmap.2.2]
    exact nofun

/-- An entry is added at a page that has none. -/
theorem add (h : Maps U len p l n o) {x : Origin} (hu : o u = none) (hp : ∀ m, p ≠ .mmap m) :
    Maps U len p l n (Function.update o u (some x)) where
  ids := h.ids
  next := h.next
  range := h.range
  entries m hm i hi hj := by
    have he := h.entries m hm i hi hj
    rw [Function.update_of_ne, he]
    rintro rfl
    rw [hu] at he
    cases he
  disjoint := h.disjoint
  current := h.current
  inside := h.inside
  new m hm := absurd hm (hp m)
  mapless := h.mapless

/-- `mmap` begins. -/
theorem start (h : Maps U len .run l n o) (f addr : ℕ)
    (hfree : ∀ i, i < mapPages (len f) → addr + i < U ∧ o (addr + i) = none) :
    Maps U len (.mmap ⟨n, f, addr, 0⟩) (l ++ [⟨n, f, addr, 0⟩]) (n + 1) o := by
  have hmem : ∀ m, m ∈ l ++ [⟨n, f, addr, 0⟩] → m ∈ l ∨ m = ⟨n, f, addr, 0⟩ := by
    intro m hm
    simpa using hm
  refine ⟨?_, ?_, ?_, ?_, ?_, ?_, nofun, ?_, nofun⟩
  · rw [List.pairwise_append]
    refine ⟨h.ids, by simp, ?_⟩
    intro m hm m' hm'
    rw [List.mem_singleton] at hm'
    subst hm'
    exact Nat.ne_of_lt (h.next m hm)
  · intro m hm
    obtain hm | rfl := hmem m hm
    · exact Nat.lt_succ_of_lt (h.next m hm)
    · exact Nat.lt_succ_self n
  · intro m hm
    obtain hm | rfl := hmem m hm
    · exact h.range m hm
    · exact ⟨Nat.zero_le _, nofun⟩
  · intro m hm i hi _
    obtain hm | rfl := hmem m hm
    · exact h.entries m hm i hi nofun
    · cases hi
  · intro m hm m' hm' i hi i' hi' he
    obtain hm | rfl := hmem m hm
    · obtain hm' | rfl := hmem m' hm'
      · exact h.disjoint m hm m' hm' i hi i' hi' he
      · cases hi'
    · cases hi
  · rintro m ⟨⟩
    simp
  · rintro m ⟨⟩ i _ hi
    exact hfree i hi

/-- `mmap` adds a page. -/
theorem mapPage (h : Maps U len (.mmap m) l n o) (hlt : m.pageCnt < mapPages (len m.file)) :
    Maps U len (.mmap { m with pageCnt := m.pageCnt + 1 })
      (l.map fun x => if x.mapid = m.mapid then { m with pageCnt := m.pageCnt + 1 } else x) n
      (Function.update o (m.addr + m.pageCnt) (some (m.origin (len m.file) m.pageCnt))) := by
  have hm : m ∈ l := h.current m rfl
  obtain ⟨hU, hfree⟩ := h.new m rfl m.pageCnt (Nat.le_refl _) hlt
  -- the others stay, and have their entries elsewhere
  have hmem : ∀ m', m' ∈ l.map (fun x => if x.mapid = m.mapid then
      { m with pageCnt := m.pageCnt + 1 } else x) →
      m' = { m with pageCnt := m.pageCnt + 1 } ∨ m' ∈ l ∧ m'.mapid ≠ m.mapid := by
    intro m' hm'
    obtain ⟨x, hx, rfl⟩ := List.mem_map.1 hm'
    by_cases hid : x.mapid = m.mapid
    · exact .inl (if_pos hid)
    · rw [if_neg hid]
      exact .inr ⟨hx, hid⟩
  have hother : ∀ m' ∈ l, ∀ i < m'.pageCnt, m'.addr + i ≠ m.addr + m.pageCnt := by
    intro m' hm' i hi he
    have := h.entries m' hm' i hi nofun
    rw [he, hfree] at this
    cases this
  refine ⟨?_, ?_, ?_, ?_, ?_, ?_, nofun, ?_, nofun⟩
  · rw [List.pairwise_map]
    refine h.ids.imp fun {a b} hab => ?_
    have hid : ∀ x : Mapping, (if x.mapid = m.mapid then { m with pageCnt := m.pageCnt + 1 }
        else x).mapid = x.mapid := by
      intro x
      split
      · next hx => exact hx.symm
      · rfl
    rw [hid, hid]
    exact hab
  · intro m' hm'
    obtain rfl | ⟨hm', -⟩ := hmem m' hm'
    · exact h.next m hm
    · exact h.next m' hm'
  · intro m' hm'
    obtain rfl | ⟨hm', -⟩ := hmem m' hm'
    · refine ⟨hlt, fun i hi => ?_⟩
      obtain hi | rfl := Nat.lt_succ_iff_lt_or_eq.1 hi
      · exact (h.range m hm).2 i hi
      · exact hU
    · exact h.range m' hm'
  · intro m' hm' i hi _
    obtain rfl | ⟨hm', -⟩ := hmem m' hm'
    · obtain hi | rfl := Nat.lt_succ_iff_lt_or_eq.1 hi
      · rw [Function.update_of_ne (hother m hm i hi)]
        exact h.entries m hm i hi nofun
      · exact Function.update_self ..
    · rw [Function.update_of_ne (hother m' hm' i hi)]
      exact h.entries m' hm' i hi nofun
  · intro m1 h1 m2 h2 i1 hi1 i2 hi2 he
    obtain rfl | ⟨h1, hid1⟩ := hmem m1 h1
    · obtain rfl | ⟨h2, hid2⟩ := hmem m2 h2
      · rfl
      · exfalso
        obtain hi1 | rfl := Nat.lt_succ_iff_lt_or_eq.1 hi1
        · exact hid2 (congrArg Mapping.mapid (h.disjoint m hm m2 h2 i1 hi1 i2 hi2 he)).symm
        · exact hother m2 h2 i2 hi2 he.symm
    · obtain rfl | ⟨h2, hid2⟩ := hmem m2 h2
      · exfalso
        obtain hi2 | rfl := Nat.lt_succ_iff_lt_or_eq.1 hi2
        · exact hid1 (congrArg Mapping.mapid (h.disjoint m1 h1 m hm i1 hi1 i2 hi2 he))
        · exact hother m1 h1 i1 hi1 he
      · exact h.disjoint m1 h1 m2 h2 i1 hi1 i2 hi2 he
  · rintro m' ⟨⟩
    refine List.mem_map.2 ⟨m, hm, if_pos rfl⟩
  · rintro m' ⟨⟩ i hi hlen
    have hi' : m.pageCnt + 1 ≤ i := hi
    obtain ⟨hu, ho⟩ := h.new m rfl i (by omega) hlen
    refine ⟨hu, ?_⟩
    rw [Function.update_of_ne, ho]
    show m.addr + i ≠ m.addr + m.pageCnt
    omega

end Maps

end Rules

/-! ### The actions keep the mappings -/

section Steps

variable {s s' : St} {t : ℕ} {ok : Bool} {p q : Pc} {l : List Mapping} {n : ℕ} {o : ℕ → Option Origin}

theorem St.maps_of (h : Maps s.userPages (fun f => (s.files f).len) q l n o)
    (hU : s'.userPages = s.userPages) (hlen : ∀ f, (s'.files f).len = (s.files f).len)
    (hq : s'.pc t = q) (hl : s'.mmaps t = l) (hn : s'.nextMapid t = n)
    (ho : ∀ u, s'.origin (t, u) = o u) : s'.maps t := by
  have hlen' : (fun f => (s'.files f).len) = fun f => (s.files f).len := funext hlen
  have ho' : (fun u => s'.origin (t, u)) = o := funext ho
  rw [St.maps, hU, hlen', hq, hl, hn, ho']
  exact h

theorem St.maps_aside {t' : ℕ} (h : s.maps t') (ha : Aside s s' t) (ht : t' ≠ t) : s'.maps t' :=
  St.maps_of h ha.userPages ha.len (ha.pc t' ht) (ha.mmaps t' ht) (ha.nextMapid t' ht)
    fun u => ha.origin (t', u) ht

theorem St.maps_calm (h : Maps s.userPages (fun f => (s.files f).len) q (s.mmaps t) (s.nextMapid t)
    fun u => s.origin (t, u)) (hc : Calm s s') (hq : s'.pc t = q) : s'.maps t :=
  St.maps_of h hc.userPages hc.len hq (by rw [hc.mmaps]) (by rw [hc.nextMapid]) fun u =>
    hc.origin (t, u)

theorem St.Goes.self (h : s.Goes s' t p) : Next p (s'.pc t) := by
  obtain ⟨q, hq, hn⟩ := h
  rw [hq, Function.update_self]
  exact hn

theorem St.origin_none {κ : Key} (h : s.spt κ = none) : s.origin κ = none := by
  rw [St.origin, h]
  rfl

theorem St.spt_none {κ : Key} (h : s.origin κ = none) : s.spt κ = none := by
  rw [St.origin, Option.map_eq_none_iff] at h
  exact h

/-- An entry of the process is deleted. -/
theorem origin_delete (s : St) (t u v : ℕ) :
    ({ s with spt := Function.update s.spt (t, u) none } : St).origin (t, v) =
      Function.update (fun v => s.origin (t, v)) u none v := by
  by_cases hv : v = u
  · subst hv
    simp [St.origin]
  · have : (t, v) ≠ (t, u) := fun h => hv (congrArg Prod.snd h)
    simp only [St.origin, Function.update_of_ne this, Function.update_of_ne hv]

theorem origin_addEntry (s : St) (t u v : ℕ) (e : Entry) :
    (addEntry s (t, u) e).origin (t, v) =
      Function.update (fun v => s.origin (t, v)) u (some e.origin) v := by
  by_cases hv : v = u
  · subst hv
    simp [St.origin, addEntry]
  · have : (t, v) ≠ (t, u) := fun h => hv (congrArg Prod.snd h)
    simp only [St.origin, addEntry, Function.update_of_ne this, Function.update_of_ne hv]

theorem St.maps_body (h : s.maps t) (hb : body s t ok = some s') : s'.maps t := by
  have hn := (body_goes hb).self
  have hd := does_body hb
  unfold St.maps at h
  generalize s.pc t = p at h hn hd
  cases hd with
  | work hw hp _ => exact St.maps_calm (h.goes_plain hn hp) hw.still.toCalm rfl
  | release L mem _ hL =>
    exact St.maps_of (h.goes_plain hn (Pc.not_edits_of_frees hL)) rfl (fun _ => rfl) rfl rfl rfl
      fun _ => rfl
  | check u l | clearPte | exitDir =>
    exact St.maps_of (h.goes_plain hn rfl) rfl (fun _ => rfl) rfl rfl rfl fun _ => rfl
  | endCall l hand _ hp =>
    obtain rfl | rfl := hp <;>
      exact St.maps_of (h.goes_plain hn rfl) rfl (fun _ => rfl) rfl rfl rfl fun _ => rfl
  | mapFail m =>
    exact St.maps_calm (h.goes (.mapFail m) (by simp) (by simp) (by simp)) (Calm.goto rfl) (St.setPc_self ..)
  | mapPage m hlt =>
    exact St.maps_of (h.mapPage hlt) rfl (fun _ => rfl) (St.setPc_self ..) (by simp [St.setPc])
      rfl fun u => origin_addEntry s t (m.addr + m.pageCnt) u _
  | mapped m =>
    exact St.maps_calm (h.goes (.mapped m) (by simp) (by simp) (by simp)) (Calm.goto rfl) (St.setPc_self ..)
  | write => exact St.maps_calm (h.goes_plain hn rfl) ((calm_writeFile ..).setPc ..) rfl
  | delete why m i st su pn hst =>
    refine St.maps_of (h.delete ?_) rfl (fun _ => rfl) (St.setPc_self ..) rfl rfl (origin_delete s t _)
    obtain rfl | ⟨_, rfl⟩ := hst <;> rfl
  | close why m i =>
    refine St.maps_of (h.close (q := if why = .exit then .exitUnmap else .run) ?_) rfl (fun _ => rfl)
      (St.setPc_self ..) (by simp [St.setPc]) rfl fun _ => rfl
    split
    · exact .inl rfl
    · exact .inr rfl
  | exitUnmapped hl =>
    exact St.maps_calm (h.goes .exitUnmapped (by simp) (by simp) fun _ => ⟨by rintro _ ⟨⟩, fun _ => hl⟩)
      (Calm.goto rfl) (St.setPc_self ..)
  | exitUnmap m hm =>
    refine St.maps_calm (h.goes (.exitUnmap m) (by simp) (by simp) fun _ => ⟨?_, by rintro ⟨⟩⟩)
      (Calm.goto rfl) (St.setPc_self ..)
    rintro _ ⟨⟩
    exact hm
  | exitSlot u slot =>
    have hl : s.mmaps t = [] := h.mapless rfl
    rw [St.maps, St.setPc_self]
    exact hl ▸ Maps.of_nil rfl

theorem St.maps_go (h : s.maps t) (hg : go s t ok = some s') : s'.maps t := by
  obtain ⟨hp, -, rfl⟩ | ⟨c, u, hp, -, rfl⟩ | ⟨-, hb⟩ | ⟨L, x, -, -, hb, rfl⟩ | ⟨L, -, -, rfl⟩ :=
    go_cases hg
  · split
    · have hl : (makeDir (s.setLock .filesys (some t)) t).mmaps t = [] := by
        simp [makeDir, St.setPc]
      have hq : (makeDir (s.setLock .filesys (some t)) t).pc t = .loading := St.setPc_self ..
      rw [St.maps, hq, hl]
      exact Maps.of_nil rfl
    · have hM := h.leave (q := .noDir) (by rw [hp]; rfl) rfl fun _ => by rw [hp]; rfl
      exact St.maps_of hM rfl (fun _ => rfl) (St.setPc_self ..) rfl rfl fun _ => rfl
  · have hM := h.same_unmapping (q := .sweep c u 0 s.frameList.length) (by rw [hp]; rfl)
      (fun _ => by rw [hp]; rfl) (by simp) (by rintro ⟨⟩)
    exact St.maps_of hM rfl (fun _ => rfl) (St.setPc_self ..) rfl rfl fun _ => rfl
  · exact St.maps_body h hb
  · exact St.maps_of (St.maps_body h hb) rfl (fun _ => rfl) rfl rfl rfl fun _ => rfl
  · exact St.maps_of h rfl (fun _ => rfl) rfl rfl rfl fun _ => rfl

/-- The process is at a place where it does nothing with a mapping, and stays there or goes on. -/
theorem St.maps_leave (h : s.maps t) (hp : s.pc t = p) (hpm : p.mapping = none) (hc : Calm s s')
    (hq : s'.pc t = q) (hqm : q.mapping = none) (hless : q.mapless = true → p.mapless = true) :
    s'.maps t := by
  have hpu : p.unmapping = none := by
    cases p <;> simp_all [Pc.mapping, Pc.unmapping]
  subst hp
  exact St.maps_calm (h.leave hpu hqm hless) hc hq

theorem back_plain_mapping (source : Source) (u : ℕ) (ok : Bool) :
    ((Caller.fault source).back u ok).mapping = none ∧
      ((Caller.fault source).back u ok).mapless = false := by
  cases source <;> cases ok <;> exact ⟨rfl, rfl⟩

theorem finish_pc (s : St) (t : ℕ) (c : Caller) (u : ℕ) (ok : Bool) :
    (s.finish t c u ok).pc t = c.back u ok := by
  obtain he | he := s.finish_eq t c u ok
  · rw [he]
    exact St.setPc_self ..
  · rw [he]
    exact St.setPc_self ..

/-- A page is added outside of `mmap`. -/
theorem St.maps_addEntry {u : ℕ} {e : Entry} (h : s.maps t) (hp : s.pc t = p)
    (hpm : p.mapping = none) (hn : s.spt (t, u) = none) (hq : q.mapping = none)
    (hless : q.mapless = true → p.mapless = true) :
    ((addEntry s (t, u) e).setPc t q).maps t := by
  have hpu : p.unmapping = none := by
    cases p <;> simp_all [Pc.mapping, Pc.unmapping]
  subst hp
  have hM := (h.leave hpu hq hless).add (u := u) (x := e.origin) (St.origin_none hn) (by
    rintro m rfl
    cases hq)
  exact St.maps_of hM rfl (fun _ => rfl) (St.setPc_self ..) rfl rfl (origin_addEntry s t u · e)

theorem St.maps_growStack {u b esp : ℕ} {c : Caller} (h : s.maps t) (hp : s.pc t = p)
    (hpm : p.mapping = none) (hn : s.spt (t, u) = none) (hc : (Pc.alloc c u).mapping = none)
    (hb : (c.back u false).mapping = none) :
    (growStack s t u b esp ok c).maps t := by
  unfold growStack
  split
  · exact St.maps_addEntry h hp hpm hn hc nofun
  · refine St.maps_leave h hp hpm (still_finish ..).toCalm (finish_pc ..) hb fun hm => ?_
    rw [(Maps.back_unmapping c u false).2.1] at hm
    cases hm

theorem back_mapping (source : Source) : source.back.mapping = none := by cases source <;> rfl

/-- **Every action keeps the mappings of every process.** -/
theorem maps_step {a : Act} (h : ∀ t, s.maps t) (hs : step s a = some s') (t : ℕ) : s'.maps t := by
  by_cases hne : a.actor ≠ none ∧ a.actor ≠ some t
  · obtain ⟨t', ht'⟩ := Option.ne_none_iff_exists'.1 hne.1
    refine St.maps_aside (h t) (aside_step hs (.inl ht')) ?_
    rintro rfl
    exact hne.2 ht'
  have hact := Act.actor_unique (show a.actor = some t ∨ a.actor = none by tauto)
  have ht := h t
  cases step_cases hs with
  | deny f b =>
    refine St.maps_of ht rfl (fun g => ?_) rfl rfl rfl fun _ => rfl
    by_cases hg : g = f
    · subst hg
      simp
    · simp [Function.update_of_ne hg]
  | go t' ok hg => obtain rfl := hact _ rfl; exact St.maps_go ht hg
  | spawn t' hp | destroySlot t' _ _ _ hp =>
    obtain rfl := hact _ rfl
    exact St.maps_leave ht hp rfl (Calm.goto rfl) (St.setPc_self ..) rfl fun _ => rfl
  | addFile t' u f ofs k w hp _ hn =>
    obtain rfl := hact _ rfl
    have := St.maps_addEntry (e := fileEntry f ofs k w) ht hp rfl hn
      (show Pc.loading.mapping = none from rfl) (by simp)
    rwa [← hp, St.setPc, show s.pc t' = (addEntry s (t', u) (fileEntry f ofs k w)).pc t' from rfl,
      Function.update_eq_self] at this
  | setupStack t' hp _ hn => obtain rfl := hact _ rfl; exact St.maps_addEntry ht hp rfl hn rfl (by rintro ⟨⟩)
  | load => exact St.maps_calm ht (Calm.of_common rfl) rfl
  | store => exact St.maps_calm ht { Calm.refl s with } rfl
  | kill t' u _ _ _ _ source hacc =>
    obtain rfl := hact _ rfl
    obtain ⟨hb, hbl⟩ := back_plain_mapping source u false
    exact St.maps_leave ht (St.pc_of_accessor hacc) (back_mapping source) (still_finish ..).toCalm
      (finish_pc ..) hb (by rw [hbl]; simp)
  | fault t' u _ _ _ _ source _ hacc =>
    obtain rfl := hact _ rfl
    exact St.maps_leave ht (St.pc_of_accessor hacc) (back_mapping source) (Calm.goto rfl)
      (St.setPc_self ..) rfl (by rintro ⟨⟩)
  | faultGrow t' u _ _ _ _ source hacc _ _ hn =>
    obtain rfl := hact _ rfl
    exact St.maps_growStack ht (St.pc_of_accessor hacc) (back_mapping source) hn rfl
      (back_plain_mapping source u false).1
  | enter | checkWritable => exact St.maps_of ht rfl (fun _ => rfl) rfl rfl rfl fun _ => rfl
  | pinGrow t' u _ _ _ hp _ _ hn =>
    obtain rfl := hact _ rfl
    exact St.maps_growStack ht hp rfl hn rfl rfl
  | pin t' u _ _ _ _ hp =>
    obtain rfl := hact _ rfl
    refine St.maps_leave ht hp rfl (Calm.goto rfl) (St.setPc_self ..) ?_ ?_
    · split <;> rfl
    · split <;> rintro ⟨⟩
  | write => exact St.maps_calm ht (calm_writeFile ..) (by rw [writeFile_pc])
  | mmap t' f addr hp _ _ hfree =>
    obtain rfl := hact _ rfl
    rw [St.maps, hp] at ht
    refine St.maps_of (ht.start f addr fun i hi => ?_) rfl (fun _ => rfl) (St.setPc_self ..)
      (by simp [St.setPc]) (by simp [St.setPc]) fun _ => rfl
    exact ⟨(hfree i hi).1, St.origin_none (hfree i hi).2⟩
  | munmap t' mapid m hp _ hm =>
    obtain rfl := hact _ rfl
    rw [St.maps, hp] at ht
    refine St.maps_calm (ht.goto (q := .unmap .munmap m 0 .find) ?_ ?_ ?_ (by simp) ?_) (Calm.goto rfl)
      (St.setPc_self ..)
    · rintro _ _ ⟨⟩
    · rintro _ ⟨⟩
      exact hm
    · rintro _ _ _ ⟨⟩
    · rintro ⟨⟩
  | destroy t' u _ hp =>
    obtain rfl := hact _ rfl
    have hl : s.mmaps t' = [] := ht.mapless (by rw [hp]; rfl)
    show Maps s.userPages _ (s.pc t') (s.mmaps t') _ _
    rw [hl, hp]
    exact Maps.of_nil rfl
  | _ t' =>
    obtain rfl := hact _ rfl
    exact St.maps_leave ht ‹_› rfl (Calm.goto rfl) (St.setPc_self ..) rfl (by rintro ⟨⟩)

theorem maps_init (hi : sys.init s) (t : ℕ) : s.maps t := by
  obtain ⟨a, b, c, f, m, w, rfl⟩ := hi
  exact Maps.of_nil rfl

end Steps

end Vm
end Pintos

import Pintos.Vm.Paging

/-!
# Where a process goes on, and what it leaves to the others

* `Next` — the places to which a process can go from its place;
* `Calm` — what the code between two places where something is added, deleted, taken or released leaves
  as it is;
* `Does`, `Step` — what a process does at its place, and what an action is, case by case;
* `Aside` — what an action of one process leaves to the others: their places, their mappings, what
  their system calls have checked, and what their entries were created with. It may evict their pages
  and change the bytes of files.
-/

namespace Pintos
namespace Vm

variable {s s' x : St} {t u k : ℕ} {κ : Key} {c : Caller} {e : Entry} {p : Pc} {ok : Bool}

/-! ### Control flow -/

/-- The caller of `frame_alloc`. -/
def Pc.caller : Pc → Option Caller
  | .alloc c _ | .evictLock c _ | .sweep c _ _ _ | .evict c _ _ _ | .evictUnlock c _ _
  | .makeFrame c _ _ | .push c _ _ | .load c _ _ _ | .freePage c _ _ => some c
  | _ => none

/-- The page that `frame_alloc` and what follows are about. -/
def Pc.about : Pc → Option ℕ
  | .alloc _ u | .evictLock _ u | .sweep _ u _ _ | .evict _ u _ _ | .evictUnlock _ u _
  | .makeFrame _ u _ | .push _ u _ | .load _ u _ _ | .freePage _ u _ => some u
  | _ => none

/-- Where the process goes on after `handle_mm_fault` or `setup_stack`. -/
def Caller.back (c : Caller) (u : ℕ) (ok : Bool) : Pc :=
  match c, ok with
  | .fault .user, false => .threadExit
  | .fault source, _ => source.back
  | .pin, true => .pin u
  | .pin, false => .threadExit
  | .unmap why m i, true => .unmap why m i .pin
  | .unmap why m i, false => .unmap why m i .delete
  | .setupStack, true => .construct
  | .setupStack, false => .loadDone false

theorem St.finish_eq (s : St) (t : ℕ) (c : Caller) (u : ℕ) (ok : Bool) :
    s.finish t c u ok = s.setPc t (c.back u ok) ∨
      s.finish t c u ok = (s.setPc t (c.back u ok)).panic .kernelFault := by
  cases c with
  | fault source => cases source <;> cases ok <;> simp [St.finish, Caller.back]
  | _ => cases ok <;> simp [St.finish, Caller.back]

/-- The places that follow a place in the code of `go`. -/
inductive Next : Pc → Pc → Prop
  -- The kernel stops, or a loop takes another turn.
  | same (p : Pc) : Next p p
  | noDir : Next .noDir .noDirClose
  | noDirClose : Next .noDirClose .absent
  | construct : Next .construct (.loadDone true)
  | loadDone (b : Bool) : Next (.loadDone b) (if b then .run else .threadExit)
  | file : Next .file .run
  | unpin : Next .unpin .run
  | full (c : Caller) (u : ℕ) : Next (.alloc c u) (.evictLock c u)
  | frame (c : Caller) (u k : ℕ) : Next (.alloc c u) (.makeFrame c u k)
  | skip (c : Caller) (u i n : ℕ) : Next (.sweep c u i n) (.sweep c u (i + 1) n)
  | chosen (c : Caller) (u i n : ℕ) (v : Victim) : Next (.sweep c u i n) (.evict c u .clearKpage v)
  | evict (c : Caller) (u : ℕ) (st st' : EvictPc) (v : Victim) :
      Next (.evict c u st v) (.evict c u st' v)
  | evicted (c : Caller) (u : ℕ) (st : EvictPc) (v : Victim) :
      Next (.evict c u st v) (.evictUnlock c u v.kpage)
  | unlock (c : Caller) (u k : ℕ) : Next (.evictUnlock c u k) (.makeFrame c u k)
  | made (c : Caller) (u k : ℕ) : Next (.makeFrame c u k) (.push c u k)
  | noFrame (c : Caller) (u k : ℕ) : Next (.makeFrame c u k) (c.back u false)
  | push (c : Caller) (u k : ℕ) (st : LoadPc) : Next (.push c u k) (.load c u k st)
  | load (c : Caller) (u k : ℕ) (st st' : LoadPc) : Next (.load c u k st) (.load c u k st')
  | loaded (c : Caller) (u k : ℕ) : Next (.load c u k .install) (c.back u true)
  | notLoaded (c : Caller) (u k : ℕ) : Next (.load c u k .free) (.freePage c u k)
  | freePage (c : Caller) (u k : ℕ) : Next (.freePage c u k) (c.back u false)
  | pinned (u : ℕ) : Next (.pin u) .run
  | notPinned (u : ℕ) : Next (.pin u) (.alloc .pin u)
  | mapPage (m : Mapping) : Next (.mmap m) (.mmap { m with pageCnt := m.pageCnt + 1 })
  | mapFail (m : Mapping) : Next (.mmap m) (.unmap .mmap m 0 .find)
  | mapped (m : Mapping) : Next (.mmap m) .run
  | unmapFind (why : Why) (m : Mapping) (i : ℕ) (hi : i < m.pageCnt) :
      Next (.unmap why m i .find) (.unmap why m i .pin)
  | unmapEnd (why : Why) (m : Mapping) (i : ℕ) :
      Next (.unmap why m i .find) (.unmap why m i .close)
  | unmap (why : Why) (m : Mapping) (i : ℕ) (st st' : UnmapPc) (hst : st ≠ .find)
      (hst' : st' ≠ .close) : Next (.unmap why m i st) (.unmap why m i st')
  | unmapNext (why : Why) (m : Mapping) (i : ℕ) (st : UnmapPc) :
      Next (.unmap why m i st) (.unmap why m (i + 1) .find)
  | unmapFault (why : Why) (m : Mapping) (i : ℕ) :
      Next (.unmap why m i .pin) (.alloc (.unmap why m i) (m.addr + i))
  | unmapped (why : Why) (m : Mapping) (i : ℕ) :
      Next (.unmap why m i .close) (if why = Why.exit then .exitUnmap else .run)
  | threadExit : Next .threadExit .exitFiles
  | exitFiles : Next .exitFiles .exitExec
  | exitExec : Next .exitExec .exitUnmap
  | exitUnmap (m : Mapping) : Next .exitUnmap (.unmap .exit m 0 .find)
  | exitUnmapped : Next .exitUnmap .exitFrames
  | exitFrames : Next .exitFrames .exitEntries
  | exitEntries : Next .exitEntries .exitDir
  | exitSlot (u slot : ℕ) : Next (.exitSlot u slot) .exitEntries
  | exitDir : Next .exitDir .exitPages
  | exitPages : Next .exitPages .absent

/-- The process goes from `p` to a place that follows. -/
def St.Goes (s s' : St) (t : ℕ) (p : Pc) : Prop :=
  ∃ q, s'.pc = Function.update s.pc t q ∧ Next p q

theorem goes_setPc {q : Pc} (hx : x.pc = s.pc) (h : Next p q) : s.Goes (x.setPc t q) t p :=
  ⟨q, by rw [← hx]; rfl, h⟩

/-- It stays where it is. -/
theorem goes_same (hx : s'.pc = s.pc) (hp : s.pc t = p) : s.Goes s' t p :=
  ⟨p, by rw [hx, ← hp, Function.update_eq_self], .same p⟩

theorem writeFile_fields (s : St) (f lo n : ℕ) (data : Bytes) (own : Option Key) :
    ∃ files ghost, writeFile s f lo n data own = { s with files := files, ghost := ghost } := by
  unfold writeFile
  split
  · exact ⟨s.files, s.ghost, rfl⟩
  · exact ⟨_, _, rfl⟩

theorem writeFile_pc (s : St) (f lo n : ℕ) (data : Bytes) (own : Option Key) :
    (writeFile s f lo n data own).pc = s.pc := by
  obtain ⟨files, ghost, h⟩ := writeFile_fields s f lo n data own
  rw [h]

/-! ### Code that leaves most things as they are -/

/-- What `page_add_file`, `page_add_anon` or `page_add_mmap` has written into an entry. -/
structure Origin where
  mapped : Bool
  writable : Bool
  file : ℕ
  ofs : ℕ
  readBytes : ℕ
  deriving DecidableEq

def Entry.origin (e : Entry) : Origin :=
  ⟨e.type = .mmap, e.writable, e.file, e.ofs, e.readBytes⟩

def St.origin (s : St) (κ : Key) : Option Origin := (s.spt κ).map Entry.origin

/-- The page is one of zeros, or comes from the swap device. -/
def St.AnonAt (s : St) (κ : Key) : Prop := ∃ e, s.spt κ = some e ∧ e.type = .anon

structure Calm (s s' : St) : Prop where
  lock : s'.lock = s.lock
  call : s'.call = s.call
  checked : s'.checked = s.checked
  pagedir : s'.pagedir = s.pagedir
  mmaps : s'.mmaps = s.mmaps
  nextMapid : s'.nextMapid = s.nextMapid
  userPages : s'.userPages = s.userPages
  poolSize : s'.poolSize = s.poolSize
  swapSize : s'.swapSize = s.swapSize
  origin : ∀ κ, s'.origin κ = s.origin κ
  anon : ∀ κ, s.AnonAt κ → s'.AnonAt κ
  len : ∀ f, (s'.files f).len = (s.files f).len

/-- Nor does anything happen to a file or to the history of a page. -/
structure Still (s s' : St) : Prop extends Calm s s' where
  files : s'.files = s.files
  ghost : s'.ghost = s.ghost

theorem Calm.trans (h : Calm s x) (h' : Calm x s') : Calm s s' where
  lock := h'.lock.trans h.lock
  call := h'.call.trans h.call
  checked := h'.checked.trans h.checked
  pagedir := h'.pagedir.trans h.pagedir
  mmaps := h'.mmaps.trans h.mmaps
  nextMapid := h'.nextMapid.trans h.nextMapid
  userPages := h'.userPages.trans h.userPages
  poolSize := h'.poolSize.trans h.poolSize
  swapSize := h'.swapSize.trans h.swapSize
  origin κ := (h'.origin κ).trans (h.origin κ)
  anon κ hκ := h'.anon κ (h.anon κ hκ)
  len f := (h'.len f).trans (h.len f)

theorem Still.trans (h : Still s x) (h' : Still x s') : Still s s' where
  toCalm := h.toCalm.trans h'.toCalm
  files := h'.files.trans h.files
  ghost := h'.ghost.trans h.ghost

/-- What `Still` is about. -/
def St.common (s : St) :=
  (s.lock, s.call, s.checked, s.pagedir, s.mmaps, s.nextMapid, s.userPages, s.poolSize, s.swapSize,
    s.spt, s.files, s.ghost)

theorem Still.of_common (h : s'.common = s.common) : Still s s' := by
  simp only [St.common, Prod.mk.injEq] at h
  obtain ⟨h1, h2, h3, h4, h5, h6, h7, h8, h9, h10, h11, h12⟩ := h
  refine ⟨⟨h1, h2, h3, h4, h5, h6, h7, h8, h9, ?_, ?_, ?_⟩, h11, h12⟩
  · intro κ
    rw [St.origin, St.origin, h10]
  · intro κ hκ
    rwa [St.AnonAt, h10]
  · intro f
    rw [h11]

theorem Calm.of_common (h : s'.common = s.common) : Calm s s' := (Still.of_common h).toCalm

theorem Still.refl (s : St) : Still s s := Still.of_common rfl

theorem Calm.refl (s : St) : Calm s s := Calm.of_common rfl

theorem Still.setPc (h : Still s x) (t : ℕ) (p : Pc) : Still s (x.setPc t p) :=
  h.trans (Still.of_common rfl)

theorem Calm.setPc (h : Calm s x) (t : ℕ) (p : Pc) : Calm s (x.setPc t p) :=
  h.trans (Calm.of_common rfl)

theorem Calm.goto (h : x.common = s.common) : Calm s (x.setPc t p) := (Calm.of_common h).setPc t p

/-- A change of an entry that leaves where it came from. -/
theorem still_setEntry {f : Entry → Entry} (hf : ∀ e, (f e).origin = e.origin)
    (ha : ∀ e, e.type = .anon → (f e).type = .anon) : Still s (s.setEntry κ f) := by
  refine { Still.refl s with origin := fun κ' => ?_, anon := fun κ' hκ' => ?_ }
  · by_cases hκ : κ' = κ
    · subst hκ
      simp only [St.origin, St.setEntry, Function.update_self, Option.map_map]
      congr 1
      funext e
      exact hf e
    · simp only [St.origin, St.setEntry, Function.update_of_ne hκ]
  · obtain ⟨e, he, hae⟩ := hκ'
    by_cases hκ : κ' = κ
    · subst hκ
      exact ⟨f e, by simp [St.setEntry, he], ha e hae⟩
    · exact ⟨e, by simp [St.setEntry, Function.update_of_ne hκ, he], hae⟩

theorem still_finish (s : St) (t : ℕ) (c : Caller) (u : ℕ) (ok : Bool) :
    Still s (s.finish t c u ok) := by
  obtain he | he := s.finish_eq t c u ok
  · rw [he]
    exact Still.of_common rfl
  · rw [he]
    exact Still.of_common rfl

theorem calm_writeFile (s : St) (f lo n : ℕ) (data : Bytes) (own : Option Key) :
    Calm s (writeFile s f lo n data own) := by
  unfold writeFile
  split
  · exact Calm.refl s
  · refine { Calm.refl s with len := fun g => ?_ }
    by_cases hg : g = f
    · subst hg
      simp
    · simp [Function.update_of_ne hg]

/-! ### What a process does at its place -/

/-- The process is at a turn of the clock. -/
def Pc.sweeps : Pc → Bool
  | .sweep _ _ _ _ => true
  | _ => false

/-- The lock that the process releases here, after it has taken it elsewhere. -/
def Pc.frees : Pc → Option Lock
  | .noDir | .loadDone _ => some .filesys
  | .evictUnlock _ _ _ => some .frame
  | _ => none

/-- The process begins or ends something with a mapping. -/
def Pc.edits : Pc → Bool
  | .mmap _ | .unmap _ _ _ .close | .exitUnmap => true
  | _ => false

theorem Pc.not_edits_of_frees {L : Lock} (h : p.frees = some L) : p.edits = false := by
  cases p <;> first | rfl | cases h

theorem Pc.frees_of_section {L : Lock} (h : p.section = some L) : p.frees = none := by
  cases p <;> first | rfl | cases h

/-- Work on frames, slots, page tables and entries that the other parts of the kernel do not see. -/
inductive Work (s : St) (t : ℕ) : Pc → St → Prop
  | stop {p : Pc} (x : Panic) (hx : x = .noFrame → p.sweeps = true) : Work s t p (s.panic x)
  | quiet {p q : Pc} (used swapUsed : ℕ → Bool) (mem swap : ℕ → Bytes) (panicked : Option Panic)
      (h : Next p q) (hx : panicked = some .noFrame → s.panicked = some .noFrame) :
      Work s t p ({ s with used := used, swapUsed := swapUsed, mem := mem, swap := swap
                           panicked := panicked }.setPc t q)
  | entry {p q : Pc} (κ : Key) (f : Entry → Entry) (h : Next p q)
      (ho : ∀ e, (f e).origin = e.origin) (ha : ∀ e, e.type = .anon → (f e).type = .anon) :
      Work s t p ((s.setEntry κ f).setPc t q)
  | pte {p q : Pc} (κ : Key) (g : Pte → Pte) (h : Next p q) (hg : ∀ x, (g x).accessed = x.accessed) :
      Work s t p ((s.setPte κ g).setPc t q)
  | setPage (c : Caller) (u k : ℕ) (b w : Bool) (st : LoadPc) (tables : ℕ × ℕ → Bool) :
      Work s t (.load c u k (.setPage b)) (({ s with tables := tables }.setPte (t, u)
        fun _ => ⟨k, true, w, false, false⟩).setPc t (.load c u k st))
  | frames {p q : Pc} (l : List Frame) (hand : Option ℕ) (panicked : Option Panic) (h : Next p q)
      (hs : p.section = some .frame ∨ p.sweeps = true)
      (hx : panicked = some .noFrame → s.panicked = some .noFrame) :
      Work s t p ({ s with frameList := l, hand := hand, panicked := panicked }.setPc t q)
  | turn (c : Caller) (u i n : ℕ) (κ : Key) (hand : Option ℕ) :
      Work s t (.sweep c u i n) (({ s with hand := hand }.setPte κ
        fun p => { p with accessed := false }).setPc t (.sweep c u (i + 1) n))
  | destroyPage (u : ℕ) (used : ℕ → Bool) (mem : ℕ → Bytes) (panicked : Option Panic)
      (hx : panicked = some .noFrame → s.panicked = some .noFrame) :
      Work s t .exitPages ({ s with used := used, mem := mem, panicked := panicked }.setPte (t, u)
        fun p => { p with present := false })

/-- What a process does at its place. -/
inductive Does (s : St) (t : ℕ) (ok : Bool) : Pc → St → Prop
  | work {p : Pc} {s' : St} (h : Work s t p s') (hp : p.edits = false)
      (hf : p.frees = none) : Does s t ok p s'
  | release {p q : Pc} (L : Lock) (mem : ℕ → Bytes) (h : Next p q) (hL : p.frees = some L) :
      Does s t ok p ({ s.setLock L none with mem := mem }.setPc t q)
  | check (u : ℕ) (l : List Frame) : Does s t ok (.pin u) ({ s with
      frameList := l
      checked := Function.update s.checked (t, u) (some ((s.checked (t, u)).getD false)) }.setPc t .run)
  | endCall {p q : Pc} (l : List Frame) (hand : Option ℕ) (h : Next p q)
      (hp : p = .unpin ∨ p = .exitFrames) :
      Does s t ok p (({ s with frameList := l, hand := hand }.endCall t).setPc t q)
  | mapFail (m : Mapping) : Does s t ok (.mmap m) (s.setPc t (.unmap .mmap m 0 .find))
  | mapPage (m : Mapping) (h : m.pageCnt < mapPages (s.files m.file).len) :
      Does s t ok (.mmap m) ({ addEntry s (t, m.addr + m.pageCnt) (mmapEntry m.file
          (m.pageCnt * pgSize) (mapBytes (s.files m.file).len m.pageCnt)) with
        mmaps := Function.update s.mmaps t ((s.mmaps t).map fun x : Mapping =>
          if x.mapid = m.mapid then { m with pageCnt := m.pageCnt + 1 } else x) }.setPc t
            (.mmap { m with pageCnt := m.pageCnt + 1 }))
  | mapped (m : Mapping) : Does s t ok (.mmap m) (s.setPc t .run)
  | write (why : Why) (m : Mapping) (i : ℕ) (e : Entry) (k n : ℕ)
      (he : s.spt (t, m.addr + i) = some e) (hk : e.kpage = some k)
      (hn : n = if needsBounce e.ofs e.readBytes && !ok then e.readBytes / sectorSize * sectorSize
        else e.readBytes) :
      Does s t ok (.unmap why m i .write) ((writeFile s m.file e.ofs n (s.mem k)
        (some (t, m.addr + i))).setPc t (.unmap why m i .clearPte))
  | clearPte (why : Why) (m : Mapping) (i k : ℕ) : Does s t ok (.unmap why m i .clearPte)
      (({ s with checked := Function.update s.checked (t, m.addr + i) none }.setPte (t, m.addr + i)
        fun p => { p with present := false }).setPc t (.unmap why m i (.clearKpage k)))
  | delete (why : Why) (m : Mapping) (i : ℕ) (st : UnmapPc) (swapUsed : ℕ → Bool)
      (panicked : Option Panic) (hst : st = .delete ∨ ∃ slot, st = .swapFree slot)
      (hx : panicked = some .noFrame → s.panicked = some .noFrame) :
      Does s t ok (.unmap why m i st) ({ s with
        spt := Function.update s.spt (t, m.addr + i) none
        swapUsed := swapUsed, panicked := panicked }.setPc t (.unmap why m (i + 1) .find))
  | close (why : Why) (m : Mapping) (i : ℕ) : Does s t ok (.unmap why m i .close) ({ s with
      mmaps := Function.update s.mmaps t ((s.mmaps t).filter fun m' => m'.mapid ≠ m.mapid) }.setPc t
        (if why = Why.exit then .exitUnmap else .run))
  | exitUnmapped (h : s.mmaps t = []) : Does s t ok .exitUnmap (s.setPc t .exitFrames)
  | exitUnmap (m : Mapping) (h : m ∈ s.mmaps t) :
      Does s t ok .exitUnmap (s.setPc t (.unmap .exit m 0 .find))
  | exitSlot (u slot : ℕ) (swapUsed : ℕ → Bool) (panicked : Option Panic)
      (hx : panicked = some .noFrame → s.panicked = some .noFrame) :
      Does s t ok (.exitSlot u slot) ({ s with
        spt := Function.update s.spt (t, u) none
        swapUsed := swapUsed, panicked := panicked }.setPc t .exitEntries)
  | exitDir : Does s t ok .exitDir
      ({ s with pagedir := Function.update s.pagedir t false }.setPc t .exitPages)

theorem freeUser_eq (s : St) (k : ℕ) : ∃ used mem panicked,
    s.freeUser k = { s with used := used, mem := mem, panicked := panicked } ∧
      (panicked = some .noFrame → s.panicked = some .noFrame) := by
  unfold St.freeUser
  split
  · exact ⟨_, _, s.panicked, rfl, id⟩
  · exact ⟨s.used, s.mem, some .assertion, rfl, nofun⟩

theorem swapFree_eq (s : St) (slot : ℕ) : ∃ swapUsed panicked,
    s.swapFree slot = { s with swapUsed := swapUsed, panicked := panicked } ∧
      (panicked = some .noFrame → s.panicked = some .noFrame) := by
  unfold St.swapFree
  split
  · exact ⟨_, s.panicked, rfl, id⟩
  · exact ⟨s.swapUsed, some .assertion, rfl, nofun⟩

theorem finish_quiet (s : St) (t : ℕ) (c : Caller) (u : ℕ) (ok : Bool) : ∃ panicked,
    s.finish t c u ok = { s with panicked := panicked }.setPc t (c.back u ok) ∧
      (panicked = some .noFrame → s.panicked = some .noFrame) := by
  obtain he | he := s.finish_eq t c u ok
  · exact ⟨s.panicked, he, id⟩
  · exact ⟨some .kernelFault, he, nofun⟩

theorem removeFrame_fields (s : St) (k : ℕ) :
    ∃ l hand, removeFrame s k = { s with frameList := l, hand := hand } := by
  unfold removeFrame
  split
  · exact ⟨s.frameList, s.hand, rfl⟩
  · exact ⟨_, _, rfl⟩

theorem pinResident_eq (hpin : pinResident s κ = some s') : ∃ l, s' = { s with frameList := l } := by
  unfold pinResident at hpin
  split at hpin
  · cases hpin
  · split at hpin <;> cases hpin
    exact ⟨_, rfl⟩

theorem Work.goto {q : Pc} (h : Next p q) : Work s t p (s.setPc t q) := .quiet _ _ _ _ _ h id

theorem work_freeFinish (h : Next p (c.back u false)) :
    Work s t p ((s.freeUser k).finish t c u false) := by
  obtain ⟨used, mem, pn, hf, hx⟩ := freeUser_eq s k
  obtain ⟨pn', hf', hx'⟩ := finish_quiet (s.freeUser k) t c u false
  rw [hf', hf]
  rw [hf] at hx'
  exact .quiet _ _ _ _ _ h fun hp => hx (hx' hp)

theorem work_alloc : Work s t (.alloc c u) (alloc s t c u) := by
  unfold alloc
  split
  · exact .stop _ nofun
  · split
    · exact .goto (.full c u)
    · next k _ =>
      split
      · exact .quiet _ _ _ _ _ (.frame c u k) id
      · exact .quiet _ _ _ _ _ (.frame c u k) id

theorem work_sweep {i n : ℕ} : Work s t (.sweep c u i n) (sweep s t c u i n) := by
  unfold sweep
  split
  · exact .stop _ fun _ => rfl
  · dsimp only
    split
    · exact .stop _ fun _ => rfl
    · split
      · exact .frames _ _ _ (.skip c u i n) (.inr rfl) id
      · split
        · exact .frames _ _ _ (.skip c u i n) (.inr rfl) id
        · split
          · exact .stop _ nofun
          · split
            · exact .turn c u i n _ _
            · exact .frames _ _ _ (.chosen c u i n _) (.inr rfl) id

theorem work_evict {st : EvictPc} {v : Victim} :
    Work s t (.evict c u st v) (evict s t c u v st) := by
  cases st with
  | clearKpage | setSlot slot => exact .entry _ _ (.evict ..) (fun _ => rfl) fun _ => id
  | clearPte => exact .pte _ _ (.evict ..) fun _ => rfl
  | testDirty =>
    simp only [evict]
    split
    · exact .stop _ nofun
    · split
      · exact .goto (.evict ..)
      · exact .goto (.evicted ..)
  | swapAlloc =>
    simp only [evict]
    split
    · exact .stop _ nofun
    · exact .quiet _ _ _ _ _ (.evict ..) id
  | swapWrite slot => exact .quiet _ _ _ _ _ (.evict ..) id
  | setType =>
    refine .entry _ _ (.evicted ..) (fun e => ?_) fun e he => ?_
    · cases ht : e.type <;> simp [Entry.origin, ht]
    · simp [he]

theorem work_loadPage {st : LoadPc} :
    Work s t (.load c u k st) (loadPage s t c u k e ok st) := by
  cases st with
  | testType | fill =>
    simp only [loadPage]
    split <;> exact .quiet _ _ _ _ _ (.load ..) id
  | testSlot =>
    simp only [loadPage]
    split <;> exact .goto (.load ..)
  | swapTest slot =>
    simp only [loadPage]
    split
    · exact .goto (.load ..)
    · exact .stop _ nofun
  | swapRead slot | swapReset slot => exact .quiet _ _ _ _ _ (.load ..) id
  | clearSlot | setKpage => exact .entry _ _ (.load ..) (fun _ => rfl) fun _ => id
  | setPage fromSwap =>
    simp only [loadPage]
    split
    · split
      · exact .goto (.load ..)
      · exact .stop _ nofun
    · split
      · exact .setPage c u k fromSwap _ _ _
      · exact .goto (.load ..)
  | setDirty fromSwap =>
    simp only [loadPage]
    split
    · exact .pte _ _ (.load ..) fun _ => rfl
    · exact .goto (.load ..)
  | install =>
    obtain ⟨pn, hf, hx⟩ := finish_quiet
      (s.setFrame k fun f => { f with page := some (t, u), pinned := false }) t c u true
    simp only [loadPage, hf]
    exact .frames _ _ _ (.loaded ..) (.inl rfl) hx
  | free =>
    obtain ⟨l, hand, hf⟩ := removeFrame_fields s k
    simp only [loadPage, hf]
    exact .frames _ _ _ (.notLoaded ..) (.inl rfl) id

theorem does_unmap {why : Why} {m : Mapping} {i : ℕ} {st : UnmapPc} :
    Does s t ok (.unmap why m i st) (unmap s t why m i ok st) := by
  cases st with
  | find =>
    simp only [unmap]
    split
    · next hi =>
      split
      · exact .work (.goto (.unmapNext ..)) rfl rfl
      · exact .work (.goto (.unmapFind _ _ _ hi)) rfl rfl
    · exact .work (.goto (.unmapEnd ..)) rfl rfl
  | pin =>
    simp only [unmap]
    split
    · next hpin =>
      obtain ⟨l, rfl⟩ := pinResident_eq hpin
      exact .work (.frames _ _ _ (.unmap _ _ _ _ _ nofun nofun) (.inl rfl) id) rfl rfl
    · exact .work (.goto (.unmapFault ..)) rfl rfl
  | test =>
    refine .work (.goto (.unmap _ _ _ _ _ nofun ?_)) rfl rfl
    split <;> exact nofun
  | write =>
    simp only [unmap]
    split
    · exact .work (.stop _ nofun) rfl rfl
    · next he =>
      split
      · exact .work (.stop _ nofun) rfl rfl
      · next hk => exact .write why m i _ _ _ he hk rfl
  | clearPte =>
    simp only [unmap]
    split
    · exact .work (.stop _ nofun) rfl rfl
    · exact .clearPte why m i _
  | clearKpage k =>
    exact .work (.entry _ _ (.unmap _ _ _ _ _ nofun nofun) (fun _ => rfl) fun _ => id) rfl rfl
  | frameFree k =>
    obtain ⟨l, hand, hf⟩ := removeFrame_fields s k
    simp only [unmap, hf]
    exact .work (.frames _ _ _ (.unmap _ _ _ _ _ nofun nofun) (.inl rfl) id) rfl rfl
  | freePage k =>
    obtain ⟨used, mem, pn, hf, hx⟩ := freeUser_eq s k
    simp only [unmap, hf]
    exact .work (.quiet _ _ _ _ _ (.unmap _ _ _ _ _ nofun nofun) hx) rfl rfl
  | delete =>
    simp only [unmap]
    split
    · exact .delete why m i _ _ _ (.inl rfl) id
    · exact .work (.goto (.unmap _ _ _ _ _ nofun nofun)) rfl rfl
  | swapFree slot =>
    obtain ⟨su, pn, hf, hx⟩ :=
      swapFree_eq { s with spt := Function.update s.spt (t, m.addr + i) none } slot
    simp only [unmap, hf]
    exact .delete why m i _ _ _ (.inr ⟨slot, rfl⟩) hx
  | close => exact .close why m i

theorem does_body (hb : body s t ok = some s') : Does s t ok (s.pc t) s' := by
  cases hp : s.pc t with simp only [body, hp] at hb
  | absent | start | evictLock c u | loading | run => cases hb
  | noDir => cases hb; exact .release .filesys _ .noDir rfl
  | noDirClose => cases hb; exact .work (.goto .noDirClose) rfl rfl
  | construct => cases hb; exact .work (.goto .construct) rfl rfl
  | loadDone b => cases hb; exact .release .filesys _ (.loadDone b) rfl
  | file => cases hb; exact .work (.goto .file) rfl rfl
  | unpin => cases hb; exact .endCall _ _ .unpin (.inl rfl)
  | alloc c u => cases hb; exact .work work_alloc rfl rfl
  | sweep c u i n => cases hb; exact .work work_sweep rfl rfl
  | evict c u st v => cases hb; exact .work work_evict rfl rfl
  | evictUnlock c u k =>
    cases hb
    split <;> exact .release .frame _ (.unlock c u k) rfl
  | makeFrame c u k =>
    split at hb
    · cases hb
      exact .work (.goto (.made c u k)) rfl rfl
    · cases hb
      exact .work (work_freeFinish (.noFrame c u k)) rfl rfl
  | push c u k => cases hb; exact .work (.frames _ _ _ (.push ..) (.inl rfl) id) rfl rfl
  | load c u k st =>
    split at hb
    · cases hb
      exact .work (.stop _ nofun) rfl rfl
    · cases hb
      exact .work work_loadPage rfl rfl
  | freePage c u k => cases hb; exact .work (work_freeFinish (.freePage c u k)) rfl rfl
  | pin u =>
    split at hb
    · next hpin =>
      cases hb
      obtain ⟨l, rfl⟩ := pinResident_eq hpin
      exact .check u l
    · cases hb
      exact .work (.goto (.notPinned u)) rfl rfl
  | mmap m =>
    cases hb
    unfold mapPage
    split
    · next hlt =>
      split
      · exact .mapFail m
      · exact .mapPage m hlt
    · exact .mapped m
  | unmap why m i st => cases hb; exact does_unmap
  | threadExit => cases hb; exact .work (.goto .threadExit) rfl rfl
  | exitFiles => cases hb; exact .work (.goto .exitFiles) rfl rfl
  | exitExec => cases hb; exact .work (.goto .exitExec) rfl rfl
  | exitUnmap =>
    split at hb
    · next hl =>
      cases hb
      exact .exitUnmapped hl
    · next m l hl =>
      cases hb
      exact .exitUnmap m (by rw [hl]; exact List.mem_cons_self ..)
  | exitFrames => cases hb; exact .endCall _ _ .exitFrames (.inr rfl)
  | exitEntries =>
    split at hb
    · cases hb
      exact .work (.goto .exitEntries) rfl rfl
    · cases hb
  | exitSlot u slot =>
    obtain ⟨su, pn, hf, hx⟩ := swapFree_eq { s with spt := Function.update s.spt (t, u) none } slot
    rw [hf] at hb
    cases hb
    exact .exitSlot u slot su pn hx
  | exitDir => cases hb; exact .exitDir
  | exitPages =>
    cases hb
    unfold destroyPage
    split
    · exact .work (.goto .exitPages) rfl rfl
    · next u _ =>
      obtain ⟨used, mem, pn, hf, hx⟩ := freeUser_eq s (s.pte (t, u)).kpage
      rw [hf]
      exact .work (.destroyPage u used mem pn hx) rfl rfl

theorem Work.still (h : Work s t p s') : Still s s' := by
  cases h with
  | entry κ f h ho ha => exact (still_setEntry ho ha).setPc ..
  | _ => exact Still.of_common rfl

theorem Work.goes (h : Work s t p s') (hp : s.pc t = p) : s.Goes s' t p := by
  cases h with
  | stop | destroyPage => exact goes_same rfl hp
  | quiet _ _ _ _ _ h | entry _ _ h | pte _ _ h | frames _ _ _ h => exact goes_setPc rfl h
  | setPage => exact goes_setPc rfl (.load ..)
  | turn => exact goes_setPc rfl (.skip ..)

theorem Does.goes (h : Does s t ok p s') (hp : s.pc t = p) : s.Goes s' t p := by
  cases h with
  | work h => exact h.goes hp
  | release _ _ h | endCall _ _ h => exact goes_setPc rfl h
  | check u => exact goes_setPc rfl (.pinned u)
  | mapFail m => exact goes_setPc rfl (.mapFail m)
  | mapPage m => exact goes_setPc rfl (.mapPage m)
  | mapped m => exact goes_setPc rfl (.mapped m)
  | write => exact goes_setPc (writeFile_pc ..) (.unmap _ _ _ _ _ nofun nofun)
  | clearPte => exact goes_setPc rfl (.unmap _ _ _ _ _ nofun nofun)
  | delete => exact goes_setPc rfl (.unmapNext ..)
  | close why m i => exact goes_setPc rfl (.unmapped why m i)
  | exitUnmapped => exact goes_setPc rfl .exitUnmapped
  | exitUnmap m => exact goes_setPc rfl (.exitUnmap m)
  | exitSlot u slot => exact goes_setPc rfl (.exitSlot u slot)
  | exitDir => exact goes_setPc rfl .exitDir

theorem lock_body (hb : body s t ok = some s') :
    s'.lock = match (s.pc t).frees with
      | some L => Function.update s.lock L none
      | none => s.lock := by
  have hd := does_body hb
  generalize s.pc t = p at hd ⊢
  cases hd with
  | work h hp hf => rw [hf, h.still.lock]
  | release L mem h hL => rw [hL]; rfl
  | endCall l hand h hp => obtain rfl | rfl := hp <;> rfl
  | write => exact (calm_writeFile ..).lock
  | delete _ _ _ _ _ _ hst => obtain rfl | ⟨_, rfl⟩ := hst <;> rfl
  | _ => rfl

/-- **Where a process goes on.** -/
theorem body_goes (hb : body s t ok = some s') : s.Goes s' t (s.pc t) := (does_body hb).goes rfl

/-! ### The other processes -/

/-- An action of `t`, as the other processes see it. -/
structure Aside (s s' : St) (t : ℕ) : Prop where
  pc : ∀ t', t' ≠ t → s'.pc t' = s.pc t'
  call : ∀ t', t' ≠ t → s'.call t' = s.call t'
  pagedir : ∀ t', t' ≠ t → s'.pagedir t' = s.pagedir t'
  mmaps : ∀ t', t' ≠ t → s'.mmaps t' = s.mmaps t'
  nextMapid : ∀ t', t' ≠ t → s'.nextMapid t' = s.nextMapid t'
  checked : ∀ κ : Key, κ.1 ≠ t → s'.checked κ = s.checked κ
  origin : ∀ κ : Key, κ.1 ≠ t → s'.origin κ = s.origin κ
  anon : ∀ κ : Key, κ.1 ≠ t → s.AnonAt κ → s'.AnonAt κ
  userPages : s'.userPages = s.userPages
  poolSize : s'.poolSize = s.poolSize
  swapSize : s'.swapSize = s.swapSize
  len : ∀ f, (s'.files f).len = (s.files f).len

theorem Aside.trans (h : Aside s x t) (h' : Aside x s' t) : Aside s s' t where
  pc t' ht := (h'.pc t' ht).trans (h.pc t' ht)
  call t' ht := (h'.call t' ht).trans (h.call t' ht)
  pagedir t' ht := (h'.pagedir t' ht).trans (h.pagedir t' ht)
  mmaps t' ht := (h'.mmaps t' ht).trans (h.mmaps t' ht)
  nextMapid t' ht := (h'.nextMapid t' ht).trans (h.nextMapid t' ht)
  checked κ hκ := (h'.checked κ hκ).trans (h.checked κ hκ)
  origin κ hκ := (h'.origin κ hκ).trans (h.origin κ hκ)
  anon κ hκ ha := h'.anon κ hκ (h.anon κ hκ ha)
  userPages := h'.userPages.trans h.userPages
  poolSize := h'.poolSize.trans h.poolSize
  swapSize := h'.swapSize.trans h.swapSize
  len f := (h'.len f).trans (h.len f)

theorem Calm.aside (h : Calm s s') (hpc : ∀ t', t' ≠ t → s'.pc t' = s.pc t') : Aside s s' t where
  pc := hpc
  call t' _ := by rw [h.call]
  pagedir t' _ := by rw [h.pagedir]
  mmaps t' _ := by rw [h.mmaps]
  nextMapid t' _ := by rw [h.nextMapid]
  checked κ _ := by rw [h.checked]
  origin κ _ := h.origin κ
  anon κ _ := h.anon κ
  userPages := h.userPages
  poolSize := h.poolSize
  swapSize := h.swapSize
  len := h.len

theorem St.Goes.other (h : s.Goes s' t p) (t' : ℕ) (ht : t' ≠ t) : s'.pc t' = s.pc t' := by
  obtain ⟨q, hq, -⟩ := h
  rw [hq, Function.update_of_ne ht]

theorem Aside.refl (s : St) (t : ℕ) : Aside s s t := (Calm.refl s).aside fun _ _ => rfl

theorem aside_setPc (s : St) (t : ℕ) (p : Pc) : Aside s (s.setPc t p) t :=
  { Aside.refl s t with pc := fun _ ht => Function.update_of_ne ht .. }

theorem aside_setLock (s : St) (t : ℕ) (L : Lock) (o : Option ℕ) : Aside s (s.setLock L o) t :=
  { Aside.refl s t with }

theorem Aside.setPc (h : Aside s x t) (p : Pc) : Aside s (x.setPc t p) t := h.trans (aside_setPc x t p)

theorem aside_finish (s : St) (t : ℕ) (c : Caller) (u : ℕ) (ok : Bool) :
    Aside s (s.finish t c u ok) t :=
  (still_finish ..).toCalm.aside fun t' ht => by
    obtain he | he := s.finish_eq t c u ok
    · rw [he]
      exact Function.update_of_ne ht ..
    · rw [he]
      exact Function.update_of_ne ht ..

/-- The entries of the process itself. -/
theorem aside_own (s : St) (t u : ℕ) (o : Option Entry) :
    Aside s { s with spt := Function.update s.spt (t, u) o } t :=
  { Aside.refl s t with
    origin := fun κ hκ => by
      have : κ ≠ (t, u) := fun h => hκ (by rw [h])
      simp only [St.origin, Function.update_of_ne this]
    anon := fun κ hκ ⟨e, he, ha⟩ => by
      have : κ ≠ (t, u) := fun h => hκ (by rw [h])
      exact ⟨e, by simpa only [Function.update_of_ne this] using he, ha⟩ }

theorem aside_addEntry (s : St) (t u : ℕ) (e : Entry) : Aside s (addEntry s (t, u) e) t :=
  { Aside.refl s t with
    origin := fun κ hκ => by
      have : κ ≠ (t, u) := fun h => hκ (by rw [h])
      simp only [St.origin, addEntry, Function.update_of_ne this]
    anon := fun κ hκ ⟨e', he, ha⟩ => by
      have : κ ≠ (t, u) := fun h => hκ (by rw [h])
      exact ⟨e', by simpa only [addEntry, Function.update_of_ne this] using he, ha⟩ }

theorem aside_checked (s : St) (t u : ℕ) (w : Option Bool) :
    Aside s { s with checked := Function.update s.checked (t, u) w } t :=
  { Aside.refl s t with
    checked := fun κ hκ => Function.update_of_ne (fun h => hκ (by rw [h])) .. }

theorem aside_endCall (s : St) (t : ℕ) : Aside s (s.endCall t) t :=
  { Aside.refl s t with
    call := fun _ ht => Function.update_of_ne ht ..
    checked := fun _ hκ => if_neg hκ }

theorem aside_growStack (s : St) (t u b esp : ℕ) (ok : Bool) (c : Caller) :
    Aside s (growStack s t u b esp ok c) t := by
  unfold growStack
  split
  · exact (aside_addEntry ..).setPc _
  · exact aside_finish ..

theorem aside_makeDir (s : St) (t : ℕ) : Aside s (makeDir s t) t :=
  { Aside.refl s t with
    pc := fun _ ht => Function.update_of_ne ht ..
    pagedir := fun _ ht => Function.update_of_ne ht ..
    mmaps := fun _ ht => Function.update_of_ne ht ..
    nextMapid := fun _ ht => Function.update_of_ne ht ..
    origin := fun κ hκ => by simp only [St.origin, makeDir, St.setPc, if_neg hκ]
    anon := fun κ hκ ⟨e, he, ha⟩ => ⟨e, by simpa only [makeDir, St.setPc, if_neg hκ] using he, ha⟩ }

theorem aside_body (hb : body s t ok = some s') : Aside s s' t := by
  have hpc := (body_goes hb).other
  have hd := does_body hb
  generalize s.pc t = p at hd
  cases hd with
  | work h => exact h.still.toCalm.aside hpc
  | release => exact { Aside.refl s t with pc := hpc }
  | check u => exact { aside_checked s t u _ with pc := hpc }
  | endCall => exact { aside_endCall s t with pc := hpc }
  | mapFail | mapped | exitUnmapped | exitUnmap => exact aside_setPc ..
  | mapPage m => exact { aside_addEntry s t _ _ with
      pc := hpc, mmaps := fun _ ht => Function.update_of_ne ht .. }
  | write => exact ((calm_writeFile ..).setPc ..).aside hpc
  | clearPte _ m i => exact { aside_checked s t (m.addr + i) none with pc := hpc }
  | delete _ m i => exact { aside_own s t (m.addr + i) none with pc := hpc }
  | close => exact { Aside.refl s t with pc := hpc, mmaps := fun _ ht => Function.update_of_ne ht .. }
  | exitSlot u => exact { aside_own s t u none with pc := hpc }
  | exitDir =>
    exact { Aside.refl s t with pc := hpc, pagedir := fun _ ht => Function.update_of_ne ht .. }

/-! ### The actions -/

theorem acquire_eq {L : Lock} (ha : acquire s t L = some s') :
    s.lock L = none ∧ s' = s.setLock L (some t) := by
  unfold acquire at ha
  split at ha
  · next hl =>
    cases ha
    exact ⟨hl, rfl⟩
  · cases ha

/-- What `go` is: a lock is taken, or the process does what it does at its place. -/
theorem go_cases (hg : go s t ok = some s') :
    (s.pc t = .start ∧ s.lock .filesys = none ∧
      s' = if ok then makeDir (s.setLock .filesys (some t)) t
        else (s.setLock .filesys (some t)).setPc t .noDir) ∨
    (∃ c u, s.pc t = .evictLock c u ∧ s.lock .frame = none ∧
      s' = (s.setLock .frame (some t)).setPc t (.sweep c u 0 s.frameList.length)) ∨
    (s.pc t).section = none ∧ body s t ok = some s' ∨
    (∃ L x, (s.pc t).section = some L ∧ s.lock L = some t ∧ body s t ok = some x ∧
      s' = x.setLock L none) ∨
    ∃ L, (s.pc t).section = some L ∧ s.lock L = none ∧ s' = s.setLock L (some t) := by
  unfold go at hg
  split at hg
  · next hp =>
    obtain ⟨x, hx, rfl⟩ := Option.map_eq_some_iff.1 hg
    obtain ⟨hl, rfl⟩ := acquire_eq hx
    exact .inl ⟨hp, hl, rfl⟩
  · next c u hp =>
    obtain ⟨x, hx, rfl⟩ := Option.map_eq_some_iff.1 hg
    obtain ⟨hl, rfl⟩ := acquire_eq hx
    exact .inr (.inl ⟨c, u, hp, hl, rfl⟩)
  · split at hg
    · next hs => exact .inr (.inr (.inl ⟨hs, hg⟩))
    · next L hs =>
      split at hg
      · next hl =>
        obtain ⟨x, hx, rfl⟩ := Option.map_eq_some_iff.1 hg
        exact .inr (.inr (.inr (.inl ⟨L, x, hs, hl, hx, rfl⟩)))
      · obtain ⟨hl, rfl⟩ := acquire_eq hg
        exact .inr (.inr (.inr (.inr ⟨L, hs, hl, rfl⟩)))

theorem aside_go (hg : go s t ok = some s') : Aside s s' t := by
  obtain ⟨-, -, rfl⟩ | ⟨c, u, -, -, rfl⟩ | ⟨-, hb⟩ | ⟨L, x, -, -, hb, rfl⟩ | ⟨L, -, -, rfl⟩ :=
    go_cases hg
  · split
    · exact (aside_setLock s t _ _).trans (aside_makeDir _ t)
    · exact (aside_setLock s t _ _).setPc _
  · exact (aside_setLock s t _ _).setPc _
  · exact aside_body hb
  · exact (aside_body hb).trans (aside_setLock x t L none)
  · exact aside_setLock ..

/-- The process whose action it is. -/
def Act.actor : Act → Option ℕ
  | .spawn t | .addFile t _ _ _ _ _ | .setupStack t | .abort t | .load t _ _ _ | .store t _ _ _
  | .fault t _ _ _ _ _ | .enter t | .pin t _ _ _ _ | .checkWritable t _ | .file t | .write t _ _ _
  | .mmap t _ _ | .munmap t _ | .leave t | .exit t | .go t _ | .destroy t _ => some t
  | .deny _ _ => none

theorem Act.actor_unique {a : Act} (ht : a.actor = some t ∨ a.actor = none) (t' : ℕ)
    (h : a.actor = some t') : t' = t := by
  simp_all

/-- What an action is, case by case. -/
inductive Step (s : St) : Act → St → Prop
  | spawn (t : ℕ) (hp : s.pc t = .absent) : Step s (.spawn t) (s.setPc t .start)
  | addFile (t u f ofs n : ℕ) (w : Bool) (hp : s.pc t = .loading)
      (hu : 0 < u ∧ u < s.userPages ∧ n ≤ pgSize) (hn : s.spt (t, u) = none) :
      Step s (.addFile t u f ofs n w) (addEntry s (t, u) (fileEntry f ofs n w))
  | addFail (t u f ofs n : ℕ) (w : Bool) (hp : s.pc t = .loading) :
      Step s (.addFile t u f ofs n w) (s.setPc t (.loadDone false))
  | setupStack (t : ℕ) (hp : s.pc t = .loading) (hU : 0 < s.userPages)
      (hn : s.spt (t, s.userPages - 1) = none) :
      Step s (.setupStack t) ((addEntry s (t, s.userPages - 1) (anonEntry true)).setPc t
        (.alloc .setupStack (s.userPages - 1)))
  | stackFail (t : ℕ) (hp : s.pc t = .loading) :
      Step s (.setupStack t) (s.setPc t (.loadDone false))
  | abort (t : ℕ) (hp : s.pc t = .loading) : Step s (.abort t) (s.setPc t (.loadDone false))
  | load (t u b : ℕ) (v : UInt8) (h : (s.accessor t u false).isSome ∧ (s.pte (t, u)).present ∧
      b < pgSize ∧ s.mem (s.pte (t, u)).kpage b = v) :
      Step s (.load t u b v) (s.setPte (t, u) fun p => { p with accessed := true })
  | store (t u b : ℕ) (v : UInt8) (h : (s.accessor t u true).isSome ∧ (s.pte (t, u)).present ∧
      (s.pte (t, u)).writable ∧ b < pgSize) :
      Step s (.store t u b v) ({ s.setMem (s.pte (t, u)).kpage
          (Function.update (s.mem (s.pte (t, u)).kpage) b v) with
        ghost := Function.update s.ghost (t, u) { s.ghost (t, u) with
          flat := Function.update (s.ghost (t, u)).flat b v, touched := true } }.setPte (t, u)
            fun p => { p with accessed := true, dirty := true })
  -- A page fault is not handled, a page is loaded, or the stack may grow.
  | kill (t u b : ℕ) (write : Bool) (esp : ℕ) (ok : Bool) (source : Source)
      (hacc : s.accessor t u write = some source)
      (hf : ¬ ((s.pte (t, u)).present ∧ (write → (s.pte (t, u)).writable))) :
      Step s (.fault t u b write esp ok) (s.finish t (.fault source) u false)
  | fault (t u b : ℕ) (write : Bool) (esp : ℕ) (ok : Bool) (source : Source) (e : Entry)
      (hacc : s.accessor t u write = some source) (hu : u < s.userPages ∧ b < pgSize)
      (hpte : (s.pte (t, u)).present = false) (he : s.spt (t, u) = some e)
      (hk : e.kpage = none ∧ (write → e.writable)) :
      Step s (.fault t u b write esp ok) (s.setPc t (.alloc (.fault source) u))
  | faultGrow (t u b : ℕ) (write : Bool) (esp : ℕ) (ok : Bool) (source : Source)
      (hacc : s.accessor t u write = some source) (hu : u < s.userPages ∧ b < pgSize)
      (hpte : (s.pte (t, u)).present = false) (hn : s.spt (t, u) = none) :
      Step s (.fault t u b write esp ok) (growStack s t u b esp ok (.fault source))
  | enter (t : ℕ) (hp : s.pc t = .run) (hc : s.call t = false) :
      Step s (.enter t) { s with call := Function.update s.call t true }
  | pinGrow (t u b esp : ℕ) (ok : Bool) (hp : s.pc t = .run) (hc : s.call t = true)
      (hu : u < s.userPages ∧ b < pgSize) (hn : s.spt (t, u) = none) :
      Step s (.pin t u b esp ok) (growStack s t u b esp ok .pin)
  | pin (t u b esp : ℕ) (ok : Bool) (e : Entry) (hp : s.pc t = .run) (hc : s.call t = true)
      (hu : u < s.userPages ∧ b < pgSize) (he : s.spt (t, u) = some e) :
      Step s (.pin t u b esp ok) (s.setPc t (if e.kpage = none then .alloc .pin u else .pin u))
  | checkWritable (t u : ℕ) (hp : s.pc t = .run) (hc : s.call t = true)
      (hk : (s.checked (t, u)).isSome) (hw : (s.spt (t, u)).any Entry.writable) :
      Step s (.checkWritable t u) { s with checked := Function.update s.checked (t, u) (some true) }
  | checkFail (t u : ℕ) (hp : s.pc t = .run) : Step s (.checkWritable t u) (s.setPc t .threadExit)
  | file (t : ℕ) (hp : s.pc t = .run) (hc : s.call t = true) : Step s (.file t) (s.setPc t .file)
  | write (t f pos : ℕ) (v : UInt8) (hp : s.pc t = .file) (hl : s.lock .filesys = some t) :
      Step s (.write t f pos v) (writeFile s f pos 1 (fun _ => v) none)
  | deny (f : ℕ) (denied : Bool) :
      Step s (.deny f denied) { s with files := Function.update s.files f { s.files f with denied } }
  | mmap (t f addr : ℕ) (hp : s.pc t = .run) (hc : s.call t = true)
      (h : addr ≠ 0 ∧ (s.files f).len ≠ 0) (hfree : ∀ i < mapPages (s.files f).len,
        addr + i < s.userPages ∧ s.spt (t, addr + i) = none) :
      Step s (.mmap t f addr) ({ s with
        mmaps := Function.update s.mmaps t (s.mmaps t ++ [Mapping.mk (s.nextMapid t) f addr 0])
        nextMapid := Function.update s.nextMapid t (s.nextMapid t + 1) }.setPc t
          (.mmap ⟨s.nextMapid t, f, addr, 0⟩))
  | munmap (t mapid : ℕ) (m : Mapping) (hp : s.pc t = .run) (hc : s.call t = true)
      (hm : m ∈ s.mmaps t) : Step s (.munmap t mapid) (s.setPc t (.unmap .munmap m 0 .find))
  | leave (t : ℕ) (hp : s.pc t = .run) (hc : s.call t = true) : Step s (.leave t) (s.setPc t .unpin)
  | exit (t : ℕ) (hp : s.pc t = .run) : Step s (.exit t) (s.setPc t .threadExit)
  | go (t : ℕ) (ok : Bool) {s' : St} (hg : go s t ok = some s') : Step s (.go t ok) s'
  | destroySlot (t u slot : ℕ) (e : Entry) (hp : s.pc t = .exitEntries) (he : s.spt (t, u) = some e)
      (hk : e.kpage = none) (hs : e.swapSlot = some slot) :
      Step s (.destroy t u) (s.setPc t (.exitSlot u slot))
  | destroy (t u : ℕ) (e : Entry) (hp : s.pc t = .exitEntries) (he : s.spt (t, u) = some e)
      (hk : e.kpage ≠ none ∨ e.swapSlot = none) :
      Step s (.destroy t u) { s with spt := Function.update s.spt (t, u) none }

theorem St.pc_of_inCall (h : s.inCall t = true) : s.pc t = .run ∧ s.call t = true := by
  simpa [St.inCall] using h

theorem step_cases {a : Act} (hs : step s a = some s') : Step s a s' := by
  unfold step at hs
  split at hs
  · cases hs
  cases a with simp only at hs
  | go t ok => exact .go t ok hs
  | deny f b => cases hs; exact .deny f b
  | spawn t =>
    split at hs <;> cases hs
    exact .spawn t ‹_›
  | addFile t u f ofs n w =>
    split at hs
    · next h =>
      split at hs <;> cases hs
      · exact .addFile t u f ofs n w h.1 h.2 ‹_›
      · exact .addFail t u f ofs n w h.1
    · cases hs
  | setupStack t =>
    split at hs
    · next h =>
      split at hs <;> cases hs
      · exact .setupStack t h.1 h.2 ‹_›
      · exact .stackFail t h.1
    · cases hs
  | abort t =>
    split at hs <;> cases hs
    exact .abort t ‹_›
  | load t u b v =>
    split at hs <;> cases hs
    exact .load t u b v ‹_›
  | store t u b v =>
    split at hs <;> cases hs
    exact .store t u b v ‹_›
  | fault t u b w esp ok =>
    split at hs
    · cases hs
    next source hacc =>
    split at hs
    · next h =>
      split at hs
      · cases hs
        exact .kill t u b w esp ok source hacc h.2.2
      next hpte =>
      split at hs
      · next e he =>
        split at hs <;> cases hs
        · next hk => exact .fault t u b w esp ok source e hacc ⟨h.1, h.2.1⟩ (by simpa using hpte) he hk
        · exact .kill t u b w esp ok source hacc h.2.2
      · next hn =>
        cases hs
        exact .faultGrow t u b w esp ok source hacc ⟨h.1, h.2.1⟩ (by simpa using hpte) hn
    · cases hs
  | enter t =>
    split at hs <;> cases hs
    next h => exact .enter t h.1 h.2
  | pin t u b esp ok =>
    split at hs
    · next h =>
      obtain ⟨hp, hc⟩ := St.pc_of_inCall h.1
      split at hs <;> cases hs
      · exact .pinGrow t u b esp ok hp hc h.2 ‹_›
      · exact .pin t u b esp ok _ hp hc h.2 ‹_›
    · cases hs
  | checkWritable t u =>
    split at hs
    · next h =>
      obtain ⟨hp, hc⟩ := St.pc_of_inCall h.1
      split at hs <;> cases hs
      · exact .checkWritable t u hp hc h.2 ‹_›
      · exact .checkFail t u hp
    · cases hs
  | file t =>
    split at hs <;> cases hs
    next h => exact .file t (St.pc_of_inCall h).1 (St.pc_of_inCall h).2
  | write t f pos v =>
    split at hs <;> cases hs
    next h => exact .write t f pos v h.1 h.2
  | mmap t f addr =>
    split at hs <;> cases hs
    next h =>
    obtain ⟨hin, h0, hlen, hall⟩ := h
    refine .mmap t f addr (St.pc_of_inCall hin).1 (St.pc_of_inCall hin).2 ⟨h0, hlen⟩ fun i hi => ?_
    simpa using List.all_eq_true.1 hall i (List.mem_range.2 hi)
  | munmap t mapid =>
    split at hs
    · next h =>
      split at hs <;> cases hs
      next m hm =>
      exact .munmap t mapid m (St.pc_of_inCall h).1 (St.pc_of_inCall h).2 (List.mem_of_find?_eq_some hm)
    · cases hs
  | leave t =>
    split at hs <;> cases hs
    next h => exact .leave t (St.pc_of_inCall h).1 (St.pc_of_inCall h).2
  | exit t =>
    split at hs <;> cases hs
    exact .exit t ‹_›
  | destroy t u =>
    split at hs
    · next hp =>
      split at hs
      · cases hs
      next e he =>
      split at hs <;> cases hs
      · next hk hsl => exact .destroySlot t u _ e hp he hk hsl
      · next hne =>
        refine .destroy t u e hp he ?_
        by_contra h
        obtain ⟨slot, hsl⟩ := Option.ne_none_iff_exists'.1 (not_or.1 h).2
        exact hne slot (not_not.1 (not_or.1 h).1) hsl
    · cases hs

theorem go_of_step (hs : step s (.go t ok) = some s') : go s t ok = some s' := by
  cases step_cases hs with
  | go _ _ hg => exact hg

/-- **What an action of one process leaves to the others.** -/
theorem aside_step {a : Act} (hs : step s a = some s') (ht : a.actor = some t ∨ a.actor = none) :
    Aside s s' t := by
  have ht := Act.actor_unique ht
  cases step_cases hs with
  | deny f b =>
    exact { Aside.refl s t with
      len := fun g => by
        by_cases hg : g = f
        · subst hg
          simp
        · simp [Function.update_of_ne hg] }
  | go t' ok hg => obtain rfl := ht _ rfl; exact aside_go hg
  | addFile t' => obtain rfl := ht _ rfl; exact aside_addEntry ..
  | setupStack t' => obtain rfl := ht _ rfl; exact (aside_addEntry ..).setPc _
  | load => exact Calm.aside (Calm.of_common rfl) fun _ _ => rfl
  | store => exact { Aside.refl s t with }
  | kill t' => obtain rfl := ht _ rfl; exact aside_finish ..
  | faultGrow t' | pinGrow t' => obtain rfl := ht _ rfl; exact aside_growStack ..
  | enter t' =>
    obtain rfl := ht _ rfl
    exact { Aside.refl s t' with call := fun _ ht => Function.update_of_ne ht .. }
  | checkWritable t' => obtain rfl := ht _ rfl; exact aside_checked ..
  | write => exact (calm_writeFile ..).aside fun _ _ => by rw [writeFile_pc]
  | mmap t' =>
    obtain rfl := ht _ rfl
    exact { aside_setPc s t' _ with
      mmaps := fun _ ht => Function.update_of_ne ht ..
      nextMapid := fun _ ht => Function.update_of_ne ht .. }
  | destroy t' => obtain rfl := ht _ rfl; exact aside_own ..
  | _ => obtain rfl := ht _ rfl; exact aside_setPc ..

/-! ### Where the other actions lead -/

/-- The places to which a process comes by another action than `go`. -/
inductive Enters (s : St) (a : Act) : Pc → Pc → Prop
  | spawn : Enters s a .absent .start
  | stack (t : ℕ) (ha : a = .setupStack t) :
      Enters s a .loading (.alloc .setupStack (s.userPages - 1))
  | abort : Enters s a .loading (.loadDone false)
  | fault (source : Source) (t u b : ℕ) (write : Bool) (esp : ℕ) (ok : Bool)
      (ha : a = .fault t u b write esp ok) (h : s.accessor t u write = some source) :
      Enters s a source.back (.alloc (.fault source) u)
  | kill (source : Source) (u : ℕ) : Enters s a source.back ((Caller.fault source).back u false)
  | alloc (u : ℕ) : Enters s a .run (.alloc .pin u)
  | pin (u : ℕ) : Enters s a .run (.pin u)
  | file : Enters s a .run .file
  | mmap (m : Mapping) : Enters s a .run (.mmap m)
  | munmap (m : Mapping) : Enters s a .run (.unmap .munmap m 0 .find)
  | leave : Enters s a .run .unpin
  -- `exit`, or a pointer that `check_address` or `check_writable` refuses.
  | exit : Enters s a .run .threadExit
  | slot (u slot : ℕ) : Enters s a .exitEntries (.exitSlot u slot)

/-- The process comes to another place, or no process does. -/
def St.Moves (s : St) (a : Act) (s' : St) (t : ℕ) : Prop :=
  s'.pc = s.pc ∨ ∃ q, s'.pc = Function.update s.pc t q ∧ Enters s a (s.pc t) q

theorem moves_setPc {a : Act} {q : Pc} (hx : x.pc = s.pc) (h : Enters s a (s.pc t) q) :
    s.Moves a (x.setPc t q) t :=
  .inr ⟨q, by rw [← hx]; rfl, h⟩

theorem moves_finish {a : Act} (hx : x.pc = s.pc) (h : Enters s a (s.pc t) (c.back u ok)) :
    s.Moves a (x.finish t c u ok) t := by
  obtain he | he := x.finish_eq t c u ok
  · rw [he]
    exact moves_setPc hx h
  · rw [he]
    exact .inr ⟨_, by rw [← hx]; rfl, h⟩

theorem moves_growStack {a : Act} {b esp : ℕ} (h : Enters s a (s.pc t) (.alloc c u))
    (h' : Enters s a (s.pc t) (c.back u false)) : s.Moves a (growStack s t u b esp ok c) t := by
  unfold growStack
  split
  · exact moves_setPc rfl h
  · exact moves_finish rfl h'

/-- The place of a process that accesses user memory. -/
theorem St.pc_of_accessor {write : Bool} {source : Source} (ha : s.accessor t u write = some source) :
    s.pc t = source.back := by
  unfold St.accessor at ha
  split at ha
  · next hp =>
    split at ha
    · split at ha <;> cases ha
      exact hp
    · cases ha
      exact hp
  · next hp =>
    split at ha <;> cases ha
    exact hp
  · next hp =>
    split at ha <;> cases ha
    exact hp
  · cases ha

theorem moves_step {a : Act} (hs : step s a = some s') (ha : a.actor = some t)
    (hgo : ∀ ok, a ≠ .go t ok) : s.Moves a s' t := by
  cases step_cases hs with cases ha
  | go _ ok => exact absurd rfl (hgo ok)
  | spawn _ hp => exact moves_setPc rfl (hp ▸ .spawn)
  | addFail _ _ _ _ _ _ hp | stackFail _ hp | abort _ hp => exact moves_setPc rfl (hp ▸ .abort)
  | setupStack _ hp => exact moves_setPc rfl (hp ▸ .stack _ rfl)
  | kill _ u _ _ _ _ source hacc =>
    exact moves_finish rfl (St.pc_of_accessor hacc ▸ .kill source u)
  | fault _ u _ _ _ _ source _ hacc =>
    exact moves_setPc rfl (St.pc_of_accessor hacc ▸ .fault source _ u _ _ _ _ rfl hacc)
  | faultGrow _ u _ _ _ _ source hacc =>
    have hp := St.pc_of_accessor hacc
    exact moves_growStack (hp ▸ .fault source _ u _ _ _ _ rfl hacc) (hp ▸ .kill source u)
  | pinGrow _ u _ _ _ hp => exact moves_growStack (hp ▸ .alloc u) (hp ▸ .exit)
  | pin _ u _ _ _ _ hp =>
    refine moves_setPc rfl ?_
    rw [hp]
    split
    · exact .alloc u
    · exact .pin u
  | checkFail _ _ hp | exit _ hp => exact moves_setPc rfl (hp ▸ .exit)
  | file _ hp => exact moves_setPc rfl (hp ▸ .file)
  | write => exact .inl (writeFile_pc ..)
  | mmap _ _ _ hp => exact moves_setPc rfl (hp ▸ .mmap _)
  | munmap _ _ m hp => exact moves_setPc rfl (hp ▸ .munmap m)
  | leave _ hp => exact moves_setPc rfl (hp ▸ .leave)
  | destroySlot _ _ _ _ hp => exact moves_setPc rfl (hp ▸ .slot ..)
  | _ => exact .inl rfl

end Vm
end Pintos

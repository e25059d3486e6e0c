import Pintos.Vm.Paging

/-!
# The life of one user page

The tables of `vm/` are about many pages of many processes. Here they are cut down to what concerns one
page: its entry in the supplemental page table, its page table entry, its frames in `Frame_list`, what
its process is doing with it (`Phase`) and how far its eviction has come. `PageStep` lists all that can
happen to a page.

* `View.Shape` — how the tables agree about the page, in each phase;
* `Page.Content` — where the bytes of the page are, and what the bits say about them;
* `Shape.step`, `Content.step` — `PageStep` keeps both.

That every action of the system is a `PageStep` of every page is shown in the modules up to
`Pintos.Vm.Reachable`.
-/

namespace Pintos
namespace Vm

/-- In what way a process waits for a frame. -/
inductive Wait
  -- Somebody may still be evicting the page.
  | plain
  -- Nobody is.
  | alone
  -- `setup_stack` has just made the entry.
  | stack
  deriving DecidableEq

/-- What the process of a page is doing with it. -/
inductive Phase
  -- There is no such process, or it has no tables yet.
  | dead
  | idle
  -- It has found the entry and is about to pin the page.
  | known
  -- In `frame_alloc`.
  | wait (w : Wait)
  -- In `handle_mm_fault`, with the frame `k`.
  | load (k : ℕ) (st : LoadPc)
  -- In `page_unmap`: the page is pinned,
  | pinned
  -- no longer mapped,
  | cut (k : ℕ)
  -- no longer resident in its entry,
  | drop (k : ℕ)
  -- and has no frame. The slot is the one that `swap_free` is called for.
  | dying (slot : Option ℕ)
  -- `process_exit` is after `frame_remove_owner`,
  | gone (slot : Option ℕ)
  -- or after `page_table_destroy`.
  | bare
  deriving DecidableEq

def Caller.wait : Caller → Wait
  | .unmap _ _ _ => .alone
  | .setupStack => .stack
  | _ => .plain

def UnmapPc.phase : UnmapPc → Phase
  | .find | .close => .idle
  | .pin => .known
  | .test | .write | .clearPte => .pinned
  | .clearKpage k => .cut k
  | .frameFree k => .drop k
  | .freePage _ | .delete => .dying none
  | .swapFree slot => .dying (some slot)

/-- What a process at `p` is doing with its page `u`. -/
def Pc.phase (p : Pc) (u : ℕ) : Phase :=
  match p with
  | .absent | .start | .noDir | .noDirClose => .dead
  | .alloc c v | .evictLock c v | .sweep c v _ _ | .evict c v _ _ | .evictUnlock c v _
  | .makeFrame c v _ | .push c v _ => if v = u then .wait c.wait else .idle
  | .load _ v k st => if v = u then .load k st else .idle
  | .freePage _ v _ => if v = u then .wait .alone else .idle
  | .pin v => if v = u then .known else .idle
  | .unmap _ m i st => if m.addr + i = u then st.phase else .idle
  | .exitSlot v slot => .gone (if v = u then some slot else none)
  | .exitEntries => .gone none
  | .exitDir | .exitPages => .bare
  | _ => .idle

theorem Pc.phase_unmap_of_ne {why : Why} {m : Mapping} {i w : ℕ} {st : UnmapPc}
    (hw : w ≠ m.addr + i) : (Pc.unmap why m i st).phase w = .idle := by
  simp [Pc.phase, Ne.symm hw]

theorem Pc.phase_find {why : Why} {m : Mapping} {w j : ℕ} :
    (Pc.unmap why m j .find).phase w = .idle := by
  simp [Pc.phase, UnmapPc.phase]

/-- The process uses the page, or may do so again. -/
def Phase.live : Phase → Bool
  | .idle | .known | .wait _ | .pinned => true
  | _ => false

/-- What the tables say about one page. -/
structure View where
  phase : Phase
  -- The frame that is being evicted from under the page, and how far this has come.
  leaving : Option (ℕ × EvictPc)
  entry : Option Entry
  pte : Pte
  -- The page table exists.
  table : Bool
  frames : List Frame
  checked : Option Bool

/-- A page: its tables, its bytes in memory and in its swap slot, and its history. -/
structure Page extends View where
  data : Bytes
  saved : Bytes
  ghost : Ghost

/-- What stands for the bytes of a page that has no frame, or no slot. -/
def blank : Bytes := fun _ => 0

/-- The frame that holds the page. -/
def View.place (v : View) : Option ℕ :=
  match v.leaving with
  | some (k, _) => some k
  | none =>
    match v.frames with
    | f :: _ => some f.kpage
    | [] => if v.pte.present then some v.pte.kpage else none

/-- The slot that `swap_out` has taken and that is not in the entry yet. -/
def EvictPc.slot : EvictPc → Option ℕ
  | .swapWrite slot | .setSlot slot => some slot
  | _ => none

/-- `swap_in` has freed the slot that is still in the entry. -/
def Phase.freed : Phase → Bool
  | .load _ .clearSlot => true
  | _ => false

/-- The swap slot that the page holds. -/
def View.slot (v : View) : Option ℕ :=
  (v.leaving.bind fun x => x.2.slot).or
    (if v.phase.freed then none else v.entry.bind Entry.swapSlot)

/-! ### The tables -/

/-- The page table entry maps the page to the frame `k`, as the entry `e` says. -/
def View.Mapped (v : View) (k : ℕ) (e : Entry) : Prop :=
  v.pte.present = true ∧ v.pte.kpage = k ∧ v.pte.writable = e.writable

/-- The frame `k` of the page `κ`. -/
def frameOf (κ : Key) (k : ℕ) (page : Option Key) (pinned : Bool) : Frame :=
  { kpage := k, upage := κ.2, owner := κ.1, page := page, pinned := pinned }

/-- The page is resident. -/
def View.In (κ : Key) (v : View) (pinned : Bool) : Prop :=
  ∃ e k, v.entry = some e ∧ e.kpage = some k ∧ e.swapSlot = none ∧ v.Mapped k e ∧
    v.frames = [frameOf κ k (some κ) pinned]

/-- The page is not resident, or there is none. -/
def View.Out (v : View) : Prop :=
  (∀ e, v.entry = some e → e.kpage = none) ∧ v.pte.present = false ∧ v.frames = []

/-- `frame_evict` is at `st` with the page. -/
def View.Leaves (v : View) (k : ℕ) (st : EvictPc) : Prop :=
  v.frames = [] ∧ ∃ e, v.entry = some e ∧
    match st with
    | .clearKpage => e.kpage = some k ∧ e.swapSlot = none ∧ v.Mapped k e
    | .clearPte => e.kpage = none ∧ e.swapSlot = none ∧ v.Mapped k e
    | .setType => e.kpage = none ∧ e.swapSlot ≠ none ∧ v.pte.present = false
    | _ => e.kpage = none ∧ e.swapSlot = none ∧ v.pte.present = false

/-- Its process does nothing to the tables of the page. -/
def View.Rest (κ : Key) (v : View) : Prop :=
  match v.leaving with
  | none => (∃ pinned, v.In κ pinned) ∨ v.Out
  | some (k, st) => v.Leaves k st

/-- `handle_mm_fault` is at `st`, with the entry `e` and the frame `k`. -/
def View.Loads (v : View) (k : ℕ) (e : Entry) : LoadPc → Prop
  | .swapTest slot | .swapRead slot | .swapReset slot =>
    e.kpage = none ∧ v.pte.present = false ∧ e.swapSlot = some slot
  | .clearSlot => e.kpage = none ∧ v.pte.present = false ∧ e.swapSlot ≠ none
  | .setPage _ => e.kpage = none ∧ v.pte.present = false ∧ e.swapSlot = none
  | .setDirty _ | .setKpage => e.kpage = none ∧ v.Mapped k e ∧ e.swapSlot = none
  | .install => e.kpage = some k ∧ v.Mapped k e ∧ e.swapSlot = none
  | _ => e.kpage = none ∧ v.pte.present = false

/-- How the tables agree about the page, by what its process is doing with it. -/
def View.Agree (κ : Key) (v : View) : Prop :=
  match v.phase with
  | .dead => v.leaving = none ∧ v.entry = none ∧ v.pte.present = false ∧ v.frames = []
  | .idle => v.Rest κ
  | .known => v.Rest κ ∧ v.entry ≠ none
  | .wait w =>
    v.Rest κ ∧ (w ≠ .plain → v.leaving = none) ∧
      ∃ e, v.entry = some e ∧ e.kpage = none ∧ (w = .stack → e.swapSlot = none)
  | .load k st =>
    v.leaving = none ∧ v.frames = [frameOf κ k none true] ∧ ∃ e, v.entry = some e ∧ v.Loads k e st
  | .pinned => v.leaving = none ∧ v.In κ true
  | .cut k =>
    v.leaving = none ∧ v.frames = [frameOf κ k (some κ) true] ∧ v.pte.present = false ∧
      ∃ e, v.entry = some e ∧ e.kpage = some k ∧ e.swapSlot = none
  | .drop k =>
    v.leaving = none ∧ v.frames = [frameOf κ k (some κ) true] ∧ v.pte.present = false ∧
      ∃ e, v.entry = some e ∧ e.kpage = none ∧ e.swapSlot = none
  | .dying slot =>
    v.leaving = none ∧ v.frames = [] ∧ v.pte.present = false ∧
      ∃ e, v.entry = some e ∧ e.kpage = none ∧ (slot ≠ none → e.swapSlot = slot)
  | .gone slot =>
    v.leaving = none ∧ v.frames = [] ∧
      (∀ e, v.entry = some e →
        (∀ k, e.kpage = some k → v.Mapped k e ∧ e.swapSlot = none) ∧
        (e.kpage = none → v.pte.present = false)) ∧
      (slot ≠ none → ∃ e, v.entry = some e ∧ e.kpage = none ∧ e.swapSlot = slot)
  | .bare => v.leaving = none ∧ v.frames = [] ∧ v.entry = none

/-- A page that the present system call has checked is pinned. -/
def View.Held (κ : Key) (v : View) : Prop :=
  v.checked ≠ none →
    (v.phase = .idle ∨ v.phase = .known ∨ v.phase = .pinned) ∧ v.leaving = none ∧ v.In κ true ∧
      (v.checked = some true → ∀ e, v.entry = some e → e.writable = true)

structure View.Shape (κ : Key) (v : View) : Prop where
  agree : v.Agree κ
  held : v.Held κ

/-! ### The bytes -/

/-- What the page holds in memory is what its process expects, as far as nobody has changed the file
under a page that was not stored to. -/
def Page.Fresh (p : Page) : Prop := p.ghost.stale = false → p.data = p.ghost.flat

/-- The page is out of memory: either its swap slot has its bytes, or nothing was stored in it. -/
def Page.Saved (p : Page) (e : Entry) : Prop :=
  (e.swapSlot = none → p.ghost.touched = false) ∧
  (e.swapSlot ≠ none → e.type ≠ .bin ∧ (e.type = .mmap → p.ghost.touched = true) ∧
    p.table = true ∧ (p.ghost.stale = false → p.saved = p.ghost.flat))

/-- The dirty bit says whether something was stored, where this matters. -/
def Page.Bits (p : Page) (e : Entry) : Prop := e.type ≠ .anon → p.pte.dirty = p.ghost.touched

/-- The page must be written to swap when it goes. -/
def Page.Unsaved (p : Page) (e : Entry) : Prop := e.type = .anon ∨ p.ghost.touched = true

/-- The page comes from swap, or from where its entry says. -/
def Page.From (p : Page) (e : Entry) (fromSwap : Bool) : Prop :=
  (fromSwap = true → e.type ≠ .bin ∧ (e.type = .mmap → p.ghost.touched = true) ∧ p.table = true) ∧
  (fromSwap = false → p.ghost.touched = false)

/-- Where the bytes are while `frame_evict` is at `st`. -/
def Page.EvictBytes (p : Page) (e : Entry) : EvictPc → Prop
  | .clearKpage | .clearPte | .testDirty => p.Fresh ∧ p.Bits e
  | .swapAlloc | .swapWrite _ => p.Fresh ∧ p.Unsaved e
  | .setSlot _ | .setType => (p.ghost.stale = false → p.saved = p.ghost.flat) ∧ p.Unsaved e

/-- Where the bytes are while `handle_mm_fault` is at `st`. -/
def Page.LoadBytes (p : Page) (e : Entry) : LoadPc → Prop
  | .testType | .free | .swapTest _ | .swapRead _ => p.Saved e
  | .fill => p.Saved e ∧ e.type ≠ .anon
  | .testSlot => p.Saved e ∧ (e.swapSlot = none → p.Fresh)
  | .swapReset _ | .clearSlot => p.Fresh ∧ p.From e true
  | .setPage fromSwap => p.Fresh ∧ p.From e fromSwap
  | .setDirty fromSwap => p.Fresh ∧ p.From e fromSwap ∧ p.pte.dirty = false ∧ p.table = true
  | .setKpage | .install => p.Fresh ∧ p.Bits e ∧ p.table = true

/-- Where the bytes are while the process does nothing with the page. -/
def Page.RestBytes (p : Page) (e : Entry) : Prop :=
  match p.leaving with
  | none => if e.kpage = none then p.Saved e else p.Fresh ∧ p.Bits e ∧ p.table = true
  | some (_, st) => p.table = true ∧ p.EvictBytes e st

/-- The history of the page is that of this entry. -/
def Page.Origin (p : Page) (e : Entry) : Prop :=
  e.file = p.ghost.file ∧ e.ofs = p.ghost.ofs ∧ e.readBytes = p.ghost.readBytes

/-- Where the bytes of the page are. -/
structure Page.Content (p : Page) : Prop where
  origin : ∀ e, p.entry = some e → p.Origin e
  anon : ∀ e, p.entry = some e → e.type = .anon → p.ghost.touched = true ∨ p.ghost.flat = blank
  rest : ∀ e, p.entry = some e → p.phase.live = true → p.RestBytes e
  load : ∀ e k st, p.entry = some e → p.phase = .load k st → p.LoadBytes e st
  stack : p.phase = .wait .stack → p.ghost.touched = false ∧ p.ghost.flat = blank

/-! ### What can happen to a page -/

/-- What an action of the system can do to the page `κ`. -/
inductive PageStep (κ : Key) : Page → Page → Prop
  | same (p : Page) : PageStep κ p p
  -- Another page of the process needs the page table.
  | table (p : Page) : PageStep κ p { p with table := true }
  -- The processor, or the clock.
  | accessed (p : Page) (b : Bool) : PageStep κ p { p with pte := { p.pte with accessed := b } }
  -- Somebody writes to the file.
  | hit (p : Page) (g : Ghost) (hflat : g.flat = p.ghost.flat)
      (htouched : g.touched = p.ghost.touched) (hfile : g.file = p.ghost.file)
      (hofs : g.ofs = p.ghost.ofs) (hread : g.readBytes = p.ghost.readBytes)
      (hstale : g.stale = false → p.ghost.stale = false) : PageStep κ p { p with ghost := g }
  -- The process turns to the page or away from it, and changes nothing.
  | turn (p : Page) (ph : Phase) (hshape : View.Shape κ { p.toView with phase := ph })
      (hfrom : ∀ k st, p.phase ≠ .load k st) (hto : ∀ k st, ph ≠ .load k st)
      (hlive : ph.live = true → p.phase.live = true) (hstack : ph ≠ .wait .stack) :
      PageStep κ p { p with phase := ph }
  -- `load`, and a new entry.
  | born (p : Page) (h : p.phase = .dead) :
      PageStep κ p { p with phase := .idle, pte := .zero, table := false }
  | add (p : Page) (e : Entry) (flat : Bytes) (ph : Phase) (h : p.phase = .idle)
      (hn : p.entry = none) (hk : e.kpage = none) (hslot : e.swapSlot = none)
      (hflat : e.type = .anon → flat = blank)
      (hph : ph = .idle ∨ ph = .wait .plain ∨ ph = .wait .stack ∧ flat = blank) :
      PageStep κ p { p with
        entry := some e, phase := ph
        ghost := { flat := flat, touched := false, file := e.file, ofs := e.ofs
                   readBytes := e.readBytes, foreign := false, stale := false } }
  | store (p : Page) (b : ℕ) (v : UInt8) (h : p.phase = .idle) (hp : p.pte.present = true) :
      PageStep κ p { p with
        data := Function.update p.data b v
        pte := { p.pte with accessed := true, dirty := true }
        ghost := { p.ghost with flat := Function.update p.ghost.flat b v, touched := true } }
  -- System calls.
  | pin (p : Page) (ph : Phase) (c : Option Bool) (h : p.phase = .known)
      (hk : p.entry.bind Entry.kpage ≠ none) (hl : p.leaving = none)
      (hph : ph = .idle ∨ ph = .pinned) (hc : c = p.checked ∨ c = some false) :
      PageStep κ p { p with
        phase := ph, checked := c, frames := p.frames.map fun f => { f with pinned := true } }
  | check (p : Page) (h : p.phase = .idle) (hc : p.checked ≠ none)
      (hw : ∀ e, p.entry = some e → e.writable = true) : PageStep κ p { p with checked := some true }
  | unpin (p : Page) (h : p.phase = .idle) :
      PageStep κ p { p with
        checked := none
        frames := p.frames.map fun f => if f.page = none then f else { f with pinned := false } }
  -- `handle_mm_fault` and `setup_stack`.
  | push (p : Page) (k : ℕ) (d : Bytes) (w : Wait) (st : LoadPc) (h : p.phase = .wait w)
      (hl : p.leaving = none)
      (hst : st = .testType ∨ st = .setPage false ∧ w = .stack ∧ d = blank) :
      PageStep κ p { p with phase := .load k st, frames := [frameOf κ k none true], data := d }
  | zero (p : Page) (k : ℕ) (e : Entry) (h : p.phase = .load k .testType) (he : p.entry = some e)
      (ht : e.type = .anon) : PageStep κ p { p with phase := .load k .testSlot, data := blank }
  | toFill (p : Page) (k : ℕ) (e : Entry) (h : p.phase = .load k .testType) (he : p.entry = some e)
      (ht : e.type ≠ .anon) : PageStep κ p { p with phase := .load k .fill }
  | fill (p : Page) (k : ℕ) (d : Bytes) (h : p.phase = .load k .fill)
      (hd : p.ghost.touched = false → p.ghost.stale = false → d = p.ghost.flat) :
      PageStep κ p { p with phase := .load k .testSlot, data := d }
  | short (p : Page) (k : ℕ) (h : p.phase = .load k .fill) :
      PageStep κ p { p with phase := .load k .free }
  | noSlot (p : Page) (k : ℕ) (e : Entry) (h : p.phase = .load k .testSlot) (he : p.entry = some e)
      (hs : e.swapSlot = none) : PageStep κ p { p with phase := .load k (.setPage false) }
  | toSwap (p : Page) (k slot : ℕ) (e : Entry) (h : p.phase = .load k .testSlot)
      (he : p.entry = some e) (hs : e.swapSlot = some slot) :
      PageStep κ p { p with phase := .load k (.swapTest slot) }
  | swapTest (p : Page) (k slot : ℕ) (h : p.phase = .load k (.swapTest slot)) :
      PageStep κ p { p with phase := .load k (.swapRead slot) }
  | swapRead (p : Page) (k slot : ℕ) (h : p.phase = .load k (.swapRead slot)) :
      PageStep κ p { p with phase := .load k (.swapReset slot), data := p.saved }
  | swapReset (p : Page) (k slot : ℕ) (h : p.phase = .load k (.swapReset slot)) :
      PageStep κ p { p with phase := .load k .clearSlot, saved := blank }
  | clearSlot (p : Page) (k : ℕ) (e : Entry) (h : p.phase = .load k .clearSlot)
      (he : p.entry = some e) :
      PageStep κ p { p with
        phase := .load k (.setPage true), entry := some { e with swapSlot := none } }
  | setPage (p : Page) (k : ℕ) (fromSwap : Bool) (st : LoadPc) (e : Entry)
      (h : p.phase = .load k (.setPage fromSwap)) (he : p.entry = some e)
      (hst : st = .setDirty fromSwap ∨ st = .setKpage ∧ fromSwap = false) :
      PageStep κ p { p with
        phase := .load k st, table := true
        pte := { kpage := k, present := true, writable := e.writable, accessed := false
                 dirty := false } }
  | noTable (p : Page) (k : ℕ) (fromSwap : Bool) (h : p.phase = .load k (.setPage fromSwap))
      (ht : p.table = false) : PageStep κ p { p with phase := .load k .free }
  | setDirty (p : Page) (k : ℕ) (fromSwap : Bool) (e : Entry)
      (h : p.phase = .load k (.setDirty fromSwap)) (he : p.entry = some e) :
      PageStep κ p { p with
        phase := .load k .setKpage
        pte := if e.type = .mmap ∧ fromSwap then { p.pte with dirty := true } else p.pte }
  | setKpage (p : Page) (k : ℕ) (e : Entry) (h : p.phase = .load k .setKpage)
      (he : p.entry = some e) :
      PageStep κ p { p with phase := .load k .install, entry := some { e with kpage := some k } }
  | install (p : Page) (k : ℕ) (ph : Phase) (h : p.phase = .load k .install)
      (hph : ph = .idle ∨ ph = .known) :
      PageStep κ p { p with phase := ph, frames := [frameOf κ k (some κ) false] }
  | loadFree (p : Page) (k : ℕ) (h : p.phase = .load k .free) :
      PageStep κ p { p with phase := .wait .alone, frames := [], data := blank }
  -- `page_unmap`.
  | clearPte (p : Page) (k : ℕ) (e : Entry) (h : p.phase = .pinned) (he : p.entry = some e)
      (hk : e.kpage = some k) :
      PageStep κ p { p with
        phase := .cut k, checked := none, pte := { p.pte with present := false } }
  | clearKpage (p : Page) (k : ℕ) (e : Entry) (h : p.phase = .cut k) (he : p.entry = some e) :
      PageStep κ p { p with phase := .drop k, entry := some { e with kpage := none } }
  | frameFree (p : Page) (k : ℕ) (h : p.phase = .drop k) :
      PageStep κ p { p with phase := .dying none, frames := [], data := blank }
  | delete (p : Page) (slot : Option ℕ) (h : p.phase = .dying slot) :
      PageStep κ p { p with phase := .idle, entry := none, saved := blank }
  -- `process_exit`.
  | exit (p : Page) (h : p.phase = .idle) (hl : p.leaving = none) :
      PageStep κ p { p with phase := .gone none, frames := [], checked := none }
  | destroy (p : Page) (slot : Option ℕ) (h : p.phase = .gone slot) :
      PageStep κ p { p with phase := .gone none, entry := none, saved := blank }
  | freePage (p : Page) (h : p.phase = .bare) :
      PageStep κ p { p with pte := { p.pte with present := false }, data := blank }
  | die (p : Page) (h : p.phase = .bare) (hp : p.pte.present = false) :
      PageStep κ p { p with phase := .dead }
  -- `frame_evict`.
  | chosen (p : Page) (k : ℕ) (hl : p.leaving = none)
      (hf : p.frames = [frameOf κ k (some κ) false]) :
      PageStep κ p { p with leaving := some (k, .clearKpage), frames := [] }
  | evictKpage (p : Page) (k : ℕ) (e : Entry) (hl : p.leaving = some (k, .clearKpage))
      (he : p.entry = some e) :
      PageStep κ p { p with leaving := some (k, .clearPte), entry := some { e with kpage := none } }
  | evictPte (p : Page) (k : ℕ) (hl : p.leaving = some (k, .clearPte)) :
      PageStep κ p { p with
        leaving := some (k, .testDirty), pte := { p.pte with present := false } }
  | evictDirty (p : Page) (k : ℕ) (e : Entry) (hl : p.leaving = some (k, .testDirty))
      (he : p.entry = some e) (hd : e.type = .anon ∨ p.pte.dirty = true) :
      PageStep κ p { p with leaving := some (k, .swapAlloc) }
  | evictClean (p : Page) (k : ℕ) (e : Entry) (hl : p.leaving = some (k, .testDirty))
      (he : p.entry = some e) (hd : ¬ (e.type = .anon ∨ p.pte.dirty = true)) :
      PageStep κ p { p with leaving := none, data := blank }
  | swapAlloc (p : Page) (k slot : ℕ) (d : Bytes) (hl : p.leaving = some (k, .swapAlloc)) :
      PageStep κ p { p with leaving := some (k, .swapWrite slot), saved := d }
  | swapWrite (p : Page) (k slot : ℕ) (hl : p.leaving = some (k, .swapWrite slot)) :
      PageStep κ p { p with leaving := some (k, .setSlot slot), saved := p.data }
  | setSlot (p : Page) (k slot : ℕ) (e : Entry) (hl : p.leaving = some (k, .setSlot slot))
      (he : p.entry = some e) :
      PageStep κ p { p with
        leaving := some (k, .setType), entry := some { e with swapSlot := some slot } }
  | setType (p : Page) (k : ℕ) (e : Entry) (hl : p.leaving = some (k, .setType))
      (he : p.entry = some e) :
      PageStep κ p { p with
        leaving := none, data := blank
        entry := some { e with type := if e.type = .bin then .anon else e.type } }

/-! ### The tables keep agreeing -/

section Shape

variable {κ : Key} {p p' : Page} {v : View} {k : ℕ}

theorem View.held_of_unchecked (h : v.checked = none) : v.Held κ := fun hc => absurd h hc

namespace View.Shape

theorem unchecked (hs : v.Shape κ)
    (hp : v.phase ≠ .idle ∧ v.phase ≠ .known ∧ v.phase ≠ .pinned) : v.checked = none := by
  by_contra hc
  obtain h | h | h := (hs.held hc).1
  · exact hp.1 h
  · exact hp.2.1 h
  · exact hp.2.2 h

theorem unchecked_of_kpage (hs : v.Shape κ) (hk : ∀ e, v.entry = some e → e.kpage = none) :
    v.checked = none := by
  by_contra hc
  obtain ⟨e, k, he, hek, -⟩ := (hs.held hc).2.2.1
  rw [hk e he] at hek
  cases hek

/-- A page without an entry is nowhere. -/
theorem nowhere (hs : v.Shape κ) (hp : v.phase = .idle) (hn : v.entry = none) :
    v.leaving = none ∧ v.pte.present = false ∧ v.frames = [] ∧ v.checked = none := by
  have ha := hs.agree
  have hc : v.checked = none := hs.unchecked_of_kpage (by simp [hn])
  simp only [View.Agree, hp, View.Rest] at ha
  split at ha
  · obtain ⟨_, e, k, he, -⟩ | ho := ha
    · rw [hn] at he
      cases he
    · exact ⟨by assumption, ho.2.1, ho.2.2, hc⟩
  · obtain ⟨-, e, he, -⟩ := ha
    rw [hn] at he
    cases he

/-- A page that its process waits for is not resident. -/
theorem waits {w : Wait} (hs : v.Shape κ) (h : v.phase = .wait w) (hl : v.leaving = none) :
    v.checked = none ∧ v.pte.present = false ∧ v.frames = [] ∧
      ∃ e, v.entry = some e ∧ e.kpage = none ∧ (w = .stack → e.swapSlot = none) := by
  have hc : v.checked = none := hs.unchecked (by simp [h])
  have ha := hs.agree
  simp only [View.Agree, h, View.Rest, hl] at ha
  obtain ⟨⟨b, e, k, he, hek, -⟩ | ho, -, e', he', hk⟩ := ha
  · rw [he] at he'
    cases he'
    rw [hk.1] at hek
    cases hek
  · exact ⟨hc, ho.2.1, ho.2.2, e', he', hk⟩

theorem loads {st : LoadPc} (hs : v.Shape κ) (h : v.phase = .load k st) :
    v.checked = none ∧ v.leaving = none ∧ v.frames = [frameOf κ k none true] ∧
      ∃ e, v.entry = some e ∧ v.Loads k e st := by
  have ha := hs.agree
  simp only [View.Agree, h] at ha
  exact ⟨hs.unchecked (by simp [h]), ha⟩

theorem leaves {st : EvictPc} (hs : v.Shape κ) (hl : v.leaving = some (k, st)) :
    v.checked = none ∧ (v.phase = .idle ∨ v.phase = .known ∨ v.phase = .wait .plain) ∧
      v.Leaves k st := by
  have hc : v.checked = none := by
    by_contra hc
    rw [(hs.held hc).2.1] at hl
    cases hl
  have ha := hs.agree
  unfold View.Agree at ha
  split at ha <;> simp_all [View.Rest]

theorem bare (hs : v.Shape κ) (h : v.phase = .bare) :
    v.leaving = none ∧ v.frames = [] ∧ v.entry = none := by
  have ha := hs.agree
  simpa only [View.Agree, h] using ha

/-- A page whose frame is bound to it and not pinned is at rest. -/
theorem unpinned (hs : v.Shape κ) (hl : v.leaving = none)
    (hf : v.frames = [frameOf κ k (some κ) false]) :
    v.checked = none ∧ (v.phase = .idle ∨ v.phase = .known) ∧
      ∃ e, v.entry = some e ∧ e.kpage = some k ∧ e.swapSlot = none ∧ v.Mapped k e := by
  have hpin : ¬ v.In κ true := by
    rintro ⟨_, _, _, _, _, _, hf'⟩
    simp [hf, frameOf] at hf'
  have hrest : v.Rest κ →
      ∃ e, v.entry = some e ∧ e.kpage = some k ∧ e.swapSlot = none ∧ v.Mapped k e := by
    intro hr
    simp only [View.Rest, hl] at hr
    obtain ⟨b, e, k', he, hk, hslot, hm, hf'⟩ | ho := hr
    · obtain ⟨rfl, -⟩ : k = k' ∧ false = b := by simpa [hf, frameOf] using hf'
      exact ⟨e, he, hk, hslot, hm⟩
    · simp [View.Out, hf] at ho
  refine ⟨by_contra fun hc => hpin (hs.held hc).2.2.1, ?_⟩
  have ha := hs.agree
  -- in every other phase the frame is pinned, or bound to nothing, or not there
  cases hph : v.phase with simp only [View.Agree, hph] at ha
  | idle => exact ⟨.inl rfl, hrest ha⟩
  | known => exact ⟨.inr rfl, hrest ha.1⟩
  | wait w =>
    obtain ⟨e, he, hk, -⟩ := hrest ha.1
    obtain ⟨-, e', he', hk', -⟩ := ha.2
    simp_all
  | pinned => exact absurd ha.2 hpin
  | _ => simp [hf, frameOf] at ha

end View.Shape

theorem View.shape_of_loads {st : LoadPc} {e : Entry} (h : v.phase = .load k st)
    (hc : v.checked = none) (hl : v.leaving = none) (hf : v.frames = [frameOf κ k none true])
    (he : v.entry = some e) (hL : v.Loads k e st) : v.Shape κ := by
  refine ⟨?_, View.held_of_unchecked hc⟩
  simp only [View.Agree, h]
  exact ⟨hl, hf, e, he, hL⟩

theorem View.shape_of_leaves {st : EvictPc} {e : Entry} (hc : v.checked = none)
    (hph : v.phase = .idle ∨ v.phase = .known ∨ v.phase = .wait .plain)
    (hl : v.leaving = some (k, st)) (hlv : v.Leaves k st) (he : v.entry = some e)
    (hk : v.phase = .wait .plain → e.kpage = none) : v.Shape κ := by
  refine ⟨?_, View.held_of_unchecked hc⟩
  have hrest : v.Rest κ := by simpa only [View.Rest, hl] using hlv
  obtain h | h | h := hph
  · simpa only [View.Agree, h] using hrest
  · simp [View.Agree, h, hrest, he]
  · simp [View.Agree, h, hrest, he, hk h]

/-- The page is out, and its process does nothing that rests on anything else. -/
theorem View.shape_of_out {e : Entry} (hc : v.checked = none)
    (hph : v.phase = .idle ∨ v.phase = .known ∨ ∃ w, v.phase = .wait w ∧ (w = .stack → e.swapSlot = none))
    (hl : v.leaving = none) (ho : v.Out) (he : v.entry = some e) : v.Shape κ := by
  refine ⟨?_, View.held_of_unchecked hc⟩
  have hrest : v.Rest κ := by
    simp only [View.Rest, hl]
    exact .inr ho
  obtain h | h | ⟨w, h, hw⟩ := hph
  · simpa only [View.Agree, h] using hrest
  · simp [View.Agree, h, hrest, he]
  · simp only [View.Agree, h]
    exact ⟨hrest, fun _ => hl, e, he, ho.1 e he, hw⟩

/-- **The tables keep agreeing**, whatever happens to the page. -/
theorem View.Shape.step (hs : p.toView.Shape κ) (h : PageStep κ p p') : p'.toView.Shape κ := by
  have ha := hs.agree
  cases h with
  | same => exact hs
  | table | accessed b | hit g | store b v h hp => exact ⟨ha, hs.held⟩
  | turn ph hshape => exact hshape
  | born h =>
    refine ⟨?_, View.held_of_unchecked (hs.unchecked (by simp [h]))⟩
    simp only [View.Agree, h] at ha
    simp [View.Agree, View.Rest, View.Out, ha, Pte.zero]
  | add e flat ph h hn hk hslot hflat hph =>
    obtain ⟨hl, hp, hf, hc⟩ := hs.nowhere h hn
    refine View.shape_of_out hc ?_ hl ⟨?_, hp, hf⟩ rfl
    · obtain rfl | rfl | ⟨rfl, -⟩ := hph <;> simp [hslot]
    · rintro _ ⟨⟩
      exact hk
  | pin ph c h hk hl hph hc =>
    have hin : View.In κ { p.toView with
        phase := ph, checked := c
        frames := p.frames.map fun f => { f with pinned := true } } true := by
      simp only [View.Agree, h, View.Rest, hl] at ha
      obtain ⟨⟨b, e, k, he, hek, hslot, hm, hf⟩ | ho, -⟩ := ha
      · exact ⟨e, k, he, hek, hslot, hm, by simp [hf, frameOf]⟩
      · cases he : p.entry with
        | none => simp [he] at hk
        | some e => simp [he, ho.1 e he] at hk
    refine ⟨?_, fun hc' => ⟨by tauto, hl, hin, fun hw => ?_⟩⟩
    · obtain rfl | rfl := hph
      · simp only [View.Agree, View.Rest, hl]
        exact .inl ⟨true, hin⟩
      · exact ⟨hl, hin⟩
    · obtain rfl | rfl := hc
      · exact (hs.held hc').2.2.2 hw
      · cases hw
  | check h hc hw =>
    obtain ⟨hph, hl, hin, -⟩ := hs.held hc
    exact ⟨ha, fun _ => ⟨hph, hl, hin, fun _ => hw⟩⟩
  | unpin h =>
    refine ⟨?_, View.held_of_unchecked rfl⟩
    simp only [View.Agree, h, View.Rest] at ha ⊢
    split at ha
    · obtain ⟨b, e, k, he, hek, hslot, hm, hf⟩ | ho := ha
      · exact .inl ⟨false, e, k, he, hek, hslot, hm, by simp [hf, frameOf]⟩
      · exact .inr ⟨ho.1, ho.2.1, by simp [ho.2.2]⟩
    · exact ⟨by simp [ha.1], ha.2⟩
  | push k d w st h hl hst =>
    obtain ⟨hc, hp, hf, e, he, hk, hslot⟩ := hs.waits h hl
    obtain rfl | ⟨rfl, rfl, -⟩ := hst
    · exact View.shape_of_loads rfl hc hl rfl he ⟨hk, hp⟩
    · exact View.shape_of_loads rfl hc hl rfl he ⟨hk, hp, hslot rfl⟩
  | zero k e h he ht | toFill k e h he ht | fill k d h hd | short k h | swapTest k slot h
  | swapRead k slot h =>
    obtain ⟨hc, hl, hf, e', he', hL⟩ := hs.loads h
    exact View.shape_of_loads rfl hc hl hf he' hL
  | noSlot k e h he hslot | toSwap k slot e h he hslot =>
    obtain ⟨hc, hl, hf, e', he', hk, hp⟩ := hs.loads h
    rw [he] at he'
    cases he'
    exact View.shape_of_loads rfl hc hl hf he ⟨hk, hp, hslot⟩
  | swapReset k slot h =>
    obtain ⟨hc, hl, hf, e', he', hk, hp, hslot⟩ := hs.loads h
    exact View.shape_of_loads rfl hc hl hf he' ⟨hk, hp, by simp [hslot]⟩
  | clearSlot k e h he =>
    obtain ⟨hc, hl, hf, e', he', hk, hp, hslot⟩ := hs.loads h
    rw [he] at he'
    cases he'
    exact View.shape_of_loads rfl hc hl hf rfl ⟨hk, hp, rfl⟩
  | setPage k fromSwap st e h he hst =>
    obtain ⟨hc, hl, hf, e', he', hk, hp, hslot⟩ := hs.loads h
    rw [he] at he'
    cases he'
    obtain rfl | ⟨rfl, rfl⟩ := hst <;>
      exact View.shape_of_loads rfl hc hl hf he ⟨hk, ⟨rfl, rfl, rfl⟩, hslot⟩
  | noTable k fromSwap h ht =>
    obtain ⟨hc, hl, hf, e', he', hk, hp, hslot⟩ := hs.loads h
    exact View.shape_of_loads rfl hc hl hf he' ⟨hk, hp⟩
  | setDirty k fromSwap e h he =>
    obtain ⟨hc, hl, hf, e', he', hk, hm, hslot⟩ := hs.loads h
    refine View.shape_of_loads rfl hc hl hf he' ⟨hk, ?_, hslot⟩
    simp only [View.Mapped]
    split <;> exact hm
  | setKpage k e h he =>
    obtain ⟨hc, hl, hf, e', he', hk, hm, hslot⟩ := hs.loads h
    rw [he] at he'
    cases he'
    exact View.shape_of_loads rfl hc hl hf rfl ⟨rfl, hm, hslot⟩
  | install k ph h hph =>
    obtain ⟨hc, hl, hf, e', he', hk, hm, hslot⟩ := hs.loads h
    refine ⟨?_, View.held_of_unchecked hc⟩
    have hrest : View.Rest κ { p.toView with
        phase := ph, frames := [frameOf κ k (some κ) false] } := by
      simp only [View.Rest, hl]
      exact .inl ⟨false, e', k, he', hk, hslot, hm, rfl⟩
    obtain rfl | rfl := hph
    · exact hrest
    · exact ⟨hrest, by simp [he']⟩
  | loadFree k h =>
    obtain ⟨hc, hl, hf, e', he', hk, hp⟩ := hs.loads h
    refine View.shape_of_out hc (.inr (.inr ⟨_, rfl, fun hw => by cases hw⟩)) hl ⟨?_, hp, rfl⟩ he'
    intro e he
    rw [he] at he'
    cases he'
    exact hk
  | clearPte k e h he hk =>
    refine ⟨?_, View.held_of_unchecked rfl⟩
    simp only [View.Agree, h] at ha
    obtain ⟨hl, e', k', he', hk', hslot, hm, hf⟩ := ha
    rw [he] at he'
    cases he'
    rw [hk] at hk'
    cases hk'
    exact ⟨hl, hf, rfl, e, he, hk, hslot⟩
  | clearKpage k e h he =>
    refine ⟨?_, View.held_of_unchecked (hs.unchecked (by simp [h]))⟩
    simp only [View.Agree, h] at ha
    obtain ⟨hl, hf, hp, e', he', hk, hslot⟩ := ha
    rw [he] at he'
    cases he'
    exact ⟨hl, hf, hp, _, rfl, rfl, hslot⟩
  | frameFree k h =>
    refine ⟨?_, View.held_of_unchecked (hs.unchecked (by simp [h]))⟩
    simp only [View.Agree, h] at ha
    obtain ⟨hl, hf, hp, e, he, hk, hslot⟩ := ha
    exact ⟨hl, rfl, hp, e, he, hk, fun hn => absurd rfl hn⟩
  | delete slot h =>
    refine ⟨?_, View.held_of_unchecked (hs.unchecked (by simp [h]))⟩
    simp only [View.Agree, h] at ha
    obtain ⟨hl, hf, hp, -⟩ := ha
    simp [View.Agree, View.Rest, View.Out, hl, hf, hp]
  | exit h hl =>
    refine ⟨?_, View.held_of_unchecked rfl⟩
    simp only [View.Agree, h, View.Rest, hl] at ha
    refine ⟨hl, rfl, fun e he => ?_, fun hn => absurd rfl hn⟩
    obtain ⟨b, e', k, he', hk, hslot, hm, hf⟩ | ho := ha
    · rw [show p.entry = some e from he] at he'
      cases he'
      exact ⟨fun k' hk' => by rw [hk] at hk'; cases hk'; exact ⟨hm, hslot⟩, fun hn => by simp [hk] at hn⟩
    · exact ⟨fun k hk => by simp [ho.1 e he] at hk, fun _ => ho.2.1⟩
  | destroy slot h =>
    refine ⟨?_, View.held_of_unchecked (hs.unchecked (by simp [h]))⟩
    simp only [View.Agree, h] at ha
    exact ⟨ha.1, ha.2.1, fun e he => (Option.some_ne_none e he.symm).elim, fun hn => absurd rfl hn⟩
  | freePage h =>
    refine ⟨?_, View.held_of_unchecked (hs.unchecked (by simp [h]))⟩
    simp only [View.Agree, h] at ha
    simp [View.Agree, h, ha]
  | die h hp =>
    refine ⟨?_, View.held_of_unchecked (hs.unchecked (by simp [h]))⟩
    simp only [View.Agree, h] at ha
    exact ⟨ha.1, ha.2.2, hp, ha.2.1⟩
  | chosen k hl hf =>
    obtain ⟨hc, hph, e, he, hk, hslot, hm⟩ := hs.unpinned hl hf
    refine View.shape_of_leaves hc (by tauto) rfl ⟨rfl, e, he, hk, hslot, hm⟩ he ?_
    intro hw
    simp_all
  | evictKpage k e hl he =>
    obtain ⟨hc, hph, hf, e', he', hk, hslot, hm⟩ := hs.leaves hl
    rw [he] at he'
    cases he'
    exact View.shape_of_leaves hc hph rfl ⟨hf, _, rfl, rfl, hslot, hm⟩ rfl fun _ => rfl
  | evictPte k hl =>
    obtain ⟨hc, hph, hf, e', he', hk, hslot, hm⟩ := hs.leaves hl
    exact View.shape_of_leaves hc hph rfl ⟨hf, e', he', hk, hslot, rfl⟩ he' fun _ => hk
  | evictDirty k e hl he hd | swapAlloc k slot d hl | swapWrite k slot hl =>
    obtain ⟨hc, hph, hf, e', he', hk, hslot, hp⟩ := hs.leaves hl
    exact View.shape_of_leaves hc hph rfl ⟨hf, e', he', hk, hslot, hp⟩ he' fun _ => hk
  | evictClean k e hl he hd =>
    obtain ⟨hc, hph, hf, e', he', hk, hslot, hp⟩ := hs.leaves hl
    refine View.shape_of_out hc ?_ rfl ⟨fun e he => ?_, hp, hf⟩ he'
    · obtain h | h | h := hph <;> simp [h]
    · rw [show p.entry = some e from he] at he'
      cases he'
      exact hk
  | setSlot k slot e hl he =>
    obtain ⟨hc, hph, hf, e', he', hk, hslot, hp⟩ := hs.leaves hl
    rw [he] at he'
    cases he'
    exact View.shape_of_leaves hc hph rfl ⟨hf, _, rfl, hk, by simp, hp⟩ rfl fun _ => hk
  | setType k e hl he =>
    obtain ⟨hc, hph, hf, e', he', hk, hslot, hp⟩ := hs.leaves hl
    rw [he] at he'
    cases he'
    refine View.shape_of_out hc ?_ rfl ⟨?_, hp, hf⟩ rfl
    · obtain h | h | h := hph <;> simp [h]
    · rintro _ ⟨⟩
      exact hk

end Shape

/-! ### The bytes stay where they should be -/

section Content

variable {κ : Key} {p p' : Page} {k : ℕ} {e : Entry}

/-- What the entry says of the history of its page. -/
def Page.Kept (p : Page) (e : Entry) : Prop :=
  p.Origin e ∧ (e.type = .anon → p.ghost.touched = true ∨ p.ghost.flat = blank)

theorem Page.Content.kept (hc : p.Content) (he : p.entry = some e) : p.Kept e :=
  ⟨hc.origin e he, hc.anon e he⟩

/-- The content of a page that its process is not at work on. -/
theorem Page.content_of_rest (he : p.entry = some e) (hk : p.Kept e) (hr : p.RestBytes e)
    (hload : ∀ k st, p.phase ≠ .load k st)
    (hstack : p.phase = .wait .stack → p.ghost.touched = false ∧ p.ghost.flat = blank) :
    p.Content where
  origin e' he' := by
    rw [he] at he'
    cases he'
    exact hk.1
  anon e' he' := by
    rw [he] at he'
    cases he'
    exact hk.2
  rest e' he' _ := by
    rw [he] at he'
    cases he'
    exact hr
  load e' k st _ h := absurd h (hload k st)
  stack := hstack

theorem Page.content_of_load {st : LoadPc} (he : p.entry = some e) (hk : p.Kept e)
    (h : p.phase = .load k st) (hL : p.LoadBytes e st) : p.Content where
  origin e' he' := by
    rw [he] at he'
    cases he'
    exact hk.1
  anon e' he' := by
    rw [he] at he'
    cases he'
    exact hk.2
  rest e' _ hlive := by simp [h, Phase.live] at hlive
  load e' k' st' he' h' := by
    rw [he] at he'
    cases he'
    rw [h] at h'
    cases h'
    exact hL
  stack h' := by simp [h] at h'

/-- A page that its process is giving up has no content. -/
theorem Page.content_of_dying (hk : ∀ e, p.entry = some e → p.Kept e)
    (hlive : p.phase.live = false) (hload : ∀ k st, p.phase ≠ .load k st) : p.Content where
  origin e he := (hk e he).1
  anon e he := (hk e he).2
  rest e _ hl := by rw [hlive] at hl; cases hl
  load e k st _ h := absurd h (hload k st)
  stack h := by simp [h, Phase.live] at hlive

/-- There is no entry. -/
theorem Page.content_of_none (hn : p.entry = none) (hstack : p.phase ≠ .wait .stack) :
    p.Content where
  origin e he := by rw [hn] at he; cases he
  anon e he := by rw [hn] at he; cases he
  rest e he := by rw [hn] at he; cases he
  load e k st he := by rw [hn] at he; cases he
  stack h := absurd h hstack

/-- The page after somebody has made its page table, or has written to the file. -/
theorem Page.Content.mono {g : Ghost} {b : Bool} (hc : p.Content)
    (hflat : g.flat = p.ghost.flat) (htouched : g.touched = p.ghost.touched)
    (hfile : g.file = p.ghost.file) (hofs : g.ofs = p.ghost.ofs)
    (hread : g.readBytes = p.ghost.readBytes) (hstale : g.stale = false → p.ghost.stale = false)
    (hb : p.table = true → b = true) :
    Page.Content { p with ghost := g, table := b } where
  origin e he := by
    have := hc.origin e he
    simp only [Page.Origin, hfile, hofs, hread] at this ⊢
    exact this
  anon e he ht := by
    have := hc.anon e he ht
    simpa only [hflat, htouched] using this
  rest e he hl := by
    have := hc.rest e he hl
    simp only [Page.RestBytes, Page.EvictBytes, Page.Saved, Page.Fresh, Page.Bits, Page.Unsaved,
      hflat, htouched] at this ⊢
    split at this
    · split at this <;> grind
    · split at this <;> grind
  load e k st he h := by
    have := hc.load e k st he h
    cases st <;> simp only [Page.LoadBytes, Page.Saved, Page.Fresh, Page.Bits, Page.From,
      hflat, htouched] at this ⊢ <;> grind
  stack h := by simpa only [hflat, htouched] using hc.stack h

/-- A page that is present is resident, or `frame_evict` has not come to its page table entry. -/
theorem View.Shape.present {v : View} (hs : v.Shape κ) (h : v.phase = .idle)
    (hp : v.pte.present = true) :
    ∃ e, v.entry = some e ∧ (v.leaving = none ∧ e.kpage ≠ none ∨
      ∃ k, v.leaving = some (k, .clearKpage) ∨ v.leaving = some (k, .clearPte)) := by
  have ha := hs.agree
  simp only [View.Agree, h, View.Rest] at ha
  split at ha
  · next hl =>
    obtain ⟨b, e, k, he, hk, -⟩ | ho := ha
    · exact ⟨e, he, .inl ⟨hl, by simp [hk]⟩⟩
    · rw [ho.2.1] at hp
      cases hp
  · next k st hl =>
    obtain ⟨-, e, he, hst⟩ := ha
    refine ⟨e, he, .inr ⟨k, ?_⟩⟩
    cases st <;> simp_all

/-- Such a page holds what its process expects. -/
theorem Page.Content.present (hc : p.Content) (hs : p.toView.Shape κ) (h : p.phase = .idle)
    (hp : p.pte.present = true) : ∃ e, p.entry = some e ∧ p.Fresh ∧ p.Bits e ∧ p.table = true := by
  obtain ⟨e, he, hcase⟩ := hs.present h hp
  have hr := hc.rest e he (by simp [h, Phase.live])
  refine ⟨e, he, ?_⟩
  obtain ⟨hl, hk⟩ | ⟨k, hl | hl⟩ := hcase
  · simpa only [Page.RestBytes, hl, hk, if_false] using hr
  · simp only [Page.RestBytes, hl, Page.EvictBytes] at hr
    exact ⟨hr.2.1, hr.2.2, hr.1⟩
  · simp only [Page.RestBytes, hl, Page.EvictBytes] at hr
    exact ⟨hr.2.1, hr.2.2, hr.1⟩

/-- What `frame_evict` relies on while the page leaves. -/
theorem Page.Content.leaves {st : EvictPc} (hc : p.Content) (hs : p.toView.Shape κ)
    (hl : p.leaving = some (k, st)) (he : p.entry = some e) :
    p.table = true ∧ p.EvictBytes e st := by
  have hlive : p.phase.live = true := by
    obtain ⟨-, h | h | h, -⟩ := hs.leaves hl <;> simp [h, Phase.live]
  have hr := hc.rest e he hlive
  simpa only [Page.RestBytes, hl] using hr

theorem View.Shape.not_load_of_leaving {st : EvictPc} (hs : p.toView.Shape κ)
    (hl : p.leaving = some (k, st)) :
    (∀ k st, p.phase ≠ .load k st) ∧ p.phase ≠ .wait .stack := by
  obtain ⟨-, h | h | h, -⟩ := hs.leaves hl <;> simp [h]

/-- **The bytes stay where they should be**, whatever happens to the page. -/
theorem Page.Content.step (hc : p.Content) (hs : p.toView.Shape κ) (h : PageStep κ p p') :
    p'.Content := by
  cases h with
  | same => exact hc
  | table => exact hc.mono rfl rfl rfl rfl rfl id fun _ => rfl
  | accessed b | check h hc' hw | unpin h => exact ⟨hc.origin, hc.anon, hc.rest, hc.load, hc.stack⟩
  | hit g hflat htouched hfile hofs hread hstale =>
    exact hc.mono hflat htouched hfile hofs hread hstale id
  | turn ph hshape hfrom hto hlive hstack =>
    exact ⟨hc.origin, hc.anon, fun e he hl => hc.rest e he (hlive hl),
      fun e k st he h => absurd h (hto k st), fun h => absurd h hstack⟩
  | born h =>
    have ha := hs.agree
    simp only [View.Agree, h] at ha
    exact Page.content_of_none ha.2.1 (by simp)
  | add e flat ph h hn hk hslot hflat hph =>
    obtain ⟨hl, -⟩ := hs.nowhere h hn
    refine Page.content_of_rest rfl ⟨⟨rfl, rfl, rfl⟩, fun ht => .inr (hflat ht)⟩ ?_ ?_ ?_
    · simp [Page.RestBytes, hl, hk, Page.Saved, hslot]
    · intro k st h'
      simp_all
    · intro h'
      simp_all
  | store b v h hp =>
    obtain ⟨e, he, hfresh, hbits, htable⟩ := hc.present hs h hp
    refine Page.content_of_rest he ⟨hc.origin e he, fun _ => .inl rfl⟩ ?_ ?_ ?_
    · have hfresh' : p.ghost.stale = false →
          Function.update p.data b v = Function.update p.ghost.flat b v :=
        fun hstale => by rw [hfresh hstale]
      obtain ⟨e', he', hcase⟩ := hs.present h hp
      rw [he] at he'
      cases he'
      obtain ⟨hl, hk⟩ | ⟨k, hl | hl⟩ := hcase
      · simp only [Page.RestBytes, hl, hk, if_false]
        exact ⟨hfresh', fun _ => rfl, htable⟩
      · simp only [Page.RestBytes, hl]
        exact ⟨htable, hfresh', fun _ => rfl⟩
      · simp only [Page.RestBytes, hl]
        exact ⟨htable, hfresh', fun _ => rfl⟩
    · simp [h]
    · simp [h]
  | pin ph c h hk hl hph hc' =>
    refine ⟨hc.origin, hc.anon, fun e he _ => hc.rest e he (by simp [h, Phase.live]), ?_, ?_⟩
    · intro e k st he h'
      simp_all
    · intro h'
      simp_all
  | push k d w st h hl hst =>
    obtain ⟨-, hp, hf, e, he, hk, hslot⟩ := hs.waits h hl
    have hr := hc.rest e he (by simp [h, Phase.live])
    simp only [Page.RestBytes, hl, hk, if_true] at hr
    refine Page.content_of_load he (hc.kept he) rfl ?_
    obtain rfl | ⟨rfl, rfl, rfl⟩ := hst
    · exact hr
    · -- the first page of the stack is new, and nothing was stored in it
      obtain ⟨htouched, hflat⟩ := hc.stack h
      exact ⟨fun _ => hflat.symm, fun h => by simp at h, fun _ => htouched⟩
  | zero k e h he ht =>
    have hL := hc.load e k _ he h
    refine Page.content_of_load he (hc.kept he) rfl ⟨hL, fun hslot _ => ?_⟩
    obtain ht' | hflat := hc.anon e he ht
    · rw [hL.1 hslot] at ht'
      cases ht'
    · exact hflat.symm
  | toFill k e h he ht =>
    exact Page.content_of_load he (hc.kept he) rfl ⟨hc.load e k _ he h, ht⟩
  | fill k d h hd =>
    obtain ⟨-, -, -, e, he, -⟩ := hs.loads h
    obtain ⟨hsaved, -⟩ := hc.load e k _ he h
    exact Page.content_of_load he (hc.kept he) rfl
      ⟨hsaved, fun hslot hstale => hd (hsaved.1 hslot) hstale⟩
  | short k h =>
    obtain ⟨-, -, -, e, he, -⟩ := hs.loads h
    exact Page.content_of_load he (hc.kept he) rfl (hc.load e k _ he h).1
  | noSlot k e h he hslot =>
    obtain ⟨hsaved, hfresh⟩ := hc.load e k _ he h
    exact Page.content_of_load he (hc.kept he) rfl
      ⟨hfresh hslot, fun h => by simp at h, fun _ => hsaved.1 hslot⟩
  | toSwap k slot e h he hslot =>
    exact Page.content_of_load he (hc.kept he) rfl (hc.load e k _ he h).1
  | swapTest k slot h | swapReset k slot h =>
    obtain ⟨-, -, -, e, he, -⟩ := hs.loads h
    exact Page.content_of_load he (hc.kept he) rfl (hc.load e k _ he h)
  | swapRead k slot h =>
    obtain ⟨-, -, -, e, he, -, -, hslot⟩ := hs.loads h
    have hsaved := hc.load e k _ he h
    obtain ⟨hbin, hmmap, htable, hbytes⟩ := hsaved.2 (by simp [hslot])
    exact Page.content_of_load he (hc.kept he) rfl
      ⟨hbytes, fun _ => ⟨hbin, hmmap, htable⟩, fun h => by simp at h⟩
  | clearSlot k e h he | setKpage k e h he =>
    obtain ⟨horigin, hanon⟩ := hc.kept he
    exact Page.content_of_load rfl ⟨horigin, hanon⟩ rfl (hc.load e k _ he h)
  | setPage k fromSwap st e h he hst =>
    obtain ⟨hfresh, hfrom⟩ := hc.load e k _ he h
    refine Page.content_of_load he (hc.kept he) rfl ?_
    obtain rfl | ⟨rfl, rfl⟩ := hst
    · exact ⟨hfresh, ⟨fun hf => ⟨(hfrom.1 hf).1, (hfrom.1 hf).2.1, rfl⟩, hfrom.2⟩, rfl, rfl⟩
    · exact ⟨hfresh, fun _ => (hfrom.2 rfl).symm, rfl⟩
  | noTable k fromSwap h ht =>
    obtain ⟨-, -, -, e, he, -, -, hslot⟩ := hs.loads h
    obtain ⟨hfresh, hfrom⟩ := hc.load e k _ he h
    refine Page.content_of_load he (hc.kept he) rfl ⟨fun _ => ?_, fun hn => absurd hslot hn⟩
    -- a page that was in swap was mapped before, so its page table exists
    cases fromSwap with
    | false => exact hfrom.2 rfl
    | true =>
      rw [(hfrom.1 rfl).2.2] at ht
      cases ht
  | setDirty k fromSwap e h he =>
    obtain ⟨hfresh, hfrom, hdirty, htable⟩ := hc.load e k _ he h
    refine Page.content_of_load he (hc.kept he) rfl ⟨hfresh, fun ht => ?_, htable⟩
    cases fromSwap with
    | false => simpa [hdirty] using (hfrom.2 rfl).symm
    | true =>
      obtain ⟨hbin, hmmap, -⟩ := hfrom.1 rfl
      cases htype : e.type <;> simp_all
  | install k ph h hph =>
    obtain ⟨-, hl, -, e, he, hk, -⟩ := hs.loads h
    refine Page.content_of_rest he (hc.kept he) ?_ ?_ ?_
    · have hL := hc.load e k _ he h
      simp only [Page.RestBytes, hl, hk]
      exact hL
    · intro k st h'
      simp_all
    · intro h'
      simp_all
  | loadFree k h =>
    obtain ⟨-, hl, -, e, he, hk, -⟩ := hs.loads h
    refine Page.content_of_rest he (hc.kept he) ?_ (by simp) (by simp)
    have hL := hc.load e k _ he h
    simp only [Page.RestBytes, hl, hk]
    exact hL
  | clearPte k e h he hk =>
    exact Page.content_of_dying (fun e he => hc.kept he) rfl (by simp)
  | clearKpage k e h he =>
    refine Page.content_of_dying ?_ rfl (by simp)
    obtain ⟨horigin, hanon⟩ := hc.kept he
    rintro _ ⟨⟩
    exact ⟨horigin, hanon⟩
  | frameFree k h | exit h hl => exact Page.content_of_dying (fun e he => hc.kept he) rfl (by simp)
  | delete slot h | destroy slot h => exact Page.content_of_none rfl (by simp)
  | freePage h => exact Page.content_of_none (hs.bare h).2.2 (by simp [h])
  | die h hp => exact Page.content_of_none (hs.bare h).2.2 (by simp)
  | chosen k hl hf =>
    obtain ⟨-, hph, e, he, hk, -⟩ := hs.unpinned hl hf
    have hr := hc.rest e he (by obtain h | h := hph <;> simp [h, Phase.live])
    simp only [Page.RestBytes, hl, hk] at hr
    refine Page.content_of_rest he (hc.kept he) ?_ ?_ ?_
    · obtain ⟨hfresh, hbits, htable⟩ : p.Fresh ∧ p.Bits e ∧ p.table = true := by simpa using hr
      exact ⟨htable, hfresh, hbits⟩
    · intro k st h'
      simp_all
    · intro h'
      simp_all
  | evictKpage k e hl he | setSlot k slot e hl he =>
    obtain ⟨htable, hb⟩ := hc.leaves hs hl he
    obtain ⟨hload, hstack⟩ := hs.not_load_of_leaving hl
    obtain ⟨horigin, hanon⟩ := hc.kept he
    exact Page.content_of_rest rfl ⟨horigin, hanon⟩ ⟨htable, hb⟩ hload fun h => absurd h hstack
  | evictPte k hl | swapAlloc k slot d hl | swapWrite k slot hl =>
    obtain ⟨-, -, -, e, he, -⟩ := hs.leaves hl
    obtain ⟨htable, hb⟩ := hc.leaves hs hl he
    obtain ⟨hload, hstack⟩ := hs.not_load_of_leaving hl
    exact Page.content_of_rest he (hc.kept he) ⟨htable, hb⟩ hload fun h => absurd h hstack
  | evictDirty k e hl he hd =>
    obtain ⟨htable, hfresh, hbits⟩ := hc.leaves hs hl he
    obtain ⟨hload, hstack⟩ := hs.not_load_of_leaving hl
    refine Page.content_of_rest he (hc.kept he) ⟨htable, hfresh, ?_⟩ hload fun h => absurd h hstack
    by_cases ht : e.type = .anon
    · exact .inl ht
    · exact .inr (by rw [← hbits ht]; exact hd.resolve_left ht)
  | evictClean k e hl he hd =>
    obtain ⟨-, -, -, e', he', hk, hslot, -⟩ := hs.leaves hl
    rw [he] at he'
    cases he'
    obtain ⟨htable, hfresh, hbits⟩ := hc.leaves hs hl he
    obtain ⟨hload, hstack⟩ := hs.not_load_of_leaving hl
    refine Page.content_of_rest he (hc.kept he) ?_ hload fun h => absurd h hstack
    -- the dirty bit is clear, so nothing was stored and the entry still says where the bytes are
    push Not at hd
    have htouched : p.ghost.touched = false := by
      rw [← hbits hd.1]
      simpa using hd.2
    simp [Page.RestBytes, hk, Page.Saved, hslot, htouched]
  | setType k e hl he =>
    obtain ⟨-, -, -, e', he', hk, hslot, -⟩ := hs.leaves hl
    rw [he] at he'
    cases he'
    obtain ⟨htable, hb, hun⟩ := hc.leaves hs hl he
    obtain ⟨hload, hstack⟩ := hs.not_load_of_leaving hl
    obtain ⟨horigin, hanon⟩ := hc.kept he
    refine Page.content_of_rest rfl ⟨horigin, fun _ => ?_⟩ ?_ hload fun h => absurd h hstack
    · exact hun.elim hanon .inl
    · simp only [Page.RestBytes, hk, if_true]
      refine ⟨fun hn => absurd hn hslot, fun _ => ⟨?_, ?_, htable, hb⟩⟩
      · cases e.type <;> simp
      · intro hm
        refine hun.resolve_left fun ht => ?_
        simp [ht] at hm

end Content

end Vm
end Pintos

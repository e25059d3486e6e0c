import Pintos.Systems.System

/-!
# Demand paging

`vm/frame.c`, `vm/page.c` and `vm/swap.c`, with the page directories of `userprog/pagedir.c`, the page
fault handler, what the system calls do to pages and to the three global locks, `load` and
`process_exit`.

Any number of processes share the frames of the user pool, `Frame_list`, the swap device, the files and
the locks `Filesys_lock`, `Frame_lock` and `Swap_lock`. What a process is doing is its `Pc`; one action
is what it does between two points at which another process may run and see a difference. Where the
code from `lock_acquire` to `lock_release` is one place (`Pc.section`), one action takes the lock and
one does the rest. `frame_evict` works on the page of another process while it holds `Frame_lock`, and
`load` and the file functions hold `Filesys_lock` while the kernel works on user memory; there each
statement is an action of its own.

An entry of a supplemental page table is named by its process and its user page (`Key`), which is what
`struct frame` keeps of it in `owner`, `upage` and `page`. The user part of a process, and what a
system call does to user memory, are the actions `load` and `store`.

`userPages` is `PHYS_BASE` in pages, `poolSize` the size of the user pool and `swapSize` the number of
swap slots.
-/

namespace Pintos
namespace Vm

/-- `PGSIZE`. -/
def pgSize : ℕ := 4096

/-- `BLOCK_SECTOR_SIZE`. -/
def sectorSize : ℕ := 512

/-- `STACK_LIMIT`, in pages. -/
def stackPages : ℕ := 2048

/-- How many pages one page table maps. -/
def tableSize : ℕ := 1024

abbrev Bytes := ℕ → UInt8

/-- A user page: the process and the number of the page. -/
abbrev Key := ℕ × ℕ

/-- `enum page_type`. -/
inductive PageType
  | bin
  | mmap
  | anon
  deriving DecidableEq, Repr

/-- `struct page`. Its callers fill it so that `zero_bytes` is what `read_bytes` leaves of the page. -/
structure Entry where
  kpage : Option ℕ
  type : PageType
  writable : Bool
  file : ℕ
  ofs : ℕ
  readBytes : ℕ
  swapSlot : Option ℕ
  deriving DecidableEq, Repr

/-- `struct frame`. -/
structure Frame where
  kpage : ℕ
  upage : ℕ
  owner : ℕ
  page : Option Key
  pinned : Bool
  deriving DecidableEq, Repr

/-- A page table entry. -/
structure Pte where
  kpage : ℕ
  present : Bool
  writable : Bool
  accessed : Bool
  dirty : Bool
  deriving DecidableEq, Repr

/-- The page table entry 0. -/
def Pte.zero : Pte := ⟨0, false, false, false, false⟩

/-- `struct mmap_file`. -/
structure Mapping where
  mapid : ℕ
  file : ℕ
  addr : ℕ
  pageCnt : ℕ
  deriving DecidableEq, Repr

structure File where
  len : ℕ
  data : Bytes
  -- A process is running it: `deny_write_cnt` of its inode is not 0.
  denied : Bool

/-- Who has called `page_unmap`. -/
inductive Why
  | munmap
  | mmap
  | exit
  deriving DecidableEq, Repr

inductive Lock
  | filesys
  | frame
  | swap
  deriving DecidableEq, Repr

/-- Where an access to user memory comes from. -/
inductive Source
  | user
  -- A system call,
  | call
  -- one that holds `Filesys_lock` for a file function,
  | file
  -- and `construct_stack`.
  | construct
  deriving DecidableEq, Repr

/-- Who has called `frame_alloc`, through `handle_mm_fault` or not. -/
inductive Caller
  -- `page_fault`.
  | fault (source : Source)
  -- `check_address`.
  | pin
  -- `page_unmap`, at page `i` of the mapping.
  | unmap (why : Why) (m : Mapping) (i : ℕ)
  | setupStack
  deriving DecidableEq, Repr

/-- The statements of `frame_evict` after it has taken the victim off `Frame_list`. -/
inductive EvictPc
  | clearKpage
  | clearPte
  | testDirty
  -- `swap_out`: the slot is taken, and then written.
  | swapAlloc
  | swapWrite (slot : ℕ)
  | setSlot (slot : ℕ)
  | setType
  deriving DecidableEq, Repr

/-- The statements of `handle_mm_fault` after `frame_alloc`; `setup_stack` has those from `setPage`
on, without `setDirty`. -/
inductive LoadPc
  | testType
  -- `file_read_at`.
  | fill
  | testSlot
  -- `swap_in`: the slot is tested, read, and freed.
  | swapTest (slot : ℕ)
  | swapRead (slot : ℕ)
  | swapReset (slot : ℕ)
  | clearSlot
  | setPage (fromSwap : Bool)
  | setDirty (fromSwap : Bool)
  | setKpage
  | install
  -- `frame_free` after a failure.
  | free
  deriving DecidableEq, Repr

/-- The statements of the loop of `page_unmap`. -/
inductive UnmapPc
  | find
  | pin
  | test
  | write
  | clearPte
  | clearKpage (k : ℕ)
  -- `frame_free`: the frame leaves `Frame_list`, and then its page is freed.
  | frameFree (k : ℕ)
  | freePage (k : ℕ)
  -- `hash_delete`, with `swap_free` if the page has a slot.
  | delete
  | swapFree (slot : ℕ)
  -- `file_close`, after the loop.
  | close
  deriving DecidableEq, Repr

/-- What `frame_evict` keeps of the victim: `p`, `t` and `kpage`. -/
structure Victim where
  page : Key
  owner : ℕ
  kpage : ℕ
  deriving DecidableEq, Repr

/-- Where a process is. -/
inductive Pc
  -- There is no such process.
  | absent
  -- In front of `load`.
  | start
  -- `load` has made no page directory or no supplemental page table; `process_exit` then closes files.
  | noDir
  | noDirClose
  -- In `load`, which holds `Filesys_lock` to its end.
  | loading
  | construct
  | loadDone (success : Bool)
  -- In user code, or in a system call outside of what follows.
  | run
  -- In a system call, at a file function.
  | file
  -- `frame_unpin_owner`, at the end of a system call.
  | unpin
  -- `frame_alloc` for the page `u`.
  | alloc (c : Caller) (u : ℕ)
  -- `frame_evict`: in front of `lock_acquire`.
  | evictLock (c : Caller) (u : ℕ)
  -- Turn `i` of the loop over the `n` frames.
  | sweep (c : Caller) (u i n : ℕ)
  | evict (c : Caller) (u : ℕ) (st : EvictPc) (v : Victim)
  | evictUnlock (c : Caller) (u k : ℕ)
  -- The end of `frame_alloc`, with the frame `k`: `malloc`, and `list_push_back`.
  | makeFrame (c : Caller) (u k : ℕ)
  | push (c : Caller) (u k : ℕ)
  | load (c : Caller) (u k : ℕ) (st : LoadPc)
  -- The end of `frame_free` after a failure.
  | freePage (c : Caller) (u k : ℕ)
  -- `page_pin`, called by `check_address`.
  | pin (u : ℕ)
  -- The loop of `mmap` that adds the pages.
  | mmap (m : Mapping)
  | unmap (why : Why) (m : Mapping) (i : ℕ) (st : UnmapPc)
  -- In front of `thread_exit`.
  | threadExit
  -- `process_exit`: closing the files, `page_unmap_all`, `frame_remove_owner`, `page_table_destroy`
  -- with its `swap_free`, the assignment to `pagedir`, `pagedir_destroy`.
  | exitFiles
  | exitExec
  | exitUnmap
  | exitFrames
  | exitEntries
  | exitSlot (u slot : ℕ)
  | exitDir
  | exitPages
  deriving DecidableEq, Repr

/-- Why the kernel has stopped. -/
inductive Panic
  -- `frame_evict` has found no victim.
  | noFrame
  -- `swap_out` has found no slot.
  | swapFull
  -- A page fault of the kernel itself could not be handled.
  | kernelFault
  -- An assertion has failed.
  | assertion
  deriving DecidableEq, Repr

/-- Ghost: the history of a user page since its entry was created. -/
structure Ghost where
  -- What was last stored in each byte, or else what the entry gives for it.
  flat : Bytes
  -- Something was stored.
  touched : Bool
  -- The bytes of the file it was created with.
  file : ℕ
  ofs : ℕ
  readBytes : ℕ
  -- Somebody else has written to these bytes,
  foreign : Bool
  -- and has done so while nothing had been stored.
  stale : Bool

structure St where
  userPages : ℕ
  poolSize : ℕ
  swapSize : ℕ
  pc : ℕ → Pc
  lock : Lock → Option ℕ
  -- The process is in a system call.
  call : ℕ → Bool
  -- The pages that `check_address` has let pass in the present system call and that the process has not
  -- unmapped since; `some true` if `check_writable` has, too.
  checked : Key → Option Bool
  -- The process has a page directory.
  pagedir : ℕ → Bool
  -- The page tables that the page directory has.
  tables : ℕ × ℕ → Bool
  -- The supplemental page tables.
  spt : Key → Option Entry
  pte : Key → Pte
  -- `Mmap_list`.
  mmaps : ℕ → List Mapping
  -- `next_mapid`.
  nextMapid : ℕ → ℕ
  -- `Frame_list`.
  frameList : List Frame
  -- `Clock_hand`: an element of `Frame_list`, by its place there.
  hand : Option ℕ
  -- The user pool.
  used : ℕ → Bool
  mem : ℕ → Bytes
  -- `Swap_bitmap` and the swap device.
  swapUsed : ℕ → Bool
  swap : ℕ → Bytes
  files : ℕ → File
  panicked : Option Panic
  ghost : Key → Ghost

def St.setPc (s : St) (t : ℕ) (p : Pc) : St := { s with pc := Function.update s.pc t p }

@[simp] theorem St.setPc_self (s : St) (t : ℕ) (p : Pc) : (s.setPc t p).pc t = p := by
  simp [St.setPc]

theorem St.setPc_of_ne (s : St) (p : Pc) {t t' : ℕ} (h : t' ≠ t) : (s.setPc t p).pc t' = s.pc t' := by
  simp [St.setPc, h]

def St.panic (s : St) (p : Panic) : St := { s with panicked := some p }

/-- Change the entry of `κ`. -/
def St.setEntry (s : St) (κ : Key) (f : Entry → Entry) : St :=
  { s with spt := Function.update s.spt κ ((s.spt κ).map f) }

def St.setPte (s : St) (κ : Key) (f : Pte → Pte) : St :=
  { s with pte := Function.update s.pte κ (f (s.pte κ)) }

def St.setMem (s : St) (k : ℕ) (c : Bytes) : St := { s with mem := Function.update s.mem k c }

/-- `bitmap_scan_and_flip`: the first bit that is clear. -/
def firstFree (used : ℕ → Bool) (n : ℕ) : Option ℕ := (List.range n).find? fun k => !used k

/-- `palloc_free_page`. -/
def St.freeUser (s : St) (k : ℕ) : St :=
  if s.used k then { s with used := Function.update s.used k false }.setMem k fun _ => 0xcc
  else s.panic .assertion

/-- `swap_free`. -/
def St.swapFree (s : St) (slot : ℕ) : St :=
  if s.swapUsed slot then { s with swapUsed := Function.update s.swapUsed slot false }
  else s.panic .assertion

/-! ### Files -/

/-- The bytes that an entry gives for its page. -/
def fileBytes (s : St) (f ofs readBytes : ℕ) : Bytes :=
  fun b => if b < readBytes then (s.files f).data (ofs + b) else 0

/-- Somebody writes the bytes from `lo` on, `n` of them, of the file `f`. -/
def Ghost.hit (g : Ghost) (f lo n : ℕ) : Ghost :=
  if g.file = f ∧ max lo g.ofs < min (lo + n) (g.ofs + g.readBytes) then
    { g with foreign := true, stale := g.stale || !g.touched }
  else g

/-- `file_write_at`, which does not go past the end of the file. `own` is the page it writes back. -/
def writeFile (s : St) (f lo n : ℕ) (data : Bytes) (own : Option Key) : St :=
  if (s.files f).denied then s
  else { s with
    files := Function.update s.files f { s.files f with
      data := fun p => if lo ≤ p ∧ p < lo + n ∧ p < (s.files f).len then data (p - lo)
        else (s.files f).data p }
    ghost := fun κ => if own = some κ then s.ghost κ else (s.ghost κ).hit f lo n }

/-- `file_read_at` and `file_write_at` need a bounce buffer for a sector of which they use a part. -/
def needsBounce (ofs n : ℕ) : Bool := ofs % sectorSize ≠ 0 || n % sectorSize ≠ 0

/-! ### Entries -/

/-- Add the entry `e` to the supplemental page table. -/
def addEntry (s : St) (κ : Key) (e : Entry) : St :=
  { s with
    spt := Function.update s.spt κ (some e)
    ghost := Function.update s.ghost κ {
      flat := fileBytes s e.file e.ofs e.readBytes, touched := false
      file := e.file, ofs := e.ofs, readBytes := e.readBytes
      foreign := false, stale := false } }

/-- `page_add_file`. -/
def fileEntry (f ofs readBytes : ℕ) (writable : Bool) : Entry :=
  { kpage := none, type := .bin, writable := writable, file := f, ofs := ofs, readBytes := readBytes
    swapSlot := none }

/-- `page_add_anon`. -/
def anonEntry (writable : Bool) : Entry :=
  { kpage := none, type := .anon, writable := writable, file := 0, ofs := 0, readBytes := 0
    swapSlot := none }

/-- `page_add_mmap`. -/
def mmapEntry (f ofs readBytes : ℕ) : Entry :=
  { kpage := none, type := .mmap, writable := true, file := f, ofs := ofs, readBytes := readBytes
    swapSlot := none }

/-- `page_is_stack_access`. The subtraction from the stack pointer wraps around. -/
def isStackAccess (s : St) (u b esp : ℕ) : Bool :=
  u < s.userPages && s.userPages ≤ u + stackPages && (esp + 2 ^ 32 - 32) % 2 ^ 32 ≤ u * pgSize + b

/-! ### `Frame_list` -/

/-- Change the first frame that satisfies `p`. -/
def updateFirst (p : Frame → Bool) (g : Frame → Frame) : List Frame → List Frame
  | [] => []
  | f :: l => if p f then g f :: l else f :: updateFirst p g l

/-- Change the frame that `frame_install` or `frame_pin_resident` finds. -/
def St.setFrame (s : St) (k : ℕ) (g : Frame → Frame) : St :=
  { s with frameList := updateFirst (fun f => f.kpage = k) g s.frameList }

/-- Where `Clock_hand` is after the element at `i` was removed from a list of `n`. -/
def handAfterRemove (hand : Option ℕ) (i n : ℕ) : Option ℕ :=
  match hand with
  | none => none
  | some h => if h < i then some h else if h = i then (if i + 1 < n then some i else none)
      else some (h - 1)

/-- The removal in `frame_free`. -/
def removeFrame (s : St) (k : ℕ) : St :=
  match s.frameList.findIdx? fun f => f.kpage = k with
  | none => s
  | some i =>
    { s with
      frameList := s.frameList.eraseIdx i
      hand := handAfterRemove s.hand i s.frameList.length }

/-- The loop of `frame_remove_owner`. `Clock_hand` goes to the next element that stays. -/
def removeOwner (s : St) (t : ℕ) : St :=
  let rest := s.frameList.filter fun f => f.owner ≠ t
  { s with
    frameList := rest
    hand := match s.hand with
      | none => none
      | some h =>
        let h' := (s.frameList.take h).countP fun f => f.owner ≠ t
        if h' < rest.length then some h' else none }

/-- `frame_unpin_owner`. -/
def unpinOwner (s : St) (t : ℕ) : St :=
  { s with frameList := s.frameList.map fun f =>
      if f.owner = t ∧ f.page ≠ none then { f with pinned := false } else f }

/-- `frame_pin_resident`, if it finds the frame. -/
def pinResident (s : St) (κ : Key) : Option St :=
  match (s.spt κ).bind Entry.kpage with
  | none => none
  | some k =>
    if s.frameList.any fun f => f.kpage = k then
      some (s.setFrame k fun f => { f with pinned := true })
    else none

/-! ### `frame_alloc` -/

/-- `PAL_ZERO` is among the flags. -/
def Caller.zero : Caller → Bool
  | .setupStack => true
  | _ => false

/-- Where a process goes on after an access from `source`. -/
def Source.back : Source → Pc
  | .user | .call => .run
  | .file => .file
  | .construct => .construct

/-- `handle_mm_fault` or `setup_stack` returns. -/
def St.finish (s : St) (t : ℕ) (c : Caller) (u : ℕ) (ok : Bool) : St :=
  match c, ok with
  -- the access is made again
  | .fault source, true => s.setPc t source.back
  -- `kill`
  | .fault .user, false => s.setPc t .threadExit
  | .fault source, false => (s.setPc t source.back).panic .kernelFault
  | .pin, true => s.setPc t (.pin u)
  | .pin, false => s.setPc t .threadExit
  | .unmap why m i, true => s.setPc t (.unmap why m i .pin)
  | .unmap why m i, false => s.setPc t (.unmap why m i .delete)
  | .setupStack, true => s.setPc t .construct
  | .setupStack, false => s.setPc t (.loadDone false)

/-- `palloc_get_page` in `frame_alloc`. `handle_mm_fault` first asserts that the page is not there. -/
def alloc (s : St) (t : ℕ) (c : Caller) (u : ℕ) : St :=
  if c ≠ .setupStack ∧ (s.spt (t, u)).bind Entry.kpage ≠ none then s.panic .assertion
  else
    match firstFree s.used s.poolSize with
    | none => s.setPc t (.evictLock c u)
    | some k =>
      let s' := { s with used := Function.update s.used k true }
      (if c.zero then s'.setMem k fun _ => 0 else s').setPc t (.makeFrame c u k)

/-- The place of the frame that the next turn of the loop of `frame_evict` looks at. -/
def St.handPos (s : St) : ℕ :=
  match s.hand with
  | none => 0
  | some h => if h < s.frameList.length then h else 0

/-- One turn of the loop of `frame_evict`. The frame that it chooses leaves `Frame_list`. -/
def sweep (s : St) (t : ℕ) (c : Caller) (u i n : ℕ) : St :=
  if 2 * n ≤ i then s.panic .noFrame
  else
    let h := s.handPos
    match s.frameList[h]? with
    | none => s.panic .noFrame
    | some f =>
      let next := { s with hand := if h + 1 < s.frameList.length then some (h + 1) else none }
      match f.page with
      | none => next.setPc t (.sweep c u (i + 1) n)
      | some κ =>
        if f.pinned then next.setPc t (.sweep c u (i + 1) n)
        else if !s.pagedir f.owner then s.panic .assertion
        else if (s.pte (f.owner, f.upage)).accessed then
          (next.setPte (f.owner, f.upage) fun p => { p with accessed := false }).setPc t
            (.sweep c u (i + 1) n)
        else
          { s with
            frameList := s.frameList.eraseIdx h
            hand := if h + 1 < s.frameList.length then some h else none }.setPc t
              (.evict c u .clearKpage ⟨κ, f.owner, f.kpage⟩)

/-- A statement of `frame_evict` after the loop. -/
def evict (s : St) (t : ℕ) (c : Caller) (u : ℕ) (v : Victim) : EvictPc → St
  | .clearKpage =>
    (s.setEntry v.page fun e => { e with kpage := none }).setPc t (.evict c u .clearPte v)
  | .clearPte =>
    (s.setPte (v.owner, v.page.2) fun p => { p with present := false }).setPc t
      (.evict c u .testDirty v)
  | .testDirty =>
    match s.spt v.page with
    | none => s.panic .assertion
    | some e =>
      if e.type = .anon ∨ (s.pte (v.owner, v.page.2)).dirty then
        s.setPc t (.evict c u .swapAlloc v)
      else s.setPc t (.evictUnlock c u v.kpage)
  | .swapAlloc =>
    match firstFree s.swapUsed s.swapSize with
    | none => s.panic .swapFull
    | some slot =>
      { s with swapUsed := Function.update s.swapUsed slot true }.setPc t
        (.evict c u (.swapWrite slot) v)
  | .swapWrite slot =>
    { s with swap := Function.update s.swap slot (s.mem v.kpage) }.setPc t
      (.evict c u (.setSlot slot) v)
  | .setSlot slot =>
    (s.setEntry v.page fun e => { e with swapSlot := some slot }).setPc t (.evict c u .setType v)
  | .setType =>
    (s.setEntry v.page fun e => { e with type := if e.type = .bin then .anon else e.type }).setPc t
      (.evictUnlock c u v.kpage)

/-! ### `handle_mm_fault` -/

/-- `file_read_at` reads all that was asked for. `ok` says whether it got a bounce buffer. -/
def readable (s : St) (e : Entry) (ok : Bool) : Bool :=
  e.readBytes = 0 ||
    (e.ofs + e.readBytes ≤ (s.files e.file).len && (ok || !needsBounce e.ofs e.readBytes))

/-- A statement of `handle_mm_fault` for the entry `e`, with the frame `k`. `ok` says whether an
allocation succeeds. -/
def loadPage (s : St) (t : ℕ) (c : Caller) (u k : ℕ) (e : Entry) (ok : Bool) : LoadPc → St
  | .testType =>
    if e.type = .anon then (s.setMem k fun _ => 0).setPc t (.load c u k .testSlot)
    else s.setPc t (.load c u k .fill)
  | .fill =>
    if readable s e ok then
      (s.setMem k (fileBytes s e.file e.ofs e.readBytes)).setPc t (.load c u k .testSlot)
    else s.setPc t (.load c u k .free)
  | .testSlot =>
    match e.swapSlot with
    | none => s.setPc t (.load c u k (.setPage false))
    | some slot => s.setPc t (.load c u k (.swapTest slot))
  | .swapTest slot =>
    if s.swapUsed slot then s.setPc t (.load c u k (.swapRead slot)) else s.panic .assertion
  | .swapRead slot => (s.setMem k (s.swap slot)).setPc t (.load c u k (.swapReset slot))
  | .swapReset slot =>
    { s with swapUsed := Function.update s.swapUsed slot false }.setPc t (.load c u k .clearSlot)
  | .clearSlot =>
    (s.setEntry (t, u) fun e => { e with swapSlot := none }).setPc t (.load c u k (.setPage true))
  | .setPage fromSwap =>
    if (s.pte (t, u)).present then
      -- `install_page` looks before it calls `pagedir_set_page`, which asserts
      if c = .setupStack then s.setPc t (.load c u k .free) else s.panic .assertion
    else if s.tables (t, u / tableSize) || ok then
      ({ s with tables := Function.update s.tables (t, u / tableSize) true }.setPte (t, u)
        fun _ => { kpage := k, present := true, writable := e.writable, accessed := false
                   dirty := false }).setPc t
        (.load c u k (if c = Caller.setupStack then .setKpage else .setDirty fromSwap))
    else s.setPc t (.load c u k .free)
  | .setDirty fromSwap =>
    (if e.type = .mmap ∧ fromSwap then s.setPte (t, u) fun p => { p with dirty := true }
      else s).setPc t (.load c u k .setKpage)
  | .setKpage =>
    (s.setEntry (t, u) fun e => { e with kpage := some k }).setPc t (.load c u k .install)
  | .install =>
    (s.setFrame k fun f => { f with page := some (t, u), pinned := false }).finish t c u true
  | .free => (removeFrame s k).setPc t (.freePage c u k)

/-! ### `page_unmap` -/

/-- A statement of `page_unmap`. -/
def unmap (s : St) (t : ℕ) (why : Why) (m : Mapping) (i : ℕ) (ok : Bool) : UnmapPc → St
  | .find =>
    if i < m.pageCnt then
      match s.spt (t, m.addr + i) with
      | none => s.setPc t (.unmap why m (i + 1) .find)
      | some _ => s.setPc t (.unmap why m i .pin)
    else s.setPc t (.unmap why m i .close)
  | .pin =>
    match pinResident s (t, m.addr + i) with
    | some s' => s'.setPc t (.unmap why m i .test)
    | none => s.setPc t (.alloc (.unmap why m i) (m.addr + i))
  | .test =>
    s.setPc t (.unmap why m i (if (s.pte (t, m.addr + i)).dirty then .write else .clearPte))
  | .write =>
    match s.spt (t, m.addr + i) with
    | none => s.panic .assertion
    | some e =>
      match e.kpage with
      | none => s.panic .assertion
      | some k =>
        -- without a bounce buffer the last sector stays as it is
        let n := if needsBounce e.ofs e.readBytes && !ok then e.readBytes / sectorSize * sectorSize
          else e.readBytes
        (writeFile s m.file e.ofs n (s.mem k) (some (t, m.addr + i))).setPc t
          (.unmap why m i .clearPte)
  | .clearPte =>
    match (s.spt (t, m.addr + i)).bind Entry.kpage with
    | none => s.panic .assertion
    | some k =>
      ({ s with checked := Function.update s.checked (t, m.addr + i) none }.setPte (t, m.addr + i)
        fun p => { p with present := false }).setPc t (.unmap why m i (.clearKpage k))
  | .clearKpage k =>
    (s.setEntry (t, m.addr + i) fun e => { e with kpage := none }).setPc t
      (.unmap why m i (.frameFree k))
  | .frameFree k => (removeFrame s k).setPc t (.unmap why m i (.freePage k))
  | .freePage k => (s.freeUser k).setPc t (.unmap why m i .delete)
  | .delete =>
    match (s.spt (t, m.addr + i)).bind Entry.swapSlot with
    | none =>
      { s with spt := Function.update s.spt (t, m.addr + i) none }.setPc t
        (.unmap why m (i + 1) .find)
    | some slot => s.setPc t (.unmap why m i (.swapFree slot))
  | .swapFree slot =>
    ({ s with spt := Function.update s.spt (t, m.addr + i) none }.swapFree slot).setPc t
      (.unmap why m (i + 1) .find)
  | .close =>
    let rest := (s.mmaps t).filter fun m' => m'.mapid ≠ m.mapid
    { s with mmaps := Function.update s.mmaps t rest }.setPc t
      (if why = Why.exit then .exitUnmap else .run)

/-! ### Processes -/

/-- `read_bytes` of page `i` of a mapping of a file of `len` bytes. -/
def mapBytes (len i : ℕ) : ℕ := min (len - i * pgSize) pgSize

/-- How many pages `mmap` maps. -/
def mapPages (len : ℕ) : ℕ := (len + pgSize - 1) / pgSize

/-- The loop of `mmap`. -/
def mapPage (s : St) (t : ℕ) (m : Mapping) (ok : Bool) : St :=
  if m.pageCnt < mapPages (s.files m.file).len then
    -- `malloc` in `page_add_mmap`
    if !ok then s.setPc t (.unmap .mmap m 0 .find)
    else
      let m' := { m with pageCnt := m.pageCnt + 1 }
      let maps := (s.mmaps t).map fun x => if x.mapid = m.mapid then m' else x
      let e := mmapEntry m.file (m.pageCnt * pgSize) (mapBytes (s.files m.file).len m.pageCnt)
      { addEntry s (t, m.addr + m.pageCnt) e with
        mmaps := Function.update s.mmaps t maps }.setPc t (.mmap m')
  else s.setPc t .run

/-- The first process after `load` has taken `Filesys_lock`: it makes its page directory and its
supplemental page table. -/
def makeDir (s : St) (t : ℕ) : St :=
  { s with
    pagedir := Function.update s.pagedir t true
    tables := fun x => if x.1 = t then false else s.tables x
    spt := fun κ => if κ.1 = t then none else s.spt κ
    pte := fun κ => if κ.1 = t then .zero else s.pte κ
    mmaps := Function.update s.mmaps t []
    nextMapid := Function.update s.nextMapid t 1 }.setPc t .loading

/-- The pages of `t` are no longer those of a system call. -/
def St.endCall (s : St) (t : ℕ) : St :=
  { s with
    call := Function.update s.call t false
    checked := fun κ => if κ.1 = t then none else s.checked κ }

/-- `pagedir_destroy`: free the page of one entry that is present. -/
def destroyPage (s : St) (t : ℕ) : St :=
  match (List.range s.userPages).find? fun u => (s.pte (t, u)).present with
  | none => s.setPc t .absent
  | some u => (s.freeUser (s.pte (t, u)).kpage).setPte (t, u) fun p => { p with present := false }

/-- The lock that the code at a place takes in its first statement and releases in its last one. -/
def Pc.section : Pc → Option Lock
  | .noDirClose | .file | .exitFiles | .exitExec => some .filesys
  | .unpin | .push _ _ _ | .pin _ | .exitFrames => some .frame
  | .exitSlot _ _ => some .swap
  | .evict _ _ .swapAlloc _ => some .swap
  | .load _ _ _ .fill => some .filesys
  | .load _ _ _ (.swapTest _) | .load _ _ _ (.swapReset _) => some .swap
  | .load _ _ _ .install | .load _ _ _ .free => some .frame
  | .unmap _ _ _ .write | .unmap _ _ _ .close => some .filesys
  | .unmap _ _ _ .pin | .unmap _ _ _ (.frameFree _) => some .frame
  | .unmap _ _ _ (.swapFree _) => some .swap
  | _ => none

def St.setLock (s : St) (L : Lock) (o : Option ℕ) : St :=
  { s with lock := Function.update s.lock L o }

/-- What a process does next at its place, if it does not take a lock there. -/
def body (s : St) (t : ℕ) (ok : Bool) : Option St :=
  match s.pc t with
  | .absent | .start | .evictLock _ _ | .loading | .run => none
  | .noDir => some ((s.setLock .filesys none).setPc t .noDirClose)
  | .noDirClose => some (s.setPc t .absent)
  | .construct => some (s.setPc t (.loadDone true))
  | .loadDone success =>
    some ((s.setLock .filesys none).setPc t (if success then .run else .threadExit))
  | .file => some (s.setPc t .run)
  | .unpin => some (((unpinOwner s t).endCall t).setPc t .run)
  | .alloc c u => some (alloc s t c u)
  | .sweep c u i n => some (sweep s t c u i n)
  | .evict c u st v => some (evict s t c u v st)
  | .evictUnlock c u k =>
    let s' := s.setLock .frame none
    some ((if c.zero then s'.setMem k fun _ => 0 else s').setPc t (.makeFrame c u k))
  | .makeFrame c u k =>
    if ok then some (s.setPc t (.push c u k)) else some ((s.freeUser k).finish t c u false)
  | .push c u k =>
    let f : Frame := { kpage := k, upage := u, owner := t, page := none, pinned := true }
    some ({ s with frameList := s.frameList ++ [f] }.setPc t
      (.load c u k (if c = Caller.setupStack then .setPage false else .testType)))
  | .load c u k st =>
    match s.spt (t, u) with
    | none => some (s.panic .assertion)
    | some e => some (loadPage s t c u k e ok st)
  | .freePage c u k => some ((s.freeUser k).finish t c u false)
  | .pin u =>
    match pinResident s (t, u) with
    | some s' =>
      let w := (s.checked (t, u)).getD false
      some ({ s' with checked := Function.update s.checked (t, u) (some w) }.setPc t .run)
    | none => some (s.setPc t (.alloc .pin u))
  | .mmap m => some (mapPage s t m ok)
  | .unmap why m i st => some (unmap s t why m i ok st)
  | .threadExit => some (s.setPc t .exitFiles)
  | .exitFiles => some (s.setPc t .exitExec)
  | .exitExec => some (s.setPc t .exitUnmap)
  | .exitUnmap =>
    match s.mmaps t with
    | [] => some (s.setPc t .exitFrames)
    | m :: _ => some (s.setPc t (.unmap .exit m 0 .find))
  | .exitFrames => some (((removeOwner s t).endCall t).setPc t .exitEntries)
  | .exitEntries =>
    if (List.range s.userPages).all fun u => (s.spt (t, u)).isNone then some (s.setPc t .exitDir)
    else none
  | .exitSlot u slot =>
    some (({ s with spt := Function.update s.spt (t, u) none }.swapFree slot).setPc t .exitEntries)
  | .exitDir => some ({ s with pagedir := Function.update s.pagedir t false }.setPc t .exitPages)
  | .exitPages => some (destroyPage s t)

/-- The process takes `L`, if it is free. -/
def acquire (s : St) (t : ℕ) (L : Lock) : Option St :=
  if s.lock L = none then some (s.setLock L (some t)) else none

/-- A process goes on. -/
def go (s : St) (t : ℕ) (ok : Bool) : Option St :=
  match s.pc t with
  | .start =>
    (acquire s t .filesys).map fun s' => if ok then makeDir s' t else s'.setPc t .noDir
  | .evictLock c u =>
    (acquire s t .frame).map fun s' => s'.setPc t (.sweep c u 0 s.frameList.length)
  | p =>
    match p.section with
    | none => body s t ok
    | some L =>
      if s.lock L = some t then (body s t ok).map fun s' => s'.setLock L none else acquire s t L

/-! ### The system -/

inductive Act
  -- `start_process`.
  | spawn (t : ℕ)
  -- `load_segment` adds a page.
  | addFile (t u f ofs readBytes : ℕ) (writable : Bool)
  | setupStack (t : ℕ)
  -- `load` fails otherwise.
  | abort (t : ℕ)
  -- The byte `b` of the page `u` is read or written.
  | load (t u b : ℕ) (v : UInt8)
  | store (t u b : ℕ) (v : UInt8)
  -- An access faults. `ok` says whether `page_add_anon` gets its memory, if it is called.
  | fault (t u b : ℕ) (write : Bool) (esp : ℕ) (ok : Bool)
  -- A system call begins.
  | enter (t : ℕ)
  -- `check_address` and `check_writable` come to the page `u`.
  | pin (t u b esp : ℕ) (ok : Bool)
  | checkWritable (t u : ℕ)
  -- A system call comes to a file function,
  | file (t : ℕ)
  -- which writes a byte of a file.
  | write (t f pos : ℕ) (v : UInt8)
  -- `inode_deny_write` and `inode_allow_write`, for the first and by the last process that runs `f`.
  | deny (f : ℕ) (denied : Bool)
  | mmap (t f addr : ℕ)
  | munmap (t mapid : ℕ)
  -- A system call ends.
  | leave (t : ℕ)
  -- `exit`, or an exception in user code.
  | exit (t : ℕ)
  -- The process goes on. `ok` says whether an allocation succeeds.
  | go (t : ℕ) (ok : Bool)
  -- `page_destructor`, called by `page_table_destroy`.
  | destroy (t u : ℕ)
  deriving DecidableEq, Repr

/-- `page_fault` and `check_address` for a page that has no entry: the stack grows, if it may. -/
def growStack (s : St) (t u b esp : ℕ) (ok : Bool) (c : Caller) : St :=
  if isStackAccess s u b esp && ok then
    (addEntry s (t, u) (anonEntry true)).setPc t (.alloc c u)
  else s.finish t c u false

/-- The present system call may read the page, or write it. -/
def St.allowed (s : St) (κ : Key) (write : Bool) : Bool :=
  match s.checked κ with
  | none => false
  | some w => !write || w

/-- Whether the process may be accessing the page `u` now, and from where. System calls use what they
have checked before, and `construct_stack` the page of the stack. -/
def St.accessor (s : St) (t u : ℕ) (write : Bool) : Option Source :=
  match s.pc t with
  | .run =>
    if s.call t then if s.allowed (t, u) write then some .call else none else some .user
  | .file => if s.lock .filesys = some t ∧ s.allowed (t, u) write then some .file else none
  | .construct => if u + 1 = s.userPages then some .construct else none
  | _ => none

/-- The process is in a system call, outside of the code of `go`. -/
def St.inCall (s : St) (t : ℕ) : Bool := s.pc t = .run && s.call t

def step (s : St) (a : Act) : Option St :=
  if s.panicked ≠ none then none
  else match a with
  | .spawn t => if s.pc t = .absent then some (s.setPc t .start) else none
  | .addFile t u f ofs readBytes writable =>
    if s.pc t = .loading ∧ 0 < u ∧ u < s.userPages ∧ readBytes ≤ pgSize then
      if s.spt (t, u) = none then some (addEntry s (t, u) (fileEntry f ofs readBytes writable))
      else some (s.setPc t (.loadDone false))
    else none
  | .setupStack t =>
    if s.pc t = .loading ∧ 0 < s.userPages then
      if s.spt (t, s.userPages - 1) = none then
        some ((addEntry s (t, s.userPages - 1) (anonEntry true)).setPc t
          (.alloc .setupStack (s.userPages - 1)))
      else some (s.setPc t (.loadDone false))
    else none
  | .abort t => if s.pc t = .loading then some (s.setPc t (.loadDone false)) else none
  | .load t u b v =>
    if (s.accessor t u false).isSome ∧ (s.pte (t, u)).present ∧ b < pgSize ∧
        s.mem (s.pte (t, u)).kpage b = v then
      some (s.setPte (t, u) fun p => { p with accessed := true })
    else none
  | .store t u b v =>
    if (s.accessor t u true).isSome ∧ (s.pte (t, u)).present ∧ (s.pte (t, u)).writable ∧
        b < pgSize then
      let k := (s.pte (t, u)).kpage
      some ({ s.setMem k (Function.update (s.mem k) b v) with
        ghost := Function.update s.ghost (t, u) { s.ghost (t, u) with
          flat := Function.update (s.ghost (t, u)).flat b v, touched := true } }.setPte (t, u)
            fun p => { p with accessed := true, dirty := true })
    else none
  | .fault t u b write esp ok =>
    match s.accessor t u write with
    | none => none
    | some source =>
      if u < s.userPages ∧ b < pgSize ∧
          ¬ ((s.pte (t, u)).present ∧ (write → (s.pte (t, u)).writable)) then
        if (s.pte (t, u)).present then some (s.finish t (.fault source) u false)
        else match s.spt (t, u) with
          | some e =>
            if e.kpage = none ∧ (write → e.writable) then some (s.setPc t (.alloc (.fault source) u))
            else some (s.finish t (.fault source) u false)
          | none => some (growStack s t u b esp ok (.fault source))
      else none
  | .enter t =>
    if s.pc t = .run ∧ s.call t = false then
      some { s with call := Function.update s.call t true }
    else none
  | .pin t u b esp ok =>
    if s.inCall t ∧ u < s.userPages ∧ b < pgSize then
      match s.spt (t, u) with
      | none => some (growStack s t u b esp ok .pin)
      | some e => some (s.setPc t (if e.kpage = none then .alloc .pin u else .pin u))
    else none
  | .checkWritable t u =>
    if s.inCall t ∧ (s.checked (t, u)).isSome then
      if (s.spt (t, u)).any Entry.writable then
        some { s with checked := Function.update s.checked (t, u) (some true) }
      else some (s.setPc t .threadExit)
    else none
  | .file t => if s.inCall t then some (s.setPc t .file) else none
  | .write t f pos v =>
    if s.pc t = .file ∧ s.lock .filesys = some t then
      some (writeFile s f pos 1 (fun _ => v) none)
    else none
  | .deny f denied => some { s with files := Function.update s.files f { s.files f with denied } }
  | .mmap t f addr =>
    if s.inCall t ∧ addr ≠ 0 ∧ (s.files f).len ≠ 0 ∧
        (List.range (mapPages (s.files f).len)).all fun i =>
          addr + i < s.userPages && (s.spt (t, addr + i)).isNone then
      let m := { mapid := s.nextMapid t, file := f, addr := addr, pageCnt := 0 }
      some ({ s with
        mmaps := Function.update s.mmaps t (s.mmaps t ++ [m])
        nextMapid := Function.update s.nextMapid t (s.nextMapid t + 1) }.setPc t (.mmap m))
    else none
  | .munmap t mapid =>
    if s.inCall t then
      match (s.mmaps t).find? fun m => m.mapid = mapid with
      | none => none
      | some m => some (s.setPc t (.unmap .munmap m 0 .find))
    else none
  | .leave t => if s.inCall t then some (s.setPc t .unpin) else none
  | .exit t => if s.pc t = .run then some (s.setPc t .threadExit) else none
  | .go t ok => go s t ok
  | .destroy t u =>
    if s.pc t = .exitEntries then
      match s.spt (t, u) with
      | none => none
      | some e =>
        match e.kpage, e.swapSlot with
        | none, some slot => some (s.setPc t (.exitSlot u slot))
        | _, _ => some { s with spt := Function.update s.spt (t, u) none }
    else none

/-- No process, and nothing in memory or in the swap slots. -/
def initial (userPages poolSize swapSize : ℕ) (files : ℕ → File) (mem swap : ℕ → Bytes) : St where
  userPages := userPages
  poolSize := poolSize
  swapSize := swapSize
  pc _ := .absent
  lock _ := none
  call _ := false
  checked _ := none
  pagedir _ := false
  tables _ := false
  spt _ := none
  pte _ := .zero
  mmaps _ := []
  nextMapid _ := 1
  frameList := []
  hand := none
  used _ := false
  mem := mem
  swapUsed _ := false
  swap := swap
  files := files
  panicked := none
  ghost _ := { flat := fun _ => 0, touched := false, file := 0, ofs := 0, readBytes := 0
               foreign := false, stale := false }

def sys : System St Act where
  init s := ∃ userPages poolSize swapSize files mem swap,
    s = initial userPages poolSize swapSize files mem swap
  step := step

end Vm
end Pintos

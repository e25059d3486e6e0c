import Pintos.Lib.Bytes
import Pintos.Lib.Vaddr

/-!
# Loading an executable

`load`, `validate_segment`, `load_segment` and `setup_stack` of `userprog/process.c`. The two builds of
the kernel differ in what they do with a page: with `VM` they add an entry to the supplemental page table,
and `handle_mm_fault` fills a frame for it later; without, they fill one at once. What they share is
written once, over a `Build`.

A word of 32 bits wraps around. An `off_t` is given by its bits, and is negative if the highest one is
set. `Stop` says why the kernel goes no further: an assertion, or a loop that has not ended within the
turns that it is given.
-/

namespace Pintos
namespace Userprog

open Vaddr

/-! ### The file -/

/-- An executable file. Its length is an `off_t`. -/
structure Image where
  bytes : List UInt8
  bound : bytes.length < 2 ^ 31

/-- `file_length`. -/
def Image.length (img : Image) : UInt32 := UInt32.ofNat img.bytes.length

/-- `file_read_at`: the bytes from `ofs` on, at most `n` of them. -/
def Image.readAt (img : Image) (ofs : UInt32) (n : ℕ) : List UInt8 := (img.bytes.drop ofs.toNat).take n

/-- An `off_t` is negative. -/
def isNegative (ofs : UInt32) : Bool := 0x80000000 ≤ ofs

/-- A little-endian field of a header. -/
def field (l : List UInt8) (ofs size : ℕ) : UInt32 := UInt32.ofNat (ofLeBytes ((l.drop ofs).take size))

/-- `sizeof (struct Elf32_Ehdr)`. -/
def ehdrSize : ℕ := 52

/-- `sizeof (struct Elf32_Phdr)`. -/
def phdrSize : ℕ := 32

/-- `struct Elf32_Ehdr`, as far as `load` reads it. -/
structure Ehdr where
  ident : List UInt8
  type : UInt32
  machine : UInt32
  version : UInt32
  entry : UInt32
  phoff : UInt32
  phentsize : UInt32
  phnum : UInt32

def Ehdr.ofBytes (l : List UInt8) : Ehdr where
  ident := l.take 7
  type := field l 16 2
  machine := field l 18 2
  version := field l 20 4
  entry := field l 24 4
  phoff := field l 28 4
  phentsize := field l 42 2
  phnum := field l 44 2

/-- The test of the executable header. -/
def Ehdr.valid (h : Ehdr) : Bool :=
  h.ident = [0x7f, 0x45, 0x4c, 0x46, 1, 1, 1] && h.type = 2 && h.machine = 3 && h.version = 1 &&
    h.phentsize = UInt32.ofNat phdrSize && !(1024 < h.phnum)

/-- `struct Elf32_Phdr`, as far as `load` reads it. -/
structure Phdr where
  type : UInt32
  offset : UInt32
  vaddr : UInt32
  filesz : UInt32
  memsz : UInt32
  flags : UInt32
  deriving DecidableEq, Repr

def Phdr.ofBytes (l : List UInt8) : Phdr where
  type := field l 0 4
  offset := field l 4 4
  vaddr := field l 8 4
  filesz := field l 16 4
  memsz := field l 20 4
  flags := field l 24 4

/-- `PT_LOAD`. -/
def ptLoad : UInt32 := 1

/-- `PT_DYNAMIC`, `PT_INTERP` and `PT_SHLIB`. -/
def ptRefused : List UInt32 := [2, 3, 5]

/-- `PF_W`. -/
def pfW : UInt32 := 2

/-- `validate_segment`. -/
def validateSegment (p : Phdr) (img : Image) : Bool :=
  if p.offset &&& pgMask ≠ p.vaddr &&& pgMask then false
  else if p.offset > img.length then false
  else if p.memsz < p.filesz then false
  else if p.memsz = 0 then false
  else if !isUserVaddr p.vaddr then false
  else if !isUserVaddr (p.vaddr + p.memsz) then false
  else if p.vaddr + p.memsz < p.vaddr then false
  else if p.vaddr < pgWord then false
  else true

/-! ### Segments -/

/-- Why the kernel goes no further. -/
inductive Stop
  | assertion
  | running
  deriving DecidableEq, Repr

/-- What `load_segment` has computed for a page. -/
structure Args where
  upage : UInt32
  ofs : UInt32
  readBytes : UInt32
  zeroBytes : UInt32
  writable : Bool
  deriving DecidableEq, Repr

/-- What a build does. The result says whether `load` goes on. -/
structure Build (S : Type) where
  -- `file_seek`.
  seek : S → UInt32 → S
  -- The body of the loop of `load_segment`.
  addPage : S → Args → Except Stop (Bool × S)
  setupStack : S → Except Stop (Bool × S)

variable {S : Type}

/-- The loop of `load_segment`. -/
def loadLoop (B : Build S) (writable : Bool) (turns : ℕ) (s : S)
    (ofs upage readBytes zeroBytes : UInt32) : Except Stop (Bool × S) :=
  match turns with
  | 0 => throw .running
  | turns + 1 =>
    if readBytes > 0 || zeroBytes > 0 then do
      let pageReadBytes := if readBytes < pgWord then readBytes else pgWord
      let pageZeroBytes := pgWord - pageReadBytes
      let (ok, s) ← B.addPage s ⟨upage, ofs, pageReadBytes, pageZeroBytes, writable⟩
      if !ok then return (false, s)
      loadLoop B writable turns s (ofs + pageReadBytes) (upage + pgWord)
        (readBytes - pageReadBytes) (zeroBytes - pageZeroBytes)
    else return (true, s)

/-- `load_segment`. -/
def loadSegment (B : Build S) (turns : ℕ) (s : S) (ofs upage readBytes zeroBytes : UInt32)
    (writable : Bool) : Except Stop (Bool × S) :=
  if (readBytes + zeroBytes) % pgWord ≠ 0 ∨ pgOfs upage ≠ 0 ∨ ofs % pgWord ≠ 0 then throw .assertion
  -- `file_seek`
  else if isNegative ofs then throw .assertion
  else loadLoop B writable turns (B.seek s ofs) ofs upage readBytes zeroBytes

/-- `read_bytes` of a segment. -/
def Phdr.readBytes (p : Phdr) : UInt32 := if p.filesz > 0 then pgOfs p.vaddr + p.filesz else 0

/-- `zero_bytes` of a segment. -/
def Phdr.zeroBytes (p : Phdr) : UInt32 :=
  if p.filesz > 0 then roundUp (pgOfs p.vaddr + p.memsz) pgWord - p.readBytes
  else roundUp (pgOfs p.vaddr + p.memsz) pgWord

/-- The switch over `p_type` in `load`. -/
def loadPhdr (B : Build S) (turns : ℕ) (img : Image) (s : S) (p : Phdr) : Except Stop (Bool × S) :=
  if p.type = ptLoad then
    if validateSegment p img then
      loadSegment B turns s (p.offset &&& ~~~pgMask) (p.vaddr &&& ~~~pgMask) p.readBytes p.zeroBytes
        (p.flags &&& pfW ≠ 0)
    else return (false, s)
  else return (p.type ∉ ptRefused, s)

/-- The loop over the program headers. -/
def loadPhdrs (B : Build S) (turns : ℕ) (img : Image) : ℕ → S → UInt32 → Except Stop (Bool × S)
  | 0, s, _ => return (true, s)
  | n + 1, s, fileOfs =>
    if isNegative fileOfs ∨ fileOfs > img.length then return (false, s)
    else if (img.readAt fileOfs phdrSize).length ≠ phdrSize then return (false, s)
    else do
      let (ok, s) ← loadPhdr B turns img s (.ofBytes (img.readAt fileOfs phdrSize))
      if !ok then return (false, s)
      loadPhdrs B turns img n s (fileOfs + UInt32.ofNat phdrSize)

/-- `load`, from the executable header to `setup_stack`. It returns the entry point, if it succeeds. -/
def load (B : Build S) (turns : ℕ) (img : Image) (s : S) : Except Stop (Option UInt32 × S) :=
  if (img.readAt 0 ehdrSize).length ≠ ehdrSize then return (none, s)
  else
    let ehdr := Ehdr.ofBytes (img.readAt 0 ehdrSize)
    if !ehdr.valid then return (none, s)
    else do
      let (ok, s) ← loadPhdrs B turns img ehdr.phnum.toNat s ehdr.phoff
      if !ok then return (none, s)
      let (ok, s) ← B.setupStack s
      if !ok then return (none, s)
      return (some ehdr.entry, s)

/-- The page of the stack. -/
def stackPage : UInt32 := 0xC0000000 - pgWord

/-- More turns than there are pages. -/
def manyTurns : ℕ := 2 ^ 20 + 1

/-! ### With `VM` -/

/-- `struct page`, as far as `load` fills it. -/
structure Page where
  -- `PAGE_BIN`, or else `PAGE_ANON`.
  bin : Bool
  ofs : UInt32
  readBytes : UInt32
  zeroBytes : UInt32
  writable : Bool
  deriving DecidableEq, Repr

/-- The supplemental page table. -/
abbrev Spt := UInt32 → Option Page

/-- `page_add_file`. -/
def Args.page (a : Args) : Page := ⟨true, a.ofs, a.readBytes, a.zeroBytes, a.writable⟩

/-- `page_add_anon`. -/
def anonPage (writable : Bool) : Page := ⟨false, 0, 0, pgWord, writable⟩

/-- `page_add_file` and `page_add_anon`. `ok` says whether `malloc` succeeds. -/
def addEntry (ok : Bool) (spt : Spt) (upage : UInt32) (p : Page) : Except Stop (Bool × Spt) :=
  if pgOfs upage ≠ 0 then throw .assertion
  else if ok && (spt upage).isNone then return (true, Function.update spt upage (some p))
  else return (false, spt)

/-- The build with `VM`. `ok` says for which pages there is memory: for the entry, and for the stack a
frame and what `install_page` needs. -/
def lazyBuild (ok : UInt32 → Bool) : Build Spt where
  seek spt _ := spt
  addPage spt a := addEntry (ok a.upage) spt a.upage a.page
  setupStack spt := addEntry (ok stackPage) spt stackPage (anonPage true)

/-- What `handle_mm_fault` leaves in a frame that holds `frame`, if the file gives all that is asked
for. -/
def Page.fill (p : Page) (img : Image) (frame : Vector UInt8 pgSize) : Option (List UInt8) :=
  if p.bin then
    let data := img.readAt p.ofs p.readBytes.toNat
    if data.length = p.readBytes.toNat then
      some (splice (splice frame.toList 0 data) data.length (List.replicate p.zeroBytes.toNat 0))
    else none
  else some (List.replicate pgSize 0)

/-! ### Without -/

/-- The pages that are mapped, with their contents and whether they are writable, and the position in the
file. -/
structure Eager where
  pages : UInt32 → Option (List UInt8 × Bool)
  pos : UInt32

/-- `install_page`. -/
def Eager.install (s : Eager) (upage : UInt32) (content : List UInt8) (writable : Bool) : Bool × Eager :=
  if (s.pages upage).isNone then
    (true, { s with pages := Function.update s.pages upage (some (content, writable)) })
  else (false, s)

/-- The build without `VM`. `ok` says for which pages `palloc_get_page` and `pagedir_set_page`
succeed, and `frame` what is in a page that is handed out. -/
def eagerBuild (img : Image) (ok : UInt32 → Bool) (frame : UInt32 → Vector UInt8 pgSize) :
    Build Eager where
  seek s ofs := { s with pos := ofs }
  addPage s a :=
    if ok a.upage then
      let data := img.readAt s.pos a.readBytes.toNat
      if data.length = a.readBytes.toNat then
        let content := splice (splice (frame a.upage).toList 0 data) data.length
          (List.replicate a.zeroBytes.toNat 0)
        return { s with pos := s.pos + UInt32.ofNat data.length }.install a.upage content a.writable
      else return (false, s)
    else return (false, s)
  setupStack s :=
    if ok stackPage then return s.install stackPage (List.replicate pgSize 0) true
    else return (false, s)

end Userprog
end Pintos

import Pintos.Filesys.Inode
import Pintos.Lib.Action
import Pintos.Lib.CString
import Pintos.Lib.Keyed

/-!
# The file system

`filesys/inode.c`, `free-map.c`, `directory.c`, `file.c` and `filesys.c`, with the bitmap of
`lib/kernel/bitmap.c`. The functions call each other across these files: an inode that is closed for the
last time gives its sectors back to the free map, and the free map is a file of its own.

A function is an `Op`: it changes the state `Fs`, unless the kernel halts. Whether an allocation succeeds is
read off the list `heap`. A pointer to an inode is the number of its sector, as `inode_open` finds an open
inode by its sector; if no inode with this sector is open, the pointer is wild.
-/

namespace Pintos
namespace Filesys

/-- `struct file`. -/
structure File where
  inode : ℕ
  pos : ℤ
  denyWrite : Bool
  deriving DecidableEq, Repr

/-- `struct dir`. -/
structure Dir where
  inode : ℕ
  pos : ℤ
  deriving DecidableEq, Repr

/-- The file system. -/
structure Fs where
  -- `fs_device`.
  dev : Device
  -- The bits of `free_map`.
  freeMap : List Bool
  -- `free_map_file`.
  freeMapFile : Option File
  -- `open_inodes`.
  openInodes : List Inode
  -- Whether the next allocations succeed; those behind the end of the list do.
  heap : List Bool

/-- A function of the file system. -/
abbrev Op := StateT Fs (Except Halt)

/-- `malloc` and `calloc`. -/
def malloc : Op Bool := fun fs =>
  match fs.heap with
  | [] => .ok (true, fs)
  | b :: heap => .ok (b, { fs with heap := heap })

/-- `FREE_MAP_SECTOR`. -/
def freeMapSector : ℕ := 0

/-- `ROOT_DIR_SECTOR`. -/
def rootDirSector : ℕ := 1

/-- `NAME_MAX`. -/
def nameMax : ℕ := 14

/-! ### Bitmaps -/

/-- `byte_cnt`: the words of 32 bits that a bitmap needs, in bytes. -/
def byteCnt (bits : ℕ) : ℕ := 4 * ((bits + 31) / 32)

/-- The bytes of a bitmap. The bits behind the last one are never looked at, and are taken as false. -/
def bitmapBytes (b : List Bool) : List UInt8 :=
  (List.range (byteCnt b.length)).map fun i =>
    UInt8.ofNat (((b.drop (8 * i)).take 8).foldr (fun bit n => bit.toNat + 2 * n) 0)

/-- The first `n` bits of these bytes. -/
def bitmapOfBytes (n : ℕ) (l : List UInt8) : List Bool :=
  (List.range n).map fun j => (l.getD (j / 8) 0).toNat.testBit (j % 8)

/-- `bitmap_scan` from the first bit on, for a group of `cnt` bits that are all false. -/
def bitmapScan (b : List Bool) (cnt : ℕ) : Option ℕ :=
  if cnt ≤ b.length then
    (List.range (b.length - cnt + 1)).find? fun i => ((b.drop i).take cnt).all (!·)
  else none

/-- `bitmap_set_multiple`. -/
def setMultiple (b : List Bool) (start cnt : ℕ) (value : Bool) : List Bool :=
  splice b start (List.replicate cnt value)

/-! ### Open inodes -/

/-- The open inode that a pointer points to. -/
def getInode (inode : ℕ) : Op Inode := fun fs =>
  match Keyed.get Inode.sector inode fs.openInodes with
  | some ino => .ok (ino, fs)
  | none => .error .wild

/-- Change an open inode. -/
def setInode (ino : Inode) : Op Unit := modify fun fs =>
  { fs with openInodes := Keyed.put Inode.sector ino fs.openInodes }

/-- `inode_read_at`. -/
def readInode (inode : ℕ) (size offset : ℤ) : Op (List UInt8) := do
  let ino ← getInode inode
  let bounce ← malloc
  let fs ← get
  inodeReadAt fs.dev ino bounce size offset

/-- `inode_write_at`. -/
def writeInode (inode : ℕ) (buffer : List UInt8) (size offset : ℤ) : Op ℕ := do
  let ino ← getInode inode
  let bounce ← malloc
  let fs ← get
  let (n, dev) ← inodeWriteAt fs.dev ino bounce buffer size offset
  set { fs with dev := dev }
  return n

/-- `block_read` on the device. -/
def readBlock (sector : ℕ) : Op (List UInt8) := do
  let fs ← get
  fs.dev.blockRead sector

/-- `block_write` on the device. -/
def writeBlock (sector : ℕ) (data : List UInt8) : Op Unit := do
  let fs ← get
  let dev ← fs.dev.blockWrite sector data
  set { fs with dev := dev }

/-! ### The free map -/

/-- `bitmap_write` to the free map's file: has all of it been written? -/
def freeMapWrite : Op Bool := do
  let fs ← get
  match fs.freeMapFile with
  | none => throw .wild
  | some file =>
    let size := byteCnt fs.freeMap.length
    let n ← writeInode file.inode (bitmapBytes fs.freeMap) size 0
    return n = size

/-- `free_map_allocate`. It returns the first sector. -/
def freeMapAllocate (cnt : ℕ) : Op (Option ℕ) := do
  let fs ← get
  match bitmapScan fs.freeMap cnt with
  | none => return none
  | some sector =>
    set { fs with freeMap := setMultiple fs.freeMap sector cnt true }
    if fs.freeMapFile.isNone then return some sector
    let ok ← freeMapWrite
    if ok then return some sector
    modify fun fs => { fs with freeMap := setMultiple fs.freeMap sector cnt false }
    return none

/-- `free_map_release`. -/
def freeMapRelease (sector cnt : ℕ) : Op Unit := do
  let fs ← get
  if ¬ (sector + cnt ≤ fs.freeMap.length ∧ ((fs.freeMap.drop sector).take cnt).all id) then
    throw .assertion
  set { fs with freeMap := setMultiple fs.freeMap sector cnt false }
  let _ ← freeMapWrite

/-! ### Inodes -/

/-- `struct inode_disk`, with `INODE_MAGIC`. -/
def inodeDisk (start : ℕ) (length : ℤ) : List UInt8 :=
  leBytes 4 start ++ leBytes 4 (length % 2 ^ 32).toNat ++ leBytes 4 0x494e4f44 ++ List.replicate 500 0

/-- The inode that is read from a sector. -/
def Inode.ofDisk (sector : ℕ) (data : List UInt8) : Inode where
  sector := sector
  openCnt := 1
  removed := false
  denyWriteCnt := 0
  start := ofLeBytes (data.take 4)
  length := (ofLeBytes ((data.drop 4).take 4) : ℤ).bmod (2 ^ 32)

/-- The loop of `inode_create` that clears the data. -/
def clearSectors (start : ℕ) : ℕ → Op Unit
  | 0 => return
  | n + 1 => do
    writeBlock start (List.replicate sectorSize 0)
    clearSectors (start + 1) n

/-- `inode_create`. -/
def inodeCreate (sector : ℕ) (length : ℤ) : Op Bool := do
  if length < 0 then throw .assertion
  let ok ← malloc
  if !ok then return false
  let sectors := bytesToSectors length
  match ← freeMapAllocate sectors with
  | none => return false
  | some start =>
    writeBlock sector (inodeDisk start length)
    clearSectors start sectors
    return true

/-- `inode_open`. -/
def inodeOpen (sector : ℕ) : Op (Option ℕ) := do
  let fs ← get
  match Keyed.get Inode.sector sector fs.openInodes with
  | some ino =>
    setInode { ino with openCnt := ino.openCnt + 1 }
    return some sector
  | none =>
    let ok ← malloc
    if !ok then return none
    let data ← readBlock sector
    modify fun fs => { fs with openInodes := .ofDisk sector data :: fs.openInodes }
    return some sector

/-- `inode_reopen`. -/
def inodeReopen (inode : ℕ) : Op ℕ := do
  let ino ← getInode inode
  setInode { ino with openCnt := ino.openCnt + 1 }
  return inode

/-- `inode_close`, of an inode or of a null pointer. -/
def inodeClose : Option ℕ → Op Unit
  | none => return
  | some inode => do
    let ino ← getInode inode
    if ino.openCnt = 1 then
      modify fun fs => { fs with openInodes := Keyed.erase Inode.sector inode fs.openInodes }
      if ino.removed then
        freeMapRelease inode 1
        freeMapRelease ino.start (bytesToSectors ino.length)
    else setInode { ino with openCnt := ino.openCnt - 1 }

/-- `inode_remove`. -/
def inodeRemove (inode : ℕ) : Op Unit := do
  let ino ← getInode inode
  setInode { ino with removed := true }

/-- `inode_deny_write`. -/
def inodeDenyWrite (inode : ℕ) : Op Unit := do
  let ino ← getInode inode
  setInode { ino with denyWriteCnt := ino.denyWriteCnt + 1 }
  if ¬ ino.denyWriteCnt + 1 ≤ ino.openCnt then throw .assertion

/-- `inode_allow_write`. -/
def inodeAllowWrite (inode : ℕ) : Op Unit := do
  let ino ← getInode inode
  if ¬ 0 < ino.denyWriteCnt then throw .assertion
  if ¬ ino.denyWriteCnt ≤ ino.openCnt then throw .assertion
  setInode { ino with denyWriteCnt := ino.denyWriteCnt - 1 }

/-! ### Files -/

/-- `file_open`. -/
def fileOpen (inode : Option ℕ) : Op (Option File) := do
  let ok ← malloc
  match inode, ok with
  | some inode, true => return some ⟨inode, 0, false⟩
  | inode, _ =>
    inodeClose inode
    return none

/-- `file_reopen`. -/
def fileReopen (file : File) : Op (Option File) := do
  let inode ← inodeReopen file.inode
  fileOpen (some inode)

/-- `file_deny_write`. -/
def fileDenyWrite (file : File) : Op File := do
  if file.denyWrite then return file
  inodeDenyWrite file.inode
  return { file with denyWrite := true }

/-- `file_allow_write`. -/
def fileAllowWrite (file : File) : Op File := do
  if !file.denyWrite then return file
  inodeAllowWrite file.inode
  return { file with denyWrite := false }

/-- `file_close`. -/
def fileClose : Option File → Op Unit
  | none => return
  | some file => do
    let file ← fileAllowWrite file
    inodeClose (some file.inode)

/-- `file_read`. -/
def readFile (file : File) (size : ℤ) : Op (List UInt8 × File) := do
  let data ← readInode file.inode size file.pos
  return (data, { file with pos := file.pos + data.length })

/-- `file_write`. -/
def writeFile (file : File) (buffer : List UInt8) (size : ℤ) : Op (ℕ × File) := do
  let n ← writeInode file.inode buffer size file.pos
  return (n, { file with pos := file.pos + n })

/-! ### Directories -/

/-- `sizeof (struct dir_entry)`. -/
def entrySize : ℕ := 20

/-- `inode_sector` of a directory entry. -/
def entrySector (e : List UInt8) : ℕ := ofLeBytes (e.take 4)

/-- `name`. -/
def entryName (e : List UInt8) : List UInt8 := (e.drop 4).take (nameMax + 1)

/-- `in_use`. -/
def entryInUse (e : List UInt8) : Bool := e.getD 19 0 ≠ 0

/-- `strcmp` finds that an entry is in use for a name. -/
def entryNamed (e : List UInt8) (name : CStr) : Bool :=
  entryInUse e && CStr.ofBytes (entryName e) = some name

/-- More turns than a directory has entries. -/
def dirTurns : ℕ := 2 ^ 31

/-- `dir_open`. -/
def dirOpen (inode : Option ℕ) : Op (Option Dir) := do
  let ok ← malloc
  match inode, ok with
  | some inode, true => return some ⟨inode, 0⟩
  | inode, _ =>
    inodeClose inode
    return none

/-- `dir_open_root`. -/
def dirOpenRoot : Op (Option Dir) := do
  let inode ← inodeOpen rootDirSector
  dirOpen inode

/-- `dir_close`. -/
def dirClose : Option Dir → Op Unit
  | none => return
  | some dir => inodeClose (some dir.inode)

/-- The loop of `lookup`. It returns the entry and its place. -/
def lookupLoop (inode : ℕ) (name : CStr) : ℕ → ℕ → Op (Option (List UInt8 × ℕ))
  | 0, _ => throw .running
  | turns + 1, ofs => do
    let e ← readInode inode entrySize ofs
    if e.length ≠ entrySize then return none
    if entryNamed e name then return some (e, ofs)
    lookupLoop inode name turns (ofs + entrySize)

/-- `lookup`. -/
def lookup (dir : Dir) (name : CStr) : Op (Option (List UInt8 × ℕ)) := lookupLoop dir.inode name dirTurns 0

/-- `dir_lookup`. It returns the inode. -/
def dirLookup (dir : Dir) (name : CStr) : Op (Option ℕ) := do
  match ← lookup dir name with
  | some (e, _) => inodeOpen (entrySector e)
  | none => return none

/-- The loop of `dir_add` that looks for a free entry. It returns what is in the buffer, and the place. -/
def freeEntryLoop (inode : ℕ) : ℕ → ℕ → List UInt8 → Op (List UInt8 × ℕ)
  | 0, _, _ => throw .running
  | turns + 1, ofs, buffer => do
    let e ← readInode inode entrySize ofs
    if e.length ≠ entrySize then return (splice buffer 0 e, ofs)
    if !entryInUse e then return (e, ofs)
    freeEntryLoop inode turns (ofs + entrySize) e

/-- A directory entry in use, in a buffer that held `e`. -/
def newEntry (e : List UInt8) (name : CStr) (sector : ℕ) : Option (List UInt8) := do
  let (buffer, _) ← strlcpy (entryName e) name (nameMax + 1)
  return leBytes 4 sector ++ buffer ++ [1]

/-- `dir_add`. `buffer` is what the variable `e` holds at first. -/
def dirAdd (buffer : Vector UInt8 entrySize) (dir : Dir) (name : CStr) (sector : ℕ) : Op Bool := do
  if name.chars = [] ∨ name.chars.length > nameMax then return false
  match ← lookup dir name with
  | some _ => return false
  | none =>
    let (e, ofs) ← freeEntryLoop dir.inode dirTurns 0 buffer.toList
    match newEntry e name sector with
    | none => throw .wild
    | some e =>
      let n ← writeInode dir.inode e entrySize ofs
      return n = entrySize

/-- The entry after `in_use` has been cleared. -/
def freedEntry (e : List UInt8) : List UInt8 := splice e 19 [0]

/-- `dir_remove`. -/
def dirRemove (dir : Dir) (name : CStr) : Op Bool := do
  match ← lookup dir name with
  | none => return false
  | some (e, ofs) =>
    match ← inodeOpen (entrySector e) with
    | none => return false
    | some inode =>
      let n ← writeInode dir.inode (freedEntry e) entrySize ofs
      if n ≠ entrySize then
        inodeClose (some inode)
        return false
      inodeRemove inode
      inodeClose (some inode)
      return true

/-- The loop of `dir_readdir`. -/
def readdirLoop : ℕ → Dir → Op (Option (List UInt8) × Dir)
  | 0, _ => throw .running
  | turns + 1, dir => do
    let e ← readInode dir.inode entrySize dir.pos
    if e.length ≠ entrySize then return (none, dir)
    let dir := { dir with pos := dir.pos + entrySize }
    if entryInUse e then return (some (entryName e), dir)
    readdirLoop turns dir

/-- `dir_readdir`. It returns the name of the next entry, as `strlcpy` finds it. -/
def dirReaddir (dir : Dir) : Op (Option CStr × Dir) := do
  match ← readdirLoop dirTurns dir with
  | (none, dir) => return (none, dir)
  | (some name, dir) =>
    match CStr.ofBytes name with
    | none => throw .wild
    | some name => return (some name, dir)

/-! ### File system -/

/-- `filesys_create`. -/
def filesysCreate (buffer : Vector UInt8 entrySize) (name : CStr) (initialSize : ℤ) : Op Bool := do
  let dir ← dirOpenRoot
  match dir with
  | none => return false
  | some root =>
    match ← freeMapAllocate 1 with
    | none =>
      dirClose dir
      return false
    | some inodeSector =>
      let created ← inodeCreate inodeSector initialSize
      let success ← if created then dirAdd buffer root name inodeSector else pure false
      if !success ∧ inodeSector ≠ 0 then freeMapRelease inodeSector 1
      dirClose dir
      return success

/-- `filesys_open`. -/
def filesysOpen (name : CStr) : Op (Option File) := do
  let dir ← dirOpenRoot
  let inode ← match dir with
    | none => pure none
    | some dir => dirLookup dir name
  dirClose dir
  fileOpen inode

/-- `filesys_remove`. -/
def filesysRemove (name : CStr) : Op Bool := do
  let dir ← dirOpenRoot
  let success ← match dir with
    | none => pure false
    | some dir => dirRemove dir name
  dirClose dir
  return success

/-! ### Formatting -/

/-- `free_map_init`. -/
def freeMapInit : Op Unit := do
  let fs ← get
  let ok ← malloc
  if !ok then throw .panic
  let blank := List.replicate fs.dev.size false
  modify fun fs => { fs with freeMap := setMultiple (setMultiple blank freeMapSector 1 true) rootDirSector 1 true }

/-- Open the free map's file. -/
def freeMapOpenFile : Op Unit := do
  let inode ← inodeOpen freeMapSector
  match ← fileOpen inode with
  | none => throw .panic
  | some file => modify fun fs => { fs with freeMapFile := some file }

/-- `free_map_create`. -/
def freeMapCreate : Op Unit := do
  let fs ← get
  let ok ← inodeCreate freeMapSector (byteCnt fs.freeMap.length)
  if !ok then throw .panic
  freeMapOpenFile
  let ok ← freeMapWrite
  if !ok then throw .panic

/-- `free_map_close`. -/
def freeMapClose : Op Unit := do
  let fs ← get
  fileClose fs.freeMapFile

/-- `free_map_open`, with `bitmap_read`. -/
def freeMapOpen : Op Unit := do
  freeMapOpenFile
  let fs ← get
  let data ← readInode freeMapSector (byteCnt fs.freeMap.length) 0
  if data.length ≠ byteCnt fs.freeMap.length then throw .panic
  modify fun fs => { fs with freeMap := bitmapOfBytes fs.freeMap.length data }

/-- `do_format`. -/
def doFormat : Op Unit := do
  freeMapCreate
  let ok ← inodeCreate rootDirSector (16 * entrySize)
  if !ok then throw .panic
  freeMapClose

/-- `filesys_init`, when the device is to be formatted. -/
def filesysInit : Op Unit := do
  freeMapInit
  doFormat
  freeMapOpen

end Filesys
end Pintos

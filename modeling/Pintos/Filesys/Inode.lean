import Pintos.Devices.Block

/-!
# Reading and writing through an inode

`inode_read_at` and `inode_write_at` of `filesys/inode.c`, with `file_read` and `file_write` of
`filesys/file.c`. A transfer goes sector by sector; a sector of which only a part is wanted goes through a
bounce buffer. An `off_t` is an integer here, as no sum or difference of these functions leaves its 32
bits.

* `chunkSize` — how much is transferred in a turn, a minimum of three signed numbers;
* `readLoop_eq`, `writeLoop_eq` — the loops end, and transfer what lies in the file;
* `inode_refines` — an inode is an array of bytes.
-/

namespace Pintos
namespace Filesys

/-- `struct inode`. It is in memory as long as the file is open, and holds a copy of the inode on the
disk: where the data start, and how long they are. -/
structure Inode where
  sector : ℕ
  openCnt : ℕ
  removed : Bool
  denyWriteCnt : ℕ
  start : ℕ
  length : ℤ
  deriving DecidableEq, Repr

/-- `bytes_to_sectors`. The quotient becomes a `size_t`. -/
def bytesToSectors (size : ℤ) : ℕ := ((size + (sectorSize - 1)).tdiv sectorSize % 2 ^ 32).toNat

variable (dev : Device) (ino : Inode)

/-- `byte_to_sector`. A sector number has 32 bits. -/
def Inode.byteToSector (pos : ℤ) : ℕ :=
  if pos < ino.length then ((ino.start + pos.tdiv sectorSize) % 2 ^ 32).toNat else 2 ^ 32 - 1

/-- `sector_ofs`: where a transfer starts in its sector. -/
def sectorOfs (offset : ℤ) : ℤ := offset.tmod sectorSize

/-- `sector_left`: what is left of that sector. -/
def sectorLeft (offset : ℤ) : ℤ := sectorSize - sectorOfs offset

/-- `chunk_size`: how much is transferred in a turn. -/
def Inode.chunkSize (size offset : ℤ) : ℤ :=
  let inodeLeft := ino.length - offset
  let minLeft := if inodeLeft < sectorLeft offset then inodeLeft else sectorLeft offset
  if size < minLeft then size else minLeft

/-- The loop of `inode_read_at`. `bounce` says whether there is memory for the bounce buffer, and `got`
is what has been read. -/
def readLoop (bounce : Bool) : ℕ → ℤ → ℤ → List UInt8 → Except Halt (List UInt8)
  | 0, _, _, _ => throw .running
  | turns + 1, size, offset, got =>
    if size > 0 then do
      let sectorIdx := ino.byteToSector offset
      let chunkSize := ino.chunkSize size offset
      if chunkSize ≤ 0 then return got
      if sectorOfs offset = 0 ∧ chunkSize = sectorSize then
        let data ← dev.blockRead sectorIdx
        readLoop bounce turns (size - chunkSize) (offset + chunkSize) (got ++ data)
      else
        if !bounce then return got
        let data ← dev.blockRead sectorIdx
        readLoop bounce turns (size - chunkSize) (offset + chunkSize)
          (got ++ (data.drop (sectorOfs offset).toNat).take chunkSize.toNat)
    else return got

/-- `inode_read_at`. It returns what it has put into the buffer. -/
def inodeReadAt (bounce : Bool) (size offset : ℤ) : Except Halt (List UInt8) :=
  readLoop dev ino bounce (size.toNat + 1) size offset []

/-- The loop of `inode_write_at`. It returns how much has been written. -/
def writeLoop (bounce : Bool) (buffer : List UInt8) :
    ℕ → Device → ℤ → ℤ → ℕ → Except Halt (ℕ × Device)
  | 0, _, _, _, _ => throw .running
  | turns + 1, dev, size, offset, bytesWritten =>
    if size > 0 then do
      let sectorIdx := ino.byteToSector offset
      let chunkSize := ino.chunkSize size offset
      let data := (buffer.drop bytesWritten).take chunkSize.toNat
      if chunkSize ≤ 0 then return (bytesWritten, dev)
      if sectorOfs offset = 0 ∧ chunkSize = sectorSize then
        let dev ← dev.blockWrite sectorIdx data
        writeLoop bounce buffer turns dev (size - chunkSize) (offset + chunkSize)
          (bytesWritten + chunkSize.toNat)
      else
        if !bounce then return (bytesWritten, dev)
        -- the rest of the sector is kept, unless there is none
        let sector ← if sectorOfs offset > 0 ∨ chunkSize < sectorLeft offset then dev.blockRead sectorIdx
          else pure (List.replicate sectorSize 0)
        let dev ← dev.blockWrite sectorIdx (splice sector (sectorOfs offset).toNat data)
        writeLoop bounce buffer turns dev (size - chunkSize) (offset + chunkSize)
          (bytesWritten + chunkSize.toNat)
    else return (bytesWritten, dev)

/-- `inode_write_at`. -/
def inodeWriteAt (bounce : Bool) (buffer : List UInt8) (size offset : ℤ) : Except Halt (ℕ × Device) :=
  if ino.denyWriteCnt ≠ 0 then return (0, dev)
  else writeLoop ino bounce buffer (size.toNat + 1) dev size offset 0

/-- `file_read`, of a file at a position. It returns the new position as well. -/
def fileRead (bounce : Bool) (size pos : ℤ) : Except Halt (List UInt8 × ℤ) := do
  let data ← inodeReadAt dev ino bounce size pos
  return (data, pos + data.length)

/-- `file_write`. -/
def fileWrite (bounce : Bool) (buffer : List UInt8) (size pos : ℤ) : Except Halt (ℕ × ℤ × Device) := do
  let (n, dev) ← inodeWriteAt dev ino bounce buffer size pos
  return (n, pos + n, dev)

/-! ### The bytes of a file -/

variable {dev ino}

/-- The data of an inode, of `len` bytes, lie on the device. -/
structure Inode.OnDevice (ino : Inode) (dev : Device) (len : ℕ) : Prop where
  length : ino.length = len
  bound : len < 2 ^ 31
  extent : ino.start + bytesToSectors len ≤ dev.size

/-- The first `len` bytes of the data of an inode. -/
def Inode.contents (ino : Inode) (dev : Device) (len : ℕ) : List UInt8 :=
  dev.bytes.read (sectorSize * ino.start) len

@[simp] theorem Inode.length_contents (len : ℕ) : (ino.contents dev len).length = len :=
  Memory.length_read ..

section Chunk

variable {len o n : ℕ}

theorem bytesToSectors_natCast (h : len < 2 ^ 31) : bytesToSectors len = (len + 511) / 512 := by
  have hdiv : ((len : ℤ) + ((512 : ℕ) - 1)).tdiv (512 : ℕ) = ((len + 511) / 512 : ℕ) := rfl
  rw [bytesToSectors, sectorSize, hdiv]
  omega

theorem sectorOfs_natCast (o : ℕ) : sectorOfs o = (o % 512 : ℕ) := rfl

/-- How much is transferred from within a file. -/
theorem Inode.chunkSize_eq (h : ino.length = len) (ho : o < len) :
    ino.chunkSize n o = (min n (min (len - o) (512 - o % 512)) : ℕ) := by
  simp only [Inode.chunkSize, h, sectorLeft, sectorOfs_natCast, sectorSize]
  split <;> split <;> omega

/-- Nothing, from its end on. -/
theorem Inode.chunkSize_nonpos (h : ino.length = len) (ho : len ≤ o) : ino.chunkSize n o ≤ 0 := by
  simp only [Inode.chunkSize, h, sectorLeft, sectorOfs_natCast, sectorSize]
  split <;> split <;> omega

/-- The sector of a byte is on the device. -/
theorem Inode.OnDevice.byteToSector (h : ino.OnDevice dev len) (ho : o < len) :
    ino.byteToSector o = ino.start + o / 512 ∧ ino.start + o / 512 < dev.size := by
  have hextent := h.extent
  have hbound := dev.bound
  rw [bytesToSectors_natCast h.bound] at hextent
  have hlt : ino.start + o / 512 < dev.size := by omega
  refine ⟨?_, hlt⟩
  have hdiv : (o : ℤ).tdiv (512 : ℕ) = (o / 512 : ℕ) := rfl
  rw [Inode.byteToSector, if_pos (by rw [h.length]; omega), sectorSize, hdiv]
  omega

end Chunk

/-! ### The loops -/

section Loops

variable {len o n : ℕ} {bounce : Bool}

/-- How much a turn transfers at byte `o` of a file, of `n` bytes that are still wanted. -/
def chunk (len n o : ℕ) : ℕ := min n (min (len - o) (512 - o % 512))

theorem chunk_pos (hn : 0 < n) (ho : o < len) : 0 < chunk len n o := by
  rw [chunk]
  omega

theorem chunk_le (len n o : ℕ) :
    chunk len n o ≤ n ∧ chunk len n o ≤ len - o ∧ o % 512 + chunk len n o ≤ 512 := by
  rw [chunk]
  omega

/-- A turn of `inode_read_at`: it needs the bounce buffer unless it reads a whole sector. -/
theorem readLoop_step (h : ino.OnDevice dev len) (hn : 0 < n) (ho : o < len) (turns : ℕ)
    (got : List UInt8) :
    readLoop dev ino bounce (turns + 1) n o got =
      if bounce || (o % 512 = 0 ∧ chunk len n o = 512) then
        readLoop dev ino bounce turns (n - chunk len n o : ℕ) (o + chunk len n o : ℕ)
          (got ++ ((ino.contents dev len).drop o).take (chunk len n o))
      else .ok got := by
  obtain ⟨hchunkn, hchunkl, hchunk⟩ := chunk_le len n o
  have hpos := chunk_pos hn ho
  have hsize : ino.chunkSize n o = (chunk len n o : ℕ) := ino.chunkSize_eq h.length ho
  obtain ⟨hsector, hlt⟩ := h.byteToSector ho
  have hread := Device.blockRead_of_lt hlt
  have hdata : ((dev.sector (ino.start + o / 512)).drop (o % 512)).take (chunk len n o) =
      ((ino.contents dev len).drop o).take (chunk len n o) := by
    rw [Device.take_drop_sector hchunk, Inode.contents, Memory.take_drop_read (by omega)]
    congr 1
    rw [sectorSize]
    omega
  have hgo : ¬ ((chunk len n o : ℕ) : ℤ) ≤ 0 := by omega
  have hn' : (n : ℤ) - (chunk len n o : ℕ) = (n - chunk len n o : ℕ) := by omega
  rw [readLoop, if_pos (by omega)]
  simp only [hsector, hsize, if_neg hgo, hn', ← Int.natCast_add, sectorOfs_natCast, hread, Int.toNat_natCast]
  by_cases hfull : o % 512 = 0 ∧ chunk len n o = 512
  · have hfull' : ((o % 512 : ℕ) : ℤ) = 0 ∧ ((chunk len n o : ℕ) : ℤ) = (sectorSize : ℕ) := by
      rw [sectorSize]
      omega
    have hwhole : (dev.sector (ino.start + o / 512)).take 512 = dev.sector (ino.start + o / 512) :=
      List.take_of_length_le (Nat.le_of_eq Device.length_sector)
    rw [if_pos hfull', if_pos (by simp [hfull]), ← hdata, hfull.1, hfull.2, List.drop_zero, hwhole]
    rfl
  · have hfull' : ¬ (((o % 512 : ℕ) : ℤ) = 0 ∧ ((chunk len n o : ℕ) : ℤ) = (sectorSize : ℕ)) := by
      rw [sectorSize]
      omega
    rw [if_neg hfull', ← hdata]
    cases bounce with
    | true => rfl
    | false => simp [hfull, pure, Except.pure]

/-- **The loop of `inode_read_at`** ends, and reads from byte `o` on what is in the file: all that is
wanted, if there is memory for the bounce buffer. -/
theorem readLoop_eq (h : ino.OnDevice dev len) (bounce : Bool) {turns : ℕ} (hturns : n < turns)
    (got : List UInt8) :
    ∃ m ≤ min n (len - o), (bounce = true → m = min n (len - o)) ∧
      readLoop dev ino bounce turns n o got =
        .ok (got ++ ((ino.contents dev len).drop o).take m) := by
  induction turns generalizing n o got with
  | zero => omega
  | succ turns ih =>
    by_cases hn : 0 < n
    swap
    · have hn : n = 0 := by omega
      subst hn
      exact ⟨0, by omega, by simp, by simp [readLoop, pure, Except.pure]⟩
    by_cases ho : o < len
    swap
    · -- behind the end of the file the loop breaks
      have hchunk := ino.chunkSize_nonpos (n := n) h.length (by omega : len ≤ o)
      refine ⟨0, by omega, fun _ => by omega, ?_⟩
      rw [readLoop, if_pos (by omega)]
      simp [hchunk, pure, Except.pure]
    obtain ⟨hchunkn, hchunkl, -⟩ := chunk_le len n o
    have hpos := chunk_pos hn ho
    rw [readLoop_step h hn ho]
    split
    · obtain ⟨m, hm, hall, heq⟩ := ih (n := n - chunk len n o) (o := o + chunk len n o) (by omega)
        (got ++ ((ino.contents dev len).drop o).take (chunk len n o))
      refine ⟨chunk len n o + m, by omega, fun hb => ?_, ?_⟩
      · have hm' := hall hb
        omega
      · rw [heq, List.append_assoc, List.take_add, List.drop_drop]
    · rename_i hstop
      refine ⟨0, by omega, fun hb => absurd ?_ hstop, by simp⟩
      simp [hb]

/-- A turn of `inode_write_at`. -/
theorem writeLoop_step (h : ino.OnDevice dev len) (hn : 0 < n) (ho : o < len) (turns : ℕ)
    {buffer : List UInt8} {w : ℕ} (hbuf : w + n ≤ buffer.length) :
    writeLoop ino bounce buffer (turns + 1) dev n o w =
      if bounce || (o % 512 = 0 ∧ chunk len n o = 512) then
        writeLoop ino bounce buffer turns
          (dev.write (sectorSize * ino.start + o) ((buffer.drop w).take (chunk len n o)))
          (n - chunk len n o : ℕ) (o + chunk len n o : ℕ) (w + chunk len n o)
      else .ok (w, dev) := by
  obtain ⟨hchunkn, hchunkl, hchunk⟩ := chunk_le len n o
  have hpos := chunk_pos hn ho
  have hsize : ino.chunkSize n o = (chunk len n o : ℕ) := ino.chunkSize_eq h.length ho
  obtain ⟨hsector, hlt⟩ := h.byteToSector ho
  have hread := Device.blockRead_of_lt hlt
  have hplace : sectorSize * (ino.start + o / 512) + o % 512 = sectorSize * ino.start + o := by
    rw [sectorSize]
    omega
  have hgo : ¬ ((chunk len n o : ℕ) : ℤ) ≤ 0 := by omega
  have hn' : (n : ℤ) - (chunk len n o : ℕ) = (n - chunk len n o : ℕ) := by omega
  have hlen : ((buffer.drop w).take (chunk len n o)).length = chunk len n o := by
    rw [List.length_take, List.length_drop]
    omega
  rw [writeLoop, if_pos (by omega)]
  simp only [hsector, hsize, if_neg hgo, hn', ← Int.natCast_add, sectorOfs_natCast, hread,
    Int.toNat_natCast, Device.blockWrite_of_lt hlt]
  by_cases hfull : o % 512 = 0 ∧ chunk len n o = 512
  · have hfull' : ((o % 512 : ℕ) : ℤ) = 0 ∧ ((chunk len n o : ℕ) : ℤ) = (sectorSize : ℕ) := by
      rw [sectorSize]
      omega
    rw [if_pos hfull', if_pos (by simp [hfull]), ← hplace, hfull.1]
    rfl
  · have hfull' : ¬ (((o % 512 : ℕ) : ℤ) = 0 ∧ ((chunk len n o : ℕ) : ℤ) = (sectorSize : ℕ)) := by
      rw [sectorSize]
      omega
    -- a sector that is not replaced as a whole is read first
    have hpart : ((o % 512 : ℕ) : ℤ) > 0 ∨ ((chunk len n o : ℕ) : ℤ) < sectorLeft o := by
      rw [sectorLeft, sectorOfs_natCast, sectorSize]
      rw [sectorSize] at hfull'
      omega
    rw [if_neg hfull', if_pos hpart]
    cases bounce with
    | true =>
      rw [← hplace, ← Device.write_splice_sector (by rw [hlen]; exact hchunk)]
      rfl
    | false => simp [hfull, pure, Except.pure]

theorem Inode.OnDevice.write (h : ino.OnDevice dev len) (a : ℕ) (l : List UInt8) :
    ino.OnDevice (dev.write a l) len := ⟨h.length, h.bound, h.extent⟩

/-- **The loop of `inode_write_at`** ends, and writes from byte `o` on what fits into the file: all that is
given, if there is memory for the bounce buffer. -/
theorem writeLoop_eq (h : ino.OnDevice dev len) (bounce : Bool) {turns : ℕ} (hturns : n < turns)
    {buffer : List UInt8} {w : ℕ} (hbuf : w + n ≤ buffer.length) :
    ∃ m ≤ min n (len - o), (bounce = true → m = min n (len - o)) ∧
      writeLoop ino bounce buffer turns dev n o w =
        .ok (w + m, dev.write (sectorSize * ino.start + o) ((buffer.drop w).take m)) := by
  induction turns generalizing n o w dev with
  | zero => omega
  | succ turns ih =>
    by_cases hn : 0 < n
    swap
    · have hn : n = 0 := by omega
      subst hn
      exact ⟨0, by omega, by simp, by simp [writeLoop, pure, Except.pure]⟩
    by_cases ho : o < len
    swap
    · have hchunk := ino.chunkSize_nonpos (n := n) h.length (by omega : len ≤ o)
      refine ⟨0, by omega, fun _ => by omega, ?_⟩
      rw [writeLoop, if_pos (by omega)]
      simp [hchunk, pure, Except.pure]
    obtain ⟨hchunkn, hchunkl, -⟩ := chunk_le len n o
    have hpos := chunk_pos hn ho
    rw [writeLoop_step h hn ho turns hbuf]
    split
    · obtain ⟨m, hm, hall, heq⟩ := ih (n := n - chunk len n o) (o := o + chunk len n o)
        (w := w + chunk len n o) (h.write _ _) (by omega) (by omega)
      refine ⟨chunk len n o + m, by omega, fun hb => ?_, ?_⟩
      · have hm' := hall hb
        omega
      · have hlen : ((buffer.drop w).take (chunk len n o)).length = chunk len n o := by
          rw [List.length_take, List.length_drop]
          omega
        have hnext := dev.write_write_append (sectorSize * ino.start + o)
          ((buffer.drop w).take (chunk len n o)) ((buffer.drop (w + chunk len n o)).take m)
        rw [hlen] at hnext
        rw [heq, ← Nat.add_assoc (sectorSize * ino.start), hnext, List.take_add, List.drop_drop,
          Nat.add_assoc]
    · rename_i hstop
      refine ⟨0, by omega, fun hb => absurd ?_ hstop, by simp⟩
      simp [hb]

end Loops

/-! ### An array of bytes -/

section Refinement

variable {len o n : ℕ} {bounce : Bool}

/-- What `inode_read_at` returns. -/
theorem inodeReadAt_eq (h : ino.OnDevice dev len) (bounce : Bool) (n o : ℕ) :
    ∃ m ≤ min n (len - o), (bounce = true → m = min n (len - o)) ∧
      inodeReadAt dev ino bounce n o = .ok (((ino.contents dev len).drop o).take m) := by
  obtain ⟨m, hle, hm, heq⟩ := readLoop_eq (o := o) h bounce (Nat.lt_succ_self n) []
  exact ⟨m, hle, hm, heq⟩

theorem inodeReadAt_true (h : ino.OnDevice dev len) (n o : ℕ) :
    inodeReadAt dev ino true n o = .ok (((ino.contents dev len).drop o).take n) := by
  obtain ⟨m, -, hm, heq⟩ := inodeReadAt_eq h true n o
  have htake : ((ino.contents dev len).drop o).take (min n (len - o)) =
      ((ino.contents dev len).drop o).take n := by
    rw [List.take_eq_take_iff]
    simp
  rw [heq, hm rfl, htake]

/-- What `inode_write_at` does. -/
theorem inodeWriteAt_eq (h : ino.OnDevice dev len) (hdeny : ino.denyWriteCnt = 0) (bounce : Bool)
    {buffer : List UInt8} {n : ℕ} (hbuf : n ≤ buffer.length) (o : ℕ) :
    ∃ m ≤ min n (len - o), (bounce = true → m = min n (len - o)) ∧
      inodeWriteAt dev ino bounce buffer n o =
        .ok (m, dev.write (sectorSize * ino.start + o) (buffer.take m)) := by
  obtain ⟨m, hle, hm, heq⟩ := writeLoop_eq (o := o) (w := 0) h bounce (Nat.lt_succ_self n)
    (by rwa [Nat.zero_add])
  rw [Nat.zero_add, List.drop_zero] at heq
  refine ⟨m, hle, hm, ?_⟩
  rw [inodeWriteAt, if_neg (by simp [hdeny])]
  exact heq

theorem inodeWriteAt_true (h : ino.OnDevice dev len) (hdeny : ino.denyWriteCnt = 0)
    {buffer : List UInt8} {n : ℕ} (hbuf : n ≤ buffer.length) (o : ℕ) :
    inodeWriteAt dev ino true buffer n o = .ok (min n (len - o),
      dev.write (sectorSize * ino.start + o) (buffer.take (min n (len - o)))) := by
  obtain ⟨m, -, hm, heq⟩ := inodeWriteAt_eq h hdeny true hbuf o
  rw [heq, hm rfl]

/-- A write within a file changes these bytes of it. -/
theorem contents_write {l : List UInt8} (hl : o + l.length ≤ len) :
    ino.contents (dev.write (sectorSize * ino.start + o) l) len =
      splice (ino.contents dev len) o l := by
  rw [Inode.contents, Device.bytes_write, Memory.read_write_inside (by omega) (by omega),
    Nat.add_sub_cancel_left, Inode.contents]

/-- A write within a file changes no sector that is not one of its own. -/
theorem sector_write (h : ino.OnDevice dev len) {l : List UInt8} (hl : o + l.length ≤ len) {i : ℕ}
    (hi : i < ino.start ∨ ino.start + bytesToSectors len ≤ i) :
    (dev.write (sectorSize * ino.start + o) l).sector i = dev.sector i := by
  rw [bytesToSectors_natCast h.bound] at hi
  refine Memory.read_write_of_disjoint _ _ _ _ ?_
  rw [sectorSize]
  omega

/-- `file_write` for each of some chunks. -/
def fileWrites (ino : Inode) : Device → ℤ → List (List UInt8) → Except Halt (List ℕ × ℤ × Device)
  | dev, pos, [] => return ([], pos, dev)
  | dev, pos, c :: chunks => do
    let (n, pos, dev) ← fileWrite dev ino true c c.length pos
    let (ns, pos, dev) ← fileWrites ino dev pos chunks
    return (n :: ns, pos, dev)

/-- `file_read` for each of some sizes. -/
def fileReads (dev : Device) (ino : Inode) : ℤ → List ℕ → Except Halt (List (List UInt8) × ℤ)
  | pos, [] => return ([], pos)
  | pos, n :: sizes => do
    let (data, pos) ← fileRead dev ino true n pos
    let (rest, pos) ← fileReads dev ino pos sizes
    return (data :: rest, pos)

/-- Writing in chunks is writing at once. -/
theorem fileWrites_eq (h : ino.OnDevice dev len) (hdeny : ino.denyWriteCnt = 0)
    (chunks : List (List UInt8)) (o : ℕ) :
    ∃ ns : List ℕ, ns.length = chunks.length ∧ ns.sum = min chunks.flatten.length (len - o) ∧
      fileWrites ino dev o chunks = .ok (ns, (o + ns.sum : ℕ),
        dev.write (sectorSize * ino.start + o) (chunks.flatten.take ns.sum)) := by
  induction chunks generalizing dev o with
  | nil => exact ⟨[], rfl, by simp, by simp [fileWrites, pure, Except.pure]⟩
  | cons c chunks ih =>
    set m := min c.length (len - o) with hm
    have hwrite := inodeWriteAt_true h hdeny (Nat.le_refl c.length) o
    obtain ⟨ns, hlen, hsum, heq⟩ := ih (h.write (sectorSize * ino.start + o) (c.take m)) (o + m)
    refine ⟨m :: ns, by simp [hlen], ?_, ?_⟩
    · simp only [List.sum_cons, hsum, List.flatten_cons, List.length_append]
      omega
    · have htake : (c ++ chunks.flatten).take (m + ns.sum) = c.take m ++ chunks.flatten.take ns.sum := by
        -- a later chunk is written only if this one was written as a whole
        obtain hfull | hzero : m = c.length ∨ ns.sum = 0 := by omega
        · rw [hfull, List.take_length_add_append, List.take_length]
        · rw [hzero, Nat.add_zero, List.take_append_of_le_length (by omega), List.take_zero,
            List.append_nil]
      have hnext := dev.write_write_append (sectorSize * ino.start + o) (c.take m)
        (chunks.flatten.take ns.sum)
      rw [List.length_take, Nat.min_eq_left (by omega)] at hnext
      have hpos : (o : ℤ) + (m : ℕ) = (o + m : ℕ) := rfl
      simp only [fileWrites, fileWrite, hwrite, ← hm, bind, Except.bind, pure, Except.pure, hpos, heq]
      rw [List.sum_cons, List.flatten_cons, htake, ← hnext, Nat.add_assoc, Nat.add_assoc]

/-- Reading in chunks is reading at once. -/
theorem fileReads_eq (h : ino.OnDevice dev len) (sizes : List ℕ) (o : ℕ) :
    ∃ data : List (List UInt8), data.length = sizes.length ∧
      data.flatten = ((ino.contents dev len).drop o).take sizes.sum ∧
      fileReads dev ino o sizes = .ok (data, (o + data.flatten.length : ℕ)) := by
  induction sizes generalizing o with
  | nil => exact ⟨[], rfl, by simp, rfl⟩
  | cons n sizes ih =>
    set first := ((ino.contents dev len).drop o).take n with hfirst
    obtain ⟨data, hlen, hflat, heq⟩ := ih (o + first.length)
    refine ⟨first :: data, by simp [hlen], ?_, ?_⟩
    · have hskip : (ino.contents dev len).drop (o + first.length) =
          ((ino.contents dev len).drop o).drop n := by
        rw [← List.drop_drop, List.drop_eq_drop_iff]
        simp [hfirst]
      rw [List.flatten_cons, List.sum_cons, hflat, hskip, hfirst, ← List.take_add]
    · have hpos : (o : ℤ) + (first.length : ℕ) = (o + first.length : ℕ) := rfl
      simp only [fileReads, fileRead, inodeReadAt_true h, ← hfirst, bind, Except.bind, pure,
        Except.pure, hpos, heq]
      rw [List.flatten_cons, List.length_append, Nat.add_assoc]

/-- **An inode is an array of `len` bytes**, as long as there is memory for the bounce buffers. -/
structure Inode.Refines (ino : Inode) (dev : Device) (len : ℕ) : Prop where
  -- what is written goes to these bytes, and nowhere else
  write : ∀ (buffer : List UInt8) (size offset : ℤ), 0 ≤ size → size ≤ buffer.length → 0 ≤ offset →
    ∃ (n : ℕ) (dev' : Device), inodeWriteAt dev ino true buffer size offset = .ok (n, dev') ∧
      (n : ℤ) = (if ino.denyWriteCnt ≠ 0 then 0 else min size (max 0 (len - offset))) ∧
      (∀ i < len, (ino.contents dev' len)[i]? =
        if offset ≤ i ∧ i < offset + n then buffer[i - offset.toNat]? else (ino.contents dev len)[i]?) ∧
      ∀ i, i < ino.start ∨ ino.start + bytesToSectors len ≤ i → dev'.sector i = dev.sector i
  -- what is read are these bytes
  read : ∀ size offset : ℤ, 0 ≤ size → 0 ≤ offset →
    ∃ data : List UInt8, inodeReadAt dev ino true size offset = .ok data ∧
      (data.length : ℤ) = min size (max 0 (len - offset)) ∧
      ∀ i < data.length, data[i]? = (ino.contents dev len)[offset.toNat + i]?
  -- the position moves on by what has been transferred
  fileRead : ∀ size pos : ℤ, 0 ≤ size → 0 ≤ pos →
    ∃ data : List UInt8, inodeReadAt dev ino true size pos = .ok data ∧
      Filesys.fileRead dev ino true size pos = .ok (data, pos + data.length)
  fileWrite : ∀ (buffer : List UInt8) (size pos : ℤ), 0 ≤ size → size ≤ buffer.length → 0 ≤ pos →
    ∃ (n : ℕ) (dev' : Device), inodeWriteAt dev ino true buffer size pos = .ok (n, dev') ∧
      Filesys.fileWrite dev ino true buffer size pos = .ok (n, pos + n, dev')
  -- what has been written in chunks is read back in any other chunks
  chunks : ∀ (chunks : List (List UInt8)) (sizes : List ℕ) (pos : ℕ), ino.denyWriteCnt = 0 →
    ∃ (ns : List ℕ) (dev' : Device), fileWrites ino dev pos chunks = .ok (ns, (pos + ns.sum : ℕ), dev') ∧
      ns.sum = min chunks.flatten.length (len - pos) ∧
      ∃ data : List (List UInt8),
        fileReads dev' ino pos sizes = .ok (data, (pos + data.flatten.length : ℕ)) ∧
        (sizes.sum ≤ ns.sum → data.flatten = chunks.flatten.take sizes.sum)

/-- A write does what is said of it, also if writes are denied. -/
theorem Inode.OnDevice.refines_write (h : ino.OnDevice dev len) {buffer : List UInt8} {n : ℕ}
    (hbuf : n ≤ buffer.length) (o : ℕ) :
    ∃ (m : ℕ) (dev' : Device), inodeWriteAt dev ino true buffer n o = .ok (m, dev') ∧
      m = (if ino.denyWriteCnt ≠ 0 then 0 else min n (len - o)) ∧
      dev' = dev.write (sectorSize * ino.start + o) (buffer.take m) := by
  by_cases hdeny : ino.denyWriteCnt = 0
  · exact ⟨_, _, inodeWriteAt_true h hdeny hbuf o, by simp [hdeny], rfl⟩
  · refine ⟨0, dev, ?_, by simp [hdeny], by simp⟩
    rw [inodeWriteAt, if_pos hdeny]
    rfl

/-- **Inode I/O refines a byte array**, for every inode whose data lie on the device. -/
theorem inode_refines {ino : Inode} {dev : Device} {len : ℕ} (h : ino.OnDevice dev len) :
    ino.Refines dev len := by
  constructor
  case write =>
    intro buffer size offset hsize hbuf hoffset
    obtain ⟨n, rfl⟩ := Int.eq_ofNat_of_zero_le hsize
    obtain ⟨o, rfl⟩ := Int.eq_ofNat_of_zero_le hoffset
    obtain ⟨m, dev', heq, hm, rfl⟩ := h.refines_write (by omega : n ≤ buffer.length) o
    have hle : m ≤ min n (len - o) := by
      split at hm <;> omega
    have hlen : (buffer.take m).length = m := by
      rw [List.length_take]
      omega
    refine ⟨m, _, heq, ?_, fun i hi => ?_, fun i hi => ?_⟩
    · split at hm <;> split <;> omega
    · by_cases ho : o + m ≤ len
      · rw [contents_write (by omega), getElem?_splice (by simp; omega), hlen, Int.toNat_natCast]
        by_cases hin : o ≤ i ∧ i < o + m
        · rw [if_pos hin, if_pos (by omega), List.getElem?_take_of_lt (by omega)]
        · rw [if_neg hin, if_neg (by omega)]
      · have hm0 : m = 0 := by omega
        subst hm0
        rw [if_neg (by omega), List.take_zero, Device.write_nil]
    · by_cases ho : o + m ≤ len
      · exact sector_write h (by omega) hi
      · have hm0 : m = 0 := by omega
        subst hm0
        rw [List.take_zero, Device.write_nil]
  case read =>
    intro size offset hsize hoffset
    obtain ⟨n, rfl⟩ := Int.eq_ofNat_of_zero_le hsize
    obtain ⟨o, rfl⟩ := Int.eq_ofNat_of_zero_le hoffset
    refine ⟨_, inodeReadAt_true h n o, ?_, fun i hi => ?_⟩
    · simp only [List.length_take, List.length_drop, Inode.length_contents]
      omega
    · rw [List.length_take] at hi
      rw [List.getElem?_take_of_lt (by omega), List.getElem?_drop, Int.toNat_natCast]
  case fileRead =>
    intro size pos hsize hpos
    obtain ⟨n, rfl⟩ := Int.eq_ofNat_of_zero_le hsize
    obtain ⟨o, rfl⟩ := Int.eq_ofNat_of_zero_le hpos
    refine ⟨_, inodeReadAt_true h n o, ?_⟩
    rw [Filesys.fileRead, inodeReadAt_true h n o]
    rfl
  case fileWrite =>
    intro buffer size pos hsize hbuf hpos
    obtain ⟨n, rfl⟩ := Int.eq_ofNat_of_zero_le hsize
    obtain ⟨o, rfl⟩ := Int.eq_ofNat_of_zero_le hpos
    obtain ⟨m, dev', heq, -, -⟩ := h.refines_write (by omega : n ≤ buffer.length) o
    refine ⟨m, dev', heq, ?_⟩
    rw [Filesys.fileWrite, heq]
    rfl
  case chunks =>
    intro chunks sizes pos hdeny
    obtain ⟨ns, -, hsum, hwrites⟩ := fileWrites_eq h hdeny chunks pos
    set dev' := dev.write (sectorSize * ino.start + pos) (chunks.flatten.take ns.sum) with hdev
    obtain ⟨data, -, hflat, hreads⟩ := fileReads_eq (show ino.OnDevice dev' len from h.write _ _) sizes pos
    refine ⟨ns, dev', hwrites, hsum, data, hreads, fun hle => ?_⟩
    have hlen : (chunks.flatten.take ns.sum).length = ns.sum := by
      rw [List.length_take]
      omega
    by_cases hpos : pos + ns.sum ≤ len
    · rw [hflat, hdev, contents_write (by omega), drop_splice (by simp; omega),
        List.take_append_of_le_length (by omega), List.take_take, Nat.min_eq_left hle]
    · have hzero : sizes.sum = 0 := by omega
      rw [hflat, hzero, List.take_zero, List.take_zero]

/-- Four sectors of zeroes. -/
def blankDevice : Device := ⟨4, fun _ => 0, by decide⟩

/-- A file that ends in the middle of its second sector. -/
def shortInode : Inode := ⟨0, 1, false, 0, 1, 600⟩

theorem inode_refines_short : shortInode.OnDevice blankDevice 600 ∧ shortInode.Refines blankDevice 600 :=
  have h : shortInode.OnDevice blankDevice 600 := ⟨rfl, by decide, by decide⟩
  ⟨h, inode_refines h⟩

end Refinement

end Filesys
end Pintos

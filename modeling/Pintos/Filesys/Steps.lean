import Pintos.Filesys.Filesys

/-!
# What the functions of the file system do

For each function on an open inode an equation, or a rule for `Ensures`: reading and writing, and the scans of
a directory.

* `Fs.Opened` — an inode is open, and its data lie on the device;
* `readInode_eq`, `writeInode_eq` — a transfer, complete unless there is no memory for the bounce buffer;
* `lookup_eq`, `freeEntryLoop_eq` — the first entry of a directory with some property.
-/

namespace Pintos
namespace Filesys

open Pintos.Action

/-! ### Memory -/

namespace Fs

/-- The state after `k` allocations. -/
def alloc (fs : Fs) (k : ℕ) : Fs := { fs with heap := fs.heap.drop k }

variable (fs : Fs) (j k : ℕ)

@[simp] theorem alloc_dev : (fs.alloc k).dev = fs.dev := rfl
@[simp] theorem alloc_alloc : (fs.alloc j).alloc k = fs.alloc (j + k) := by
  simp [alloc, List.drop_drop]

/-- The first allocation succeeds. -/
def HasMemory : Prop := fs.heap.headD true = true

theorem alloc_of_nil {fs : Fs} (h : fs.heap = []) (k : ℕ) : fs.alloc k = fs := by
  obtain ⟨dev, freeMap, freeMapFile, openInodes, heap⟩ := fs
  subst h
  simp [alloc]

theorem hasMemory_of_nil {fs : Fs} (h : fs.heap = []) : fs.HasMemory := by
  simp [HasMemory, h]

end Fs

theorem malloc_eq (fs : Fs) : malloc fs = .ok (fs.heap.headD true, fs.alloc 1) := by
  obtain ⟨dev, freeMap, freeMapFile, openInodes, heap⟩ := fs
  cases heap <;> rfl

/-! ### Reading and writing -/

/-- The inode with this sector is open, and its `len` bytes lie on the device. -/
structure Fs.Opened (fs : Fs) (sector : ℕ) (ino : Inode) (len : ℕ) : Prop where
  get : Keyed.get Inode.sector sector fs.openInodes = some ino
  onDevice : ino.OnDevice fs.dev len

section Transfer

variable {fs : Fs} {sector len : ℕ} {ino : Inode}

theorem getInode_eq (h : Keyed.get Inode.sector sector fs.openInodes = some ino) :
    getInode sector fs = .ok (ino, fs) := by
  simp only [getInode, h]

theorem allows_getInode (fs : Fs) (sector : ℕ) :
    Allows (getInode sector) fs fun ino fs' =>
      fs' = fs ∧ Keyed.get Inode.sector sector fs.openInodes = some ino := by
  intro ino fs' heq
  rw [getInode] at heq
  split at heq
  · cases heq
    exact ⟨rfl, ‹_›⟩
  · cases heq

theorem Fs.Opened.alloc (h : fs.Opened sector ino len) (k : ℕ) : (fs.alloc k).Opened sector ino len :=
  ⟨h.get, h.onDevice⟩

/-- **Reading.** -/
theorem readInode_eq (h : fs.Opened sector ino len) (n o : ℕ) :
    ∃ m ≤ min n (len - o), (fs.HasMemory → m = min n (len - o)) ∧
      readInode sector n o fs = .ok (((ino.contents fs.dev len).drop o).take m, fs.alloc 1) := by
  obtain ⟨m, hle, hm, heq⟩ := inodeReadAt_eq h.onDevice (fs.heap.headD true) n o
  refine ⟨m, hle, hm, ?_⟩
  rw [readInode, bind_of_ok (getInode_eq h.get), bind_of_ok (malloc_eq fs), bind_of_ok get_apply]
  exact lift_apply heq

/-- Something is written to the data of an inode. -/
def Fs.written (fs : Fs) (ino : Inode) (o : ℕ) (l : List UInt8) : Fs :=
  { fs with dev := fs.dev.write (sectorSize * ino.start + o) l }

@[simp] theorem Fs.written_nil (ino : Inode) (o : ℕ) : fs.written ino o [] = fs := by
  simp [Fs.written]

/-- **Writing.** -/
theorem writeInode_eq (h : fs.Opened sector ino len) (hdeny : ino.denyWriteCnt = 0)
    {buffer : List UInt8} {n : ℕ} (hbuf : n ≤ buffer.length) (o : ℕ) :
    ∃ m ≤ min n (len - o), (fs.HasMemory → m = min n (len - o)) ∧
      writeInode sector buffer n o fs = .ok (m, (fs.alloc 1).written ino o (buffer.take m)) := by
  obtain ⟨m, hle, hm, heq⟩ := inodeWriteAt_eq h.onDevice hdeny (fs.heap.headD true) hbuf o
  refine ⟨m, hle, hm, ?_⟩
  rw [writeInode, bind_of_ok (getInode_eq h.get), bind_of_ok (malloc_eq fs), bind_of_ok get_apply,
    Fs.alloc_dev, bind_of_ok (lift_apply heq)]
  rfl

/-- Writing is denied. -/
theorem writeInode_denied (h : Keyed.get Inode.sector sector fs.openInodes = some ino)
    (hdeny : ino.denyWriteCnt ≠ 0) (buffer : List UInt8) (size offset : ℤ) :
    writeInode sector buffer size offset fs = .ok (0, fs.alloc 1) := by
  have heq : inodeWriteAt (fs.alloc 1).dev ino (fs.heap.headD true) buffer size offset =
      .ok (0, (fs.alloc 1).dev) := by
    rw [inodeWriteAt, if_pos hdeny]
    rfl
  rw [writeInode, bind_of_ok (getInode_eq h), bind_of_ok (malloc_eq fs), bind_of_ok get_apply,
    bind_of_ok (lift_apply heq)]
  rfl

theorem Fs.Opened.written {ino' : Inode} (h : fs.Opened sector ino len) (o : ℕ) (l : List UInt8) :
    (fs.written ino' o l).Opened sector ino len :=
  ⟨h.get, h.onDevice.write _ _⟩

end Transfer

/-- A block is read. -/
theorem readBlock_eq {fs : Fs} {i : ℕ} (h : i < fs.dev.size) :
    readBlock i fs = .ok (fs.dev.sector i, fs) := by
  rw [readBlock, bind_of_ok get_apply]
  exact lift_apply (Device.blockRead_of_lt h)

theorem allows_readBlock (fs : Fs) (i : ℕ) :
    Allows (readBlock i) fs fun data fs' => i < fs.dev.size ∧ data = fs.dev.sector i ∧ fs' = fs := by
  by_cases hi : i < fs.dev.size
  · exact .of_ensures (.of_eq (readBlock_eq hi) ⟨hi, rfl, rfl⟩)
  · rw [readBlock]
    refine .get_bind ?_
    rw [Device.blockRead, if_pos (by omega)]
    exact .throw _

/-! ### Opening and closing -/

section Inodes

variable {fs : Fs} {sector : ℕ} {ino : Inode}

/-- The open inodes are changed. -/
def Fs.setInodes (fs : Fs) (inodes : List Inode) : Fs := { fs with openInodes := inodes }

theorem inodeOpen_of_open (h : Keyed.get Inode.sector sector fs.openInodes = some ino) :
    inodeOpen sector fs = .ok (some sector,
      fs.setInodes (Keyed.put Inode.sector { ino with openCnt := ino.openCnt + 1 } fs.openInodes)) := by
  rw [inodeOpen, bind_of_ok get_apply, h]
  rfl

theorem inodeOpen_of_closed (h : Keyed.get Inode.sector sector fs.openInodes = none) (hmem : fs.HasMemory)
    (hsector : sector < fs.dev.size) :
    inodeOpen sector fs = .ok (some sector,
      (fs.alloc 1).setInodes (.ofDisk sector (fs.dev.sector sector) :: fs.openInodes)) := by
  rw [inodeOpen, bind_of_ok get_apply, h]
  simp only [bind_of_ok (malloc_eq fs), show fs.heap.headD true = true from hmem]
  have hread : readBlock sector (fs.alloc 1) = _ := readBlock_eq hsector
  exact bind_of_ok hread

theorem inodeRemove_eq (h : Keyed.get Inode.sector sector fs.openInodes = some ino) :
    inodeRemove sector fs =
      .ok ((), fs.setInodes (Keyed.put Inode.sector { ino with removed := true } fs.openInodes)) := by
  rw [inodeRemove, bind_of_ok (getInode_eq h)]
  rfl

theorem inodeClose_of_not_last (h : Keyed.get Inode.sector sector fs.openInodes = some ino)
    (hcnt : ino.openCnt ≠ 1) :
    inodeClose (some sector) fs = .ok ((),
      fs.setInodes (Keyed.put Inode.sector { ino with openCnt := ino.openCnt - 1 } fs.openInodes)) := by
  rw [inodeClose, bind_of_ok (getInode_eq h), if_neg hcnt]
  rfl

/-- The last pointer to an inode is closed; if it has been removed, its sectors are given back. -/
theorem inodeClose_of_last (h : Keyed.get Inode.sector sector fs.openInodes = some ino)
    (hcnt : ino.openCnt = 1) :
    inodeClose (some sector) fs = (do
      if ino.removed then
        freeMapRelease sector 1
        freeMapRelease ino.start (bytesToSectors ino.length) : Op Unit)
      (fs.setInodes (Keyed.erase Inode.sector sector fs.openInodes)) := by
  rw [inodeClose, bind_of_ok (getInode_eq h), if_pos hcnt]
  rfl

end Inodes

/-! ### The free map -/

/-- Some sectors are marked as used. -/
def AllUsed (b : List Bool) (start cnt : ℕ) : Prop :=
  start + cnt ≤ b.length ∧ ((b.drop start).take cnt).all id = true

theorem allUsed_iff {b : List Bool} {start cnt : ℕ} :
    AllUsed b start cnt ↔ start + cnt ≤ b.length ∧ ∀ i, start ≤ i → i < start + cnt → b[i]? = some true := by
  refine and_congr_right fun hle => ?_
  rw [List.all_eq_true]
  have hget : ∀ k < cnt, ((b.drop start).take cnt)[k]? = b[start + k]? := fun k hk => by
    rw [List.getElem?_take_of_lt hk, List.getElem?_drop]
  constructor
  · intro h i hlo hhi
    have hi : b[i]? = some b[i] := List.getElem?_eq_getElem (by omega)
    have hk := hget (i - start) (by omega)
    rw [Nat.add_sub_cancel' hlo, hi] at hk
    have htrue : b[i] = true := h _ (List.mem_of_getElem? hk)
    rw [hi, htrue]
  · intro h x hx
    obtain ⟨k, hk⟩ := List.mem_iff_getElem?.mp hx
    have hlt : k < cnt := by
      have hlen := (List.getElem?_eq_some_iff.mp hk).1
      rw [List.length_take] at hlen
      omega
    rw [hget k hlt, h (start + k) (by omega) (by omega)] at hk
    exact (Option.some.inj hk).symm

/-- Sectors are marked. -/
theorem getElem?_setMultiple {b : List Bool} {start cnt : ℕ} (h : start + cnt ≤ b.length) (value : Bool)
    (i : ℕ) :
    (setMultiple b start cnt value)[i]? = if start ≤ i ∧ i < start + cnt then some value else b[i]? := by
  rw [setMultiple, getElem?_splice (by rwa [List.length_replicate]), List.length_replicate]
  split
  · rw [List.getElem?_replicate, if_pos (by omega)]
  · rfl

theorem length_setMultiple {b : List Bool} {start cnt : ℕ} (h : start + cnt ≤ b.length) (value : Bool) :
    (setMultiple b start cnt value).length = b.length := by
  rw [setMultiple, length_splice (by rwa [List.length_replicate])]

/-- What is marked elsewhere stays. -/
theorem AllUsed.setMultiple {b : List Bool} {start cnt start' cnt' : ℕ} (h : AllUsed b start cnt)
    (hle : start' + cnt' ≤ b.length) (hapart : start + cnt ≤ start' ∨ start' + cnt' ≤ start) (value : Bool) :
    AllUsed (setMultiple b start' cnt' value) start cnt := by
  rw [allUsed_iff] at h ⊢
  refine ⟨by rw [length_setMultiple hle]; exact h.1, fun i hlo hhi => ?_⟩
  rw [getElem?_setMultiple hle, if_neg (by omega)]
  exact h.2 i hlo hhi

theorem length_bitmapBytes (b : List Bool) : (bitmapBytes b).length = byteCnt b.length := by
  simp [bitmapBytes]

theorem testBit_foldr (l : List Bool) (k : ℕ) :
    (l.foldr (fun (bit : Bool) n => bit.toNat + 2 * n) 0).testBit k = l.getD k false := by
  induction l generalizing k with
  | nil => simp
  | cons bit l ih =>
    cases k with
    | zero => cases bit <;> simp
    | succ k =>
      have hhalf (n : ℕ) : (bit.toNat + 2 * n) / 2 = n := by
        have := bit.toNat_lt
        omega
      simpa [Nat.testBit_succ, hhalf] using ih k

/-- **Writing the free map**: a part of it, unless there is memory. -/
theorem freeMapWrite_eq {fs : Fs} {file : File} {ino : Inode} {len : ℕ} (hfile : fs.freeMapFile = some file)
    (h : fs.Opened file.inode ino len) :
    ∃ m ≤ min (byteCnt fs.freeMap.length) len,
      (fs.HasMemory → ino.denyWriteCnt = 0 → m = min (byteCnt fs.freeMap.length) len) ∧
      freeMapWrite fs = .ok (decide (m = byteCnt fs.freeMap.length),
        (fs.alloc 1).written ino 0 ((bitmapBytes fs.freeMap).take m)) := by
  rw [freeMapWrite, bind_of_ok get_apply, hfile]
  by_cases hdeny : ino.denyWriteCnt = 0
  · obtain ⟨m, hle, hm, heq⟩ := writeInode_eq h hdeny (Nat.le_of_eq (length_bitmapBytes fs.freeMap).symm) 0
    rw [Nat.sub_zero] at hle hm
    exact ⟨m, hle, fun hmem _ => hm hmem, bind_of_ok heq⟩
  · refine ⟨0, Nat.zero_le _, fun _ h0 => absurd h0 hdeny, ?_⟩
    rw [List.take_zero, Fs.written_nil]
    exact bind_of_ok (writeInode_denied h.get hdeny _ _ _)

/-- Sectors are given back. -/
theorem freeMapRelease_eq {fs : Fs} {sector cnt : ℕ} (h : AllUsed fs.freeMap sector cnt) :
    freeMapRelease sector cnt fs = (freeMapWrite >>= fun _ => pure () : Op Unit)
      { fs with freeMap := setMultiple fs.freeMap sector cnt false } := by
  unfold AllUsed at h
  rw [freeMapRelease, bind_of_ok get_apply, if_neg (not_not_intro h)]
  rfl

/-! ### Entries -/

/-- Entry `j` of a directory with these bytes. -/
def entryAt (c : List UInt8) (j : ℕ) : List UInt8 := (c.drop (entrySize * j)).take entrySize

/-- The first entry from `i` on that has a property, out of `n`. -/
def firstEntry (c : List UInt8) (n : ℕ) (p : List UInt8 → Bool) (i : ℕ) : Option ℕ :=
  (List.range' i (n - i)).find? fun j => p (entryAt c j)

section Entries

variable {c : List UInt8} {n i j : ℕ} {p : List UInt8 → Bool}

theorem length_entryAt (hc : c.length = entrySize * n) (hj : j < n) :
    (entryAt c j).length = entrySize := by
  rw [entryAt, List.length_take, List.length_drop, hc, entrySize]
  omega

theorem firstEntry_of_le (h : n ≤ i) : firstEntry c n p i = none := by
  simp [firstEntry, Nat.sub_eq_zero_of_le h]

theorem firstEntry_step (h : i < n) :
    firstEntry c n p i = if p (entryAt c i) then some i else firstEntry c n p (i + 1) := by
  have hrange : List.range' i (n - i) = i :: List.range' (i + 1) (n - (i + 1)) := by
    obtain ⟨k, rfl⟩ := Nat.exists_eq_add_of_lt h
    rw [show i + k + 1 - i = k + 1 by omega, show i + k + 1 - (i + 1) = k by omega, List.range'_succ]
  rw [firstEntry, hrange, List.find?_cons]
  cases p (entryAt c i) <;> rfl

theorem firstEntry_eq_some (h : firstEntry c n p i = some j) : j < n ∧ p (entryAt c j) = true := by
  have hmem := List.mem_of_find?_eq_some h
  rw [List.mem_range'_1] at hmem
  have hp : p (entryAt c j) = true := by simpa using List.find?_some h
  exact ⟨by omega, hp⟩

theorem firstEntry_eq_none : firstEntry c n p 0 = none ↔ ∀ j < n, p (entryAt c j) = false := by
  simp [firstEntry]

end Entries

/-! ### Scans -/

section Scans

variable {fs : Fs} {dir n : ℕ} {ino : Inode}

/-- An entry is read, or nothing. -/
theorem readEntry_eq (h : fs.Opened dir ino (entrySize * n)) (i : ℕ) :
    ∃ e, readInode dir entrySize (entrySize * i : ℕ) fs = .ok (e, fs.alloc 1) ∧ e.length ≤ entrySize ∧
      (e.length = entrySize → i < n ∧ e = entryAt (ino.contents fs.dev (entrySize * n)) i) ∧
      (fs.HasMemory → (e.length = entrySize ↔ i < n)) := by
  obtain ⟨m, hle, hm, heq⟩ := readInode_eq h entrySize (entrySize * i)
  have hlen : (((ino.contents fs.dev (entrySize * n)).drop (entrySize * i)).take m).length = m := by
    rw [List.length_take, List.length_drop, Inode.length_contents]
    omega
  refine ⟨_, heq, by omega, fun hfull => ?_, fun hmem => ?_⟩
  · rw [hlen] at hfull
    subst hfull
    refine ⟨?_, rfl⟩
    rw [entrySize] at hle
    omega
  · rw [hlen, hm hmem, entrySize]
    omega

/-- The loop of `lookup` finds an entry with this name: the first one, if there is memory. -/
theorem lookupLoop_eq (h : fs.Opened dir ino (entrySize * n)) (name : CStr) (turns i : ℕ) (hi : i ≤ n)
    (hturns : n < turns + i) :
    ∃ r k, lookupLoop dir name turns (entrySize * i) fs = .ok (r, fs.alloc k) ∧
      (∀ e ofs, r = some (e, ofs) → ∃ j < n, ofs = entrySize * j ∧
        e = entryAt (ino.contents fs.dev (entrySize * n)) j ∧ entryNamed e name = true) ∧
      (fs.heap = [] → r = (firstEntry (ino.contents fs.dev (entrySize * n)) n (entryNamed · name) i).map
        fun j => (entryAt (ino.contents fs.dev (entrySize * n)) j, entrySize * j)) := by
  induction turns generalizing fs i with
  | zero => omega
  | succ turns ih =>
    obtain ⟨e, hread, -, hfull, hmem⟩ := readEntry_eq h i
    rw [lookupLoop, bind_of_ok hread]
    by_cases hlen : e.length = entrySize
    swap
    · -- the end of the directory, or no memory
      rw [if_pos hlen]
      refine ⟨none, 1, rfl, by simp, fun hheap => ?_⟩
      have hge : n ≤ i := by
        have hiff := hmem (Fs.hasMemory_of_nil hheap)
        omega
      rw [firstEntry_of_le hge]
      rfl
    rw [if_neg (not_not_intro hlen)]
    obtain ⟨hlt, rfl⟩ := hfull hlen
    rw [firstEntry_step hlt]
    cases hnamed : entryNamed (entryAt (ino.contents fs.dev (entrySize * n)) i) name with
    | true =>
      refine ⟨_, 1, rfl, ?_, fun _ => rfl⟩
      rintro e ofs heq
      cases heq
      exact ⟨i, hlt, rfl, rfl, hnamed⟩
    | false =>
      obtain ⟨r, k, heq, hsome, hfirst⟩ := ih (h.alloc 1) (i + 1) hlt (by omega)
      refine ⟨r, 1 + k, ?_, hsome, fun hheap => ?_⟩
      · rw [← Fs.alloc_alloc, ← heq]
        rfl
      · exact hfirst (by rw [Fs.alloc_of_nil hheap, hheap])

/-- The loop that looks for a free entry ends at one, at the end of the directory, or where memory runs out. -/
theorem freeEntryLoop_eq (h : fs.Opened dir ino (entrySize * n)) (turns i : ℕ) (hi : i ≤ n)
    (hturns : n < turns + i) {buffer : List UInt8} (hbuf : buffer.length = entrySize) :
    ∃ e j k, freeEntryLoop dir turns (entrySize * i) buffer fs = .ok ((e, entrySize * j), fs.alloc k) ∧
      j ≤ n ∧ e.length = entrySize ∧
      (fs.heap = [] → j = (firstEntry (ino.contents fs.dev (entrySize * n)) n (!entryInUse ·) i).getD n) := by
  induction turns generalizing fs i buffer with
  | zero => omega
  | succ turns ih =>
    obtain ⟨e, hread, hle, hfull, hmem⟩ := readEntry_eq h i
    rw [freeEntryLoop, bind_of_ok hread]
    by_cases hlen : e.length = entrySize
    swap
    · rw [if_pos hlen]
      refine ⟨_, i, 1, rfl, hi, ?_, fun hheap => ?_⟩
      · rw [length_splice (by omega), hbuf]
      · have hge : n ≤ i := by
          have hiff := hmem (Fs.hasMemory_of_nil hheap)
          omega
        rw [firstEntry_of_le hge]
        exact Nat.le_antisymm hi hge
    rw [if_neg (not_not_intro hlen)]
    obtain ⟨hlt, rfl⟩ := hfull hlen
    rw [firstEntry_step hlt]
    cases huse : entryInUse (entryAt (ino.contents fs.dev (entrySize * n)) i) with
    | false => exact ⟨_, i, 1, rfl, hi, hlen, fun _ => rfl⟩
    | true =>
      obtain ⟨e, j, k, heq, hj, hlen', hfirst⟩ := ih (h.alloc 1) (i + 1) hlt (by omega) hlen
      refine ⟨e, j, 1 + k, ?_, hj, hlen', fun hheap => ?_⟩
      · rw [← Fs.alloc_alloc, ← heq]
        rfl
      · exact hfirst (by rw [Fs.alloc_of_nil hheap, hheap])

end Scans

end Filesys
end Pintos

import Pintos.Filesys.Steps

/-!
# The root directory

A directory is a file of 16 records of 20 bytes. `dir_add`, `dir_remove` and `dir_lookup` go through them
from the first one on. The records in use are the bindings of a finite map from names to sectors.

* `bindings` — the map, as a list;
* `Directory` — the root directory is open and well formed, and holds a map;
* `DirOp.Spec` — what each operation does to the map;
* `directory_refines` — every run of operations does just that, and a scan with `dir_readdir` goes through
  the map.
-/

namespace Pintos
namespace Filesys

open Pintos.Action

/-! ### Entries and bindings -/

/-- The number of entries of the root directory. -/
def rootEntries : ℕ := 16

/-- What an entry binds. -/
def slot (e : List UInt8) : Option (CStr × ℕ) :=
  if entryInUse e then (CStr.ofBytes (entryName e)).map (·, entrySector e) else none

/-- The entries of a directory. -/
def slots (c : List UInt8) : List (Option (CStr × ℕ)) := (List.range rootEntries).map fun j => slot (entryAt c j)

/-- The bindings of a directory. -/
def bindings (c : List UInt8) : List (CStr × ℕ) := (slots c).filterMap id

/-- The bytes of a directory are well formed: the entries in use have names of 1 to 14 characters, and no two
have the same. -/
structure WellFormed (c : List UInt8) : Prop where
  length : c.length = entrySize * rootEntries
  named : ∀ j < rootEntries, entryInUse (entryAt c j) = true →
    ∃ b, slot (entryAt c j) = some b ∧ b.1.chars ≠ [] ∧ b.1.chars.length ≤ nameMax
  distinct : ((bindings c).map Prod.fst).Nodup

section Entries

variable {c e : List UInt8} {name : CStr} {i j : ℕ}

/-- `strcmp` compares with the name that is bound. -/
theorem entryNamed_iff : entryNamed e name = true ↔ ∃ s, slot e = some (name, s) := by
  rw [entryNamed, slot, Bool.and_eq_true, decide_eq_true_iff]
  cases huse : entryInUse e with
  | false => simp
  | true =>
    simp only [true_and, if_true, Option.map_eq_some_iff, Prod.mk.injEq]
    exact ⟨fun h => ⟨_, name, h, rfl, rfl⟩, fun ⟨_, _, h, hname, _⟩ => hname ▸ h⟩

theorem slot_sector {b : CStr × ℕ} (h : slot e = some b) : b.2 = entrySector e := by
  rw [slot] at h
  split at h
  · obtain ⟨name, -, rfl⟩ := Option.map_eq_some_iff.mp h
    rfl
  · cases h

theorem slot_of_not_inUse (h : entryInUse e = false) : slot e = none := by
  rw [slot, h]
  rfl

/-- The entry that `dir_add` writes binds the name to the sector. -/
theorem newEntry_eq {s : ℕ} (he : e.length = entrySize) (hname : name.chars.length ≤ nameMax)
    (hs : s < 2 ^ 32) :
    ∃ e', newEntry e name s = some e' ∧ e'.length = entrySize ∧ entryInUse e' = true ∧
      slot e' = some (name, s) := by
  have hlen : (entryName e).length = nameMax + 1 := by
    rw [entryName, List.length_take, List.length_drop, he]
    decide
  obtain ⟨rest, heq, hrest⟩ := strlcpy_eq (entryName e) name (nameMax + 1) (by decide)
    (Nat.le_of_eq hlen.symm)
  have htake : name.take (nameMax + 1 - 1) = name := by
    ext1
    exact List.take_of_length_le hname
  rw [htake] at heq hrest
  rw [hlen] at hrest
  set buffer := name.chars ++ 0 :: rest with hbuffer
  have hsector : (leBytes 4 s).length = 4 := length_leBytes 4 s
  have hname' : entryName (leBytes 4 s ++ buffer ++ [1]) = buffer := by
    rw [entryName, List.append_assoc, List.drop_left' hsector, List.take_left' hrest]
  have huse : entryInUse (leBytes 4 s ++ buffer ++ [1]) = true := by
    have hget : (leBytes 4 s ++ buffer ++ [1]).getD 19 0 = 1 := by
      rw [List.getD_append_right _ _ _ _ (by simp [hsector, hrest, nameMax])]
      simp [hsector, hrest, nameMax]
    rw [entryInUse, hget]
    decide
  refine ⟨leBytes 4 s ++ buffer ++ [1], ?_, ?_, huse, ?_⟩
  · rw [newEntry, heq]
    rfl
  · simp [hsector, hrest, nameMax, entrySize]
  · have hsec : entrySector (leBytes 4 s ++ buffer ++ [1]) = s := by
      rw [entrySector, List.append_assoc, List.take_left' hsector]
      exact ofLeBytes_leBytes_of_lt (by omega)
    rw [slot, if_pos huse, hname', hbuffer, CStr.ofBytes_append, hsec]
    rfl

/-- The entry that `dir_remove` writes binds nothing. -/
theorem freedEntry_eq (he : e.length = entrySize) :
    (freedEntry e).length = entrySize ∧ entryInUse (freedEntry e) = false := by
  refine ⟨?_, ?_⟩
  · rw [freedEntry, length_splice (by rw [he]; decide), he]
  · have hget : (freedEntry e).getD 19 0 = 0 := by
      rw [List.getD_eq_getElem?_getD, freedEntry, getElem?_splice (by rw [he]; decide)]
      rfl
    rw [entryInUse, hget]
    decide

theorem entry_fits (hc : c.length = entrySize * rootEntries) (hj : j < rootEntries)
    (he : e.length = entrySize) : entrySize * j + e.length ≤ c.length := by
  rw [hc, he, ← Nat.mul_succ]
  exact Nat.mul_le_mul_left entrySize hj

/-- The entries after one has been written. -/
theorem entryAt_splice (hc : c.length = entrySize * rootEntries) (hj : j < rootEntries)
    (he : e.length = entrySize) (i : ℕ) :
    entryAt (splice c (entrySize * j) e) i = if i = j then e else entryAt c i := by
  have hfit := entry_fits hc hj he
  rw [entrySize] at he hfit
  refine List.ext_getElem? fun k => ?_
  by_cases hk : k < 20
  swap
  · have hshort : ∀ c' : List UInt8, (entryAt c' i)[k]? = none := fun c' => by
      rw [entryAt, List.getElem?_take_eq_none (by rw [entrySize]; omega)]
    rw [hshort]
    split
    · rw [List.getElem?_eq_none (by omega)]
    · rw [hshort]
  · rw [entryAt, List.getElem?_take_of_lt (by rw [entrySize]; omega), List.getElem?_drop, entrySize,
      getElem?_splice hfit]
    by_cases hij : i = j
    · subst hij
      rw [if_pos rfl, if_pos (by omega), Nat.add_sub_cancel_left]
    · rw [if_neg hij, if_neg (by omega), entryAt, entrySize, List.getElem?_take_of_lt hk,
        List.getElem?_drop]

theorem slots_splice (hc : c.length = entrySize * rootEntries) (hj : j < rootEntries)
    (he : e.length = entrySize) : slots (splice c (entrySize * j) e) = (slots c).set j (slot e) := by
  refine List.ext_getElem? fun i => ?_
  rw [List.getElem?_set, slots, slots, List.getElem?_map, List.getElem?_map]
  simp only [entryAt_splice hc hj he]
  by_cases hij : j = i
  · subst hij
    simp [hj]
  · rw [if_neg hij]
    by_cases hi : i < rootEntries
    · simp [hi, Ne.symm hij]
    · simp [hi]

end Entries

/-! ### Bindings -/

section Bindings

variable {c e : List UInt8} {name : CStr} {j : ℕ}

/-- A slot that was empty is filled. -/
theorem perm_set_some {α : Type} {l : List (Option α)} {b : α} (h : l[j]? = some none) :
    ((l.set j (some b)).filterMap id).Perm (b :: l.filterMap id) := by
  obtain ⟨hj, hget⟩ := List.getElem?_eq_some_iff.mp h
  have hl : l = l.take j ++ none :: l.drop (j + 1) := by
    conv_lhs => rw [← List.take_append_drop j l, List.drop_eq_getElem_cons hj, hget]
  have hset : l.set j (some b) = l.take j ++ some b :: l.drop (j + 1) := List.set_eq_take_append_cons_drop ▸ by
    simp [hj]
  rw [hset]
  conv_rhs => rw [hl]
  simp only [List.filterMap_append, List.filterMap_cons, id]
  exact List.perm_middle

/-- A slot that was filled is emptied. -/
theorem perm_set_none {α : Type} {l : List (Option α)} {b : α} (h : l[j]? = some (some b)) :
    (l.filterMap id).Perm (b :: (l.set j none).filterMap id) := by
  obtain ⟨hj, hget⟩ := List.getElem?_eq_some_iff.mp h
  have hself : l.set j (some b) = l := by
    rw [← hget, List.set_getElem_self]
  have hempty : (l.set j none)[j]? = some none := by simp [hj]
  have hfill := perm_set_some (b := b) hempty
  rwa [List.set_set, hself] at hfill

/-- The slot of an entry. -/
theorem getElem?_slots (hj : j < rootEntries) : (slots c)[j]? = some (slot (entryAt c j)) := by
  simp [slots, hj]

theorem mem_bindings {b : CStr × ℕ} : b ∈ bindings c ↔ ∃ j < rootEntries, slot (entryAt c j) = some b := by
  simp [bindings, slots]

/-- The number of bindings is the number of entries in use. -/
theorem length_bindings_lt (h : WellFormed c) :
    (bindings c).length < rootEntries ↔ ∃ j < rootEntries, entryInUse (entryAt c j) = false := by
  have hcount : (bindings c).length = (slots c).countP Option.isSome := by
    rw [bindings, List.length_filterMap_eq_countP]
    rfl
  have hlen : (slots c).length = rootEntries := by simp [slots]
  have hall : (slots c).countP Option.isSome = (slots c).length ↔ ∀ o ∈ slots c, o.isSome = true :=
    List.countP_eq_length
  have hle : (slots c).countP Option.isSome ≤ (slots c).length := List.countP_le_length
  have hsome : (∀ o ∈ slots c, o.isSome = true) ↔
      ∀ j < rootEntries, entryInUse (entryAt c j) = true := by
    constructor
    · intro ho j hj
      by_contra huse
      have hnone := slot_of_not_inUse (Bool.not_eq_true _ ▸ huse)
      have hin := ho _ (List.mem_of_getElem? (getElem?_slots hj))
      rw [hnone] at hin
      cases hin
    · intro huse o ho
      obtain ⟨j, hj, rfl⟩ := List.mem_map.mp ho
      obtain ⟨b, hb, -⟩ := h.named j (List.mem_range.mp hj) (huse j (List.mem_range.mp hj))
      rw [hb]
      rfl
  constructor
  · intro hlt
    by_contra hno
    simp only [not_exists, not_and, Bool.not_eq_false] at hno
    have heq := hall.mpr (hsome.mpr hno)
    omega
  · rintro ⟨j, hj, huse⟩
    have hne : (slots c).countP Option.isSome ≠ (slots c).length := fun heq => by
      have htrue := hsome.mp (hall.mp heq) j hj
      rw [huse] at htrue
      cases htrue
    omega

/-- The bytes are those of a directory without entries. -/
theorem wellFormed_replicate : WellFormed (List.replicate (entrySize * rootEntries) 0) ∧
    bindings (List.replicate (entrySize * rootEntries) 0) = [] := by
  have hentry : ∀ j < rootEntries, entryInUse (entryAt (List.replicate (entrySize * rootEntries) 0) j) = false := by
    decide
  have hempty : bindings (List.replicate (entrySize * rootEntries) 0) = [] := by
    refine List.eq_nil_iff_forall_not_mem.mpr fun b hb => ?_
    obtain ⟨j, hj, hslot⟩ := mem_bindings.mp hb
    rw [slot_of_not_inUse (hentry j hj)] at hslot
    cases hslot
  refine ⟨⟨List.length_replicate .., fun j hj huse => ?_, by rw [hempty]; exact List.nodup_nil⟩, hempty⟩
  rw [hentry j hj] at huse
  cases huse

/-- A name is put into a free entry. -/
theorem WellFormed.add (h : WellFormed c) (hj : j < rootEntries) (hfree : entryInUse (entryAt c j) = false)
    {s : ℕ} (hne : name.chars ≠ []) (hname : name.chars.length ≤ nameMax)
    (hnew : ∀ s, (name, s) ∉ bindings c) (he : e.length = entrySize) (hslot : slot e = some (name, s)) :
    WellFormed (splice c (entrySize * j) e) ∧
      (bindings (splice c (entrySize * j) e)).Perm ((name, s) :: bindings c) := by
  have hperm : (bindings (splice c (entrySize * j) e)).Perm ((name, s) :: bindings c) := by
    rw [bindings, slots_splice h.length hj he, hslot]
    exact perm_set_some (by rw [getElem?_slots hj, slot_of_not_inUse hfree])
  refine ⟨⟨?_, fun i hi huse => ?_, ?_⟩, hperm⟩
  · rw [length_splice (entry_fits h.length hj he), h.length]
  · rw [entryAt_splice h.length hj he] at huse ⊢
    split at huse
    · rename_i hij
      rw [if_pos hij]
      exact ⟨(name, s), hslot, hne, hname⟩
    · rename_i hij
      rw [if_neg hij]
      exact h.named i hi huse
  · rw [(hperm.map Prod.fst).nodup_iff, List.map_cons, List.nodup_cons]
    refine ⟨fun hmem => ?_, h.distinct⟩
    obtain ⟨b, hb, rfl⟩ := List.mem_map.mp hmem
    exact hnew b.2 hb

/-- An entry in use is freed. -/
theorem WellFormed.remove (h : WellFormed c) (hj : j < rootEntries) {b : CStr × ℕ}
    (hb : slot (entryAt c j) = some b) (he : e.length = entrySize) (hfree : entryInUse e = false) :
    WellFormed (splice c (entrySize * j) e) ∧
      (bindings c).Perm (b :: bindings (splice c (entrySize * j) e)) := by
  have hperm : (bindings c).Perm (b :: bindings (splice c (entrySize * j) e)) := by
    rw [bindings, bindings, slots_splice h.length hj he, slot_of_not_inUse hfree]
    exact perm_set_none (by rw [getElem?_slots hj, hb])
  refine ⟨⟨?_, fun i hi huse => ?_, ?_⟩, hperm⟩
  · rw [length_splice (entry_fits h.length hj he), h.length]
  · rw [entryAt_splice h.length hj he] at huse ⊢
    split at huse
    · rw [hfree] at huse
      cases huse
    · rename_i hij
      rw [if_neg hij]
      exact h.named i hi huse
  · have hnodup := (hperm.map Prod.fst).nodup_iff.mp h.distinct
    rw [List.map_cons, List.nodup_cons] at hnodup
    exact hnodup.2

end Bindings

/-! ### The open root directory -/

/-- The root directory is open, with the bytes `c` from sector `start` on, and so is the free map's file,
whose `len` bytes are elsewhere, from sector `mapStart` on. `extra` is an inode that has been opened once more. All
allocations succeed. -/
structure RootedAt (fs : Fs) (start mapStart len : ℕ) (c : List UInt8) (extra : Option ℕ) : Prop where
  heap : fs.heap = []
  root : ∃ ino, fs.Opened rootDirSector ino (entrySize * rootEntries) ∧ ino.start = start ∧
    ino.denyWriteCnt = 0 ∧ (if extra = some rootDirSector then 1 else 0) < ino.openCnt
  contents : fs.dev.bytes.read (sectorSize * start) (entrySize * rootEntries) = c
  map : ∃ file ino, fs.freeMapFile = some file ∧ fs.Opened file.inode ino len ∧ ino.start = mapStart ∧
    (if extra = some file.inode then 1 else 0) < ino.openCnt
  apart : mapStart + bytesToSectors len ≤ start ∨ start + 1 ≤ mapStart

section Rooted

variable {fs : Fs} {start mapStart len : ℕ} {c : List UInt8} {extra : Option ℕ}

theorem RootedAt.forget (h : RootedAt fs start mapStart len c extra) :
    RootedAt fs start mapStart len c none := by
  obtain ⟨ino, hino, hstart, hdeny, hcnt⟩ := h.root
  obtain ⟨file, mino, hfile, hmino, hmstart, hmcnt⟩ := h.map
  refine ⟨h.heap, ⟨ino, hino, hstart, hdeny, ?_⟩, h.contents, ⟨file, mino, hfile, hmino, hmstart, ?_⟩, h.apart⟩
  · exact Nat.lt_of_le_of_lt (Nat.zero_le _) hcnt
  · exact Nat.lt_of_le_of_lt (Nat.zero_le _) hmcnt

/-- A write to the root directory. -/
theorem RootedAt.write (h : RootedAt fs start mapStart len c extra) {j : ℕ} {e : List UInt8}
    (hj : j < rootEntries) (he : e.length = entrySize) :
    ∃ fs', writeInode rootDirSector e entrySize (entrySize * j : ℕ) fs = .ok (entrySize, fs') ∧
      RootedAt fs' start mapStart len (splice c (entrySize * j) e) extra ∧
      fs'.openInodes = fs.openInodes ∧ fs'.freeMap = fs.freeMap := by
  obtain ⟨ino, hino, rfl, hdeny, hcnt⟩ := h.root
  obtain ⟨m, -, hm, heq⟩ := writeInode_eq hino hdeny (Nat.le_of_eq he.symm) (entrySize * j)
  have hfull : m = entrySize := by
    have hmin := hm (Fs.hasMemory_of_nil h.heap)
    rw [rootEntries] at *
    rw [entrySize] at *
    omega
  subst hfull
  rw [Fs.alloc_of_nil h.heap, List.take_of_length_le (Nat.le_of_eq he)] at heq
  refine ⟨_, heq, ⟨h.heap, ⟨ino, hino.written _ _, rfl, hdeny, hcnt⟩, ?_, ?_, h.apart⟩, rfl, rfl⟩
  · have hlen : c.length = entrySize * rootEntries := h.contents ▸ Memory.length_read ..
    have hfit := entry_fits hlen hj he
    have hcontents : ino.contents (fs.dev.write _ e) _ = _ := contents_write (hlen ▸ hfit)
    rw [Inode.contents, Inode.contents, h.contents] at hcontents
    exact hcontents
  · obtain ⟨file, mino, hfile, hmino, hmstart, hmcnt⟩ := h.map
    exact ⟨file, mino, hfile, hmino.written _ _, hmstart, hmcnt⟩

/-- The free map is written. -/
theorem RootedAt.freeMapWrite (h : RootedAt fs start mapStart len c extra) :
    Ensures freeMapWrite fs fun _ fs' => RootedAt fs' start mapStart len c extra := by
  obtain ⟨file, mino, hfile, hmino, rfl, hmcnt⟩ := h.map
  obtain ⟨m, hle, -, heq⟩ := freeMapWrite_eq hfile hmino
  rw [Fs.alloc_of_nil h.heap] at heq
  refine .of_eq heq ⟨h.heap, ?_, ?_, ⟨file, mino, hfile, hmino.written _ _, rfl, hmcnt⟩, h.apart⟩
  · obtain ⟨ino, hino, hstart, hdeny, hcnt⟩ := h.root
    exact ⟨ino, hino.written _ _, hstart, hdeny, hcnt⟩
  · -- the two files do not overlap
    have hapart := h.apart
    have hbound := hmino.onDevice.bound
    rw [bytesToSectors_natCast hbound] at hapart
    rw [← h.contents]
    refine Memory.read_write_of_disjoint _ _ _ _ ?_
    have hlen : ((bitmapBytes fs.freeMap).take m).length ≤ len := by
      rw [List.length_take]
      omega
    rw [entrySize, rootEntries, sectorSize]
    omega

/-- The free map is changed. -/
theorem RootedAt.setFreeMap (h : RootedAt fs start mapStart len c extra) (b : List Bool) :
    RootedAt { fs with freeMap := b } start mapStart len c extra := by
  obtain ⟨ino, hino, hroot⟩ := h.root
  obtain ⟨file, mino, hfile, hmino, hmap⟩ := h.map
  exact ⟨h.heap, ⟨ino, ⟨hino.get, hino.onDevice⟩, hroot⟩, h.contents,
    ⟨file, mino, hfile, ⟨hmino.get, hmino.onDevice⟩, hmap⟩, h.apart⟩

theorem RootedAt.freeMapRelease (h : RootedAt fs start mapStart len c extra) (sector cnt : ℕ) :
    Allows (freeMapRelease sector cnt) fs fun _ fs' => RootedAt fs' start mapStart len c extra := by
  rw [Filesys.freeMapRelease]
  refine .get_bind ?_
  split
  · exact .throw _
  · refine .set_bind (.bind (.of_ensures (h.setFreeMap _).freeMapWrite) fun _ fs' hfs' => .pure hfs')

/-- The open inodes are changed, but not what is known of the root directory and the free map's file. -/
theorem RootedAt.setInodes (h : RootedAt fs start mapStart len c extra) {inodes : List Inode}
    {extra' : Option ℕ}
    (hkeep : ∀ sector ino, Keyed.get Inode.sector sector fs.openInodes = some ino →
      (if extra = some sector then 1 else 0) < ino.openCnt →
      ∃ ino', Keyed.get Inode.sector sector inodes = some ino' ∧ ino'.start = ino.start ∧
        ino'.length = ino.length ∧ ino'.denyWriteCnt = ino.denyWriteCnt ∧
        (if extra' = some sector then 1 else 0) < ino'.openCnt) :
    RootedAt { fs with openInodes := inodes } start mapStart len c extra' := by
  have honDevice : ∀ {ino ino' : Inode} {n : ℕ}, ino'.start = ino.start → ino'.length = ino.length →
      ino.OnDevice fs.dev n → ino'.OnDevice fs.dev n := by
    intro ino ino' n hstart hlength hino
    exact ⟨hlength.trans hino.length, hino.bound, hstart ▸ hino.extent⟩
  obtain ⟨ino, hino, hstart, hdeny, hcnt⟩ := h.root
  obtain ⟨file, mino, hfile, hmino, hmstart, hmcnt⟩ := h.map
  obtain ⟨ino', hget, hs, hl, hd, hcnt'⟩ := hkeep _ ino hino.get hcnt
  obtain ⟨mino', hmget, hms, hml, -, hmcnt'⟩ := hkeep _ mino hmino.get hmcnt
  exact ⟨h.heap, ⟨ino', ⟨hget, honDevice hs hl hino.onDevice⟩, hs.trans hstart, hd.trans hdeny, hcnt'⟩,
    h.contents, ⟨file, mino', hfile, ⟨hmget, honDevice hms hml hmino.onDevice⟩, hms.trans hmstart, hmcnt'⟩,
    h.apart⟩

/-- An open inode is changed, but not where its data are. -/
theorem RootedAt.putInode (h : RootedAt fs start mapStart len c extra) {ino ino' : Inode}
    {extra' : Option ℕ} (hget : Keyed.get Inode.sector ino'.sector fs.openInodes = some ino)
    (hstart : ino'.start = ino.start) (hlength : ino'.length = ino.length)
    (hdeny : ino'.denyWriteCnt = ino.denyWriteCnt)
    (hcnt : (if extra = some ino'.sector then 1 else 0) < ino.openCnt →
      (if extra' = some ino'.sector then 1 else 0) < ino'.openCnt)
    (hother : ∀ k, k ≠ ino'.sector → extra' = some k → extra = some k) :
    RootedAt { fs with openInodes := Keyed.put Inode.sector ino' fs.openInodes } start mapStart len c
      extra' := by
  refine h.setInodes fun k ino₁ hget₁ hcnt₁ => ?_
  rw [Keyed.get_put]
  by_cases hk : ino'.sector = k
  · subst hk
    cases hget.symm.trans hget₁
    rw [if_pos rfl, hget]
    exact ⟨ino', rfl, hstart, hlength, hdeny, hcnt hcnt₁⟩
  · rw [if_neg hk]
    refine ⟨ino₁, hget₁, rfl, rfl, rfl, ?_⟩
    split
    · rename_i hextra'
      rwa [if_pos (hother k (Ne.symm hk) hextra')] at hcnt₁
    · exact Nat.lt_of_le_of_lt (Nat.zero_le _) hcnt₁

/-- An inode is opened. -/
theorem RootedAt.inodeOpen (h : RootedAt fs start mapStart len c none) (sector : ℕ) :
    Allows (inodeOpen sector) fs fun r fs' => r = some sector ∧
      RootedAt fs' start mapStart len c (some sector) := by
  rw [Filesys.inodeOpen]
  refine .get_bind ?_
  cases hget : Keyed.get Inode.sector sector fs.openInodes with
  | some ino =>
    obtain rfl : ino.sector = sector := Keyed.key_of_get hget
    refine .modify_bind (.pure ⟨rfl, h.putInode hget rfl rfl rfl (fun hcnt => ?_) ?_⟩)
    · rw [if_pos rfl]
      exact Nat.succ_lt_succ hcnt
    · intro k hk hextra
      exact absurd (Option.some.inj hextra).symm hk
  | none =>
    refine .bind_eq (malloc_eq fs) ?_
    rw [Fs.alloc_of_nil h.heap, h.heap]
    refine .bind (allows_readBlock fs sector) fun data fs' hread => ?_
    obtain ⟨-, -, rfl⟩ := hread
    refine .modify_bind (.pure ⟨rfl, h.setInodes fun k ino' hget' hcnt => ?_⟩)
    -- what is known is about inodes that are open already
    have hk : sector ≠ k := by
      rintro rfl
      cases hget.symm.trans hget'
    rw [if_neg (by simpa using hk)]
    exact ⟨ino', (Keyed.get_cons_ne hk).trans hget', rfl, rfl, rfl, Nat.lt_of_le_of_lt (Nat.zero_le _) hcnt⟩

theorem RootedAt.inodeRemove (h : RootedAt fs start mapStart len c extra) (sector : ℕ) :
    Allows (inodeRemove sector) fs fun _ fs' => RootedAt fs' start mapStart len c extra := by
  rw [Filesys.inodeRemove]
  refine .bind (allows_getInode fs sector) fun ino fs' hino => ?_
  obtain ⟨rfl, hget⟩ := hino
  obtain rfl : ino.sector = sector := Keyed.key_of_get hget
  exact .of_ensures (.of_eq rfl (h.putInode hget rfl rfl rfl id fun _ _ => id))

/-- The last pointer to an inode is closed. It is neither the root directory nor the free map's file. -/
theorem RootedAt.erase {sector : ℕ} (h : RootedAt fs start mapStart len c (some sector)) {ino : Inode}
    (hget : Keyed.get Inode.sector sector fs.openInodes = some ino) (hlast : ino.openCnt = 1) :
    RootedAt (fs.setInodes (Keyed.erase Inode.sector sector fs.openInodes)) start mapStart len c none := by
  refine h.setInodes fun k ino₁ hget₁ hcnt₁ => ?_
  have hk : sector ≠ k := by
    rintro rfl
    cases hget.symm.trans hget₁
    rw [if_pos rfl, hlast] at hcnt₁
    exact absurd hcnt₁ (Nat.lt_irrefl 1)
  exact ⟨ino₁, (Keyed.get_erase_ne hk).trans hget₁, rfl, rfl, rfl, Nat.lt_of_le_of_lt (Nat.zero_le _) hcnt₁⟩

/-- The inode that has been opened once more is closed. -/
theorem RootedAt.inodeClose {sector : ℕ} (h : RootedAt fs start mapStart len c (some sector)) :
    Allows (inodeClose (some sector)) fs fun _ fs' => RootedAt fs' start mapStart len c none := by
  rw [Filesys.inodeClose]
  refine .bind (allows_getInode fs sector) fun ino fs' hino => ?_
  obtain ⟨rfl, hget⟩ := hino
  obtain rfl : ino.sector = sector := Keyed.key_of_get hget
  split
  · rename_i hlast
    have herase := h.erase hget hlast
    refine .modify_bind ?_
    split
    · exact .bind (herase.freeMapRelease ino.sector 1) fun _ fs₁ h₁ => h₁.freeMapRelease _ _
    · exact .pure herase
  · exact .of_ensures (.of_eq rfl (h.putInode hget rfl rfl rfl
      (fun hcnt => by rw [if_pos rfl] at hcnt; exact Nat.sub_pos_of_lt hcnt) (by simp)))

/-- The place of a name in a directory. -/
def place (c : List UInt8) (name : CStr) : Option ℕ := firstEntry c rootEntries (entryNamed · name) 0

theorem RootedAt.lookup (h : RootedAt fs start mapStart len c extra) {dir : Dir}
    (hdir : dir.inode = rootDirSector) (name : CStr) :
    lookup dir name fs = .ok ((place c name).map fun j => (entryAt c j, entrySize * j), fs) := by
  obtain ⟨ino, hino, rfl, -, -⟩ := h.root
  obtain ⟨r, k, heq, -, hr⟩ := lookupLoop_eq hino name dirTurns 0 (Nat.zero_le _) (by decide)
  rw [Fs.alloc_of_nil h.heap, hr h.heap, Inode.contents, h.contents] at heq
  rw [Filesys.lookup, hdir]
  exact heq

/-- A free entry. -/
theorem RootedAt.freeEntry (h : RootedAt fs start mapStart len c extra) (buffer : Vector UInt8 entrySize) :
    ∃ e, freeEntryLoop rootDirSector dirTurns 0 buffer.toList fs =
        .ok ((e, entrySize * (firstEntry c rootEntries (!entryInUse ·) 0).getD rootEntries), fs) ∧
      e.length = entrySize := by
  obtain ⟨ino, hino, rfl, -, -⟩ := h.root
  obtain ⟨e, j, k, heq, -, hlen, hj⟩ := freeEntryLoop_eq hino dirTurns 0 (Nat.zero_le _)
    (by decide) (show buffer.toList.length = entrySize by simp)
  rw [Fs.alloc_of_nil h.heap, hj h.heap, Inode.contents, h.contents] at heq
  exact ⟨e, heq, hlen⟩

end Rooted

/-! ### A bounded finite map -/

/-- What is done to the root directory. `buffer` is what is on the stack. -/
inductive DirOp
  | add (name : CStr) (sector : UInt32) (buffer : Vector UInt8 entrySize)
  | remove (name : CStr)
  | lookup (name : CStr)

/-- What it returns: a flag, or an inode. -/
inductive Reply
  | flag (b : Bool)
  | inode (inode : Option ℕ)

def DirOp.run (dir : Dir) : DirOp → Op Reply
  | .add name sector buffer => do
    let b ← dirAdd buffer dir name sector.toNat
    return .flag b
  | .remove name => do
    let b ← dirRemove dir name
    return .flag b
  | .lookup name => do
    let inode ← dirLookup dir name
    return .inode inode

/-- One operation after the other. -/
def runDir (dir : Dir) : List DirOp → Op (List Reply)
  | [] => return []
  | op :: ops => do
    let reply ← op.run dir
    let replies ← runDir dir ops
    return reply :: replies

/-- A binding for a name can be added to a map. -/
def CanAdd (m : List (CStr × ℕ)) (name : CStr) : Prop :=
  1 ≤ name.chars.length ∧ name.chars.length ≤ nameMax ∧ (∀ s, (name, s) ∉ m) ∧ m.length < rootEntries

/-- What an operation does to a map. The order of the bindings does not matter. -/
inductive DirOp.Spec (m : List (CStr × ℕ)) : DirOp → Reply → List (CStr × ℕ) → Prop
  | add {name sector buffer m'} (can : CanAdd m name) (perm : m'.Perm ((name, sector.toNat) :: m)) :
    Spec m (.add name sector buffer) (.flag true) m'
  | notAdd {name sector buffer} (cannot : ¬ CanAdd m name) : Spec m (.add name sector buffer) (.flag false) m
  | remove {name s m'} (perm : m.Perm ((name, s) :: m')) : Spec m (.remove name) (.flag true) m'
  | notRemove {name} (unbound : ∀ s, (name, s) ∉ m) : Spec m (.remove name) (.flag false) m
  | lookup {name s} (bound : (name, s) ∈ m) : Spec m (.lookup name) (.inode (some s)) m
  | notLookup {name} (unbound : ∀ s, (name, s) ∉ m) : Spec m (.lookup name) (.inode none) m

/-- What one operation after the other does. -/
inductive Trace : List (CStr × ℕ) → List DirOp → List Reply → List (CStr × ℕ) → Prop
  | nil (m) : Trace m [] [] m
  | cons {m m₁ m' op ops reply replies} (first : op.Spec m reply m₁) (rest : Trace m₁ ops replies m') :
    Trace m (op :: ops) (reply :: replies) m'

/-- The root directory is open, and holds the bindings `m`. -/
def Directory (fs : Fs) (m : List (CStr × ℕ)) : Prop :=
  ∃ start mapStart len c, RootedAt fs start mapStart len c none ∧ WellFormed c ∧ bindings c = m

section Spec

variable {fs : Fs} {start mapStart len : ℕ} {c : List UInt8} {dir : Dir} {name : CStr}

/-- A name has a place if it is bound. -/
theorem place_eq_none : place c name = none ↔ ∀ s, (name, s) ∉ bindings c := by
  rw [place, firstEntry_eq_none]
  constructor
  · intro h s hs
    obtain ⟨j, hj, hslot⟩ := mem_bindings.mp hs
    have hnamed := entryNamed_iff.mpr ⟨s, hslot⟩
    rw [h j hj] at hnamed
    cases hnamed
  · intro h j hj
    by_contra hnamed
    obtain ⟨s, hslot⟩ := entryNamed_iff.mp (Bool.not_eq_false _ ▸ hnamed)
    exact h s (mem_bindings.mpr ⟨j, hj, hslot⟩)

theorem place_eq_some {j : ℕ} (h : place c name = some j) :
    j < rootEntries ∧ slot (entryAt c j) = some (name, entrySector (entryAt c j)) := by
  obtain ⟨hj, hnamed⟩ := firstEntry_eq_some h
  obtain ⟨s, hslot⟩ := entryNamed_iff.mp hnamed
  have hs := slot_sector hslot
  subst hs
  exact ⟨hj, hslot⟩

theorem RootedAt.dirAdd (h : RootedAt fs start mapStart len c none) (hc : WellFormed c)
    (hdir : dir.inode = rootDirSector) (buffer : Vector UInt8 entrySize) (name : CStr) (sector : UInt32) :
    ∃ b fs' c', dirAdd buffer dir name sector.toNat fs = .ok (b, fs') ∧
      RootedAt fs' start mapStart len c' none ∧ WellFormed c' ∧
      (DirOp.add name sector buffer).Spec (bindings c) (.flag b) (bindings c') := by
  rw [Filesys.dirAdd]
  by_cases hbad : name.chars = [] ∨ name.chars.length > nameMax
  · refine ⟨false, fs, c, by rw [if_pos hbad]; rfl, h, hc, .notAdd fun hcan => ?_⟩
    obtain ⟨hpos, hle, -⟩ := hcan
    obtain hnil | hlong := hbad
    · rw [hnil] at hpos
      cases hpos
    · omega
  rw [if_neg hbad, bind_of_ok (h.lookup hdir name)]
  simp only [not_or, Nat.not_lt] at hbad
  match hplace : place c name with
  | some j =>
    refine ⟨false, fs, c, rfl, h, hc, .notAdd fun hcan => ?_⟩
    rw [place_eq_none.mpr hcan.2.2.1] at hplace
    cases hplace
  | none =>
    have hnew := place_eq_none.mp hplace
    obtain ⟨e, hfree, hlen⟩ := h.freeEntry buffer
    obtain ⟨e', hentry, hlen', -, hslot⟩ := newEntry_eq hlen hbad.2 sector.toNat_lt
    rw [← hdir] at hfree
    simp only [Option.map_none, bind_of_ok hfree, hentry]
    match hfirst : firstEntry c rootEntries (!entryInUse ·) 0 with
    | some j =>
      obtain ⟨hj, huse⟩ := firstEntry_eq_some hfirst
      have huse' : entryInUse (entryAt c j) = false := by simpa using huse
      obtain ⟨fs', hwrite, h', -, -⟩ := h.write hj hlen'
      obtain ⟨hc', hperm⟩ := hc.add hj huse' hbad.1 hbad.2 hnew hlen' hslot
      refine ⟨true, fs', _, ?_, h', hc', .add ⟨?_, hbad.2, hnew, ?_⟩ hperm⟩
      · rw [hdir]
        exact bind_of_ok hwrite
      · exact List.length_pos_iff.mpr hbad.1
      · exact (length_bindings_lt hc).mpr ⟨j, hj, huse'⟩
    | none =>
      -- the write starts at the end of the directory
      obtain ⟨ino, hino, rfl, hdeny, -⟩ := h.root
      obtain ⟨m, hle, -, hwrite⟩ := writeInode_eq hino hdeny (Nat.le_of_eq hlen'.symm) (entrySize * rootEntries)
      obtain rfl : m = 0 := by omega
      rw [Fs.alloc_of_nil h.heap, List.take_zero, Fs.written_nil] at hwrite
      refine ⟨false, fs, c, ?_, h, hc, .notAdd fun hcan => ?_⟩
      · rw [hdir]
        exact bind_of_ok hwrite
      · obtain ⟨j, hj, huse⟩ := (length_bindings_lt hc).mp hcan.2.2.2
        have hall := firstEntry_eq_none.mp hfirst j hj
        rw [huse] at hall
        cases hall

theorem RootedAt.dirLookup (h : RootedAt fs start mapStart len c none) (hdir : dir.inode = rootDirSector)
    (name : CStr) :
    Allows (dirLookup dir name) fs fun r fs' => RootedAt fs' start mapStart len c none ∧
      (DirOp.lookup name).Spec (bindings c) (.inode r) (bindings c) := by
  rw [Filesys.dirLookup]
  refine .bind_eq (h.lookup hdir name) ?_
  match hplace : place c name with
  | none => exact .pure ⟨h, .notLookup (place_eq_none.mp hplace)⟩
  | some j =>
    obtain ⟨hj, hslot⟩ := place_eq_some hplace
    refine (h.inodeOpen (entrySector (entryAt c j))).mono ?_
    rintro r fs' ⟨rfl, h'⟩
    exact ⟨h'.forget, .lookup (mem_bindings.mpr ⟨j, hj, hslot⟩)⟩

theorem RootedAt.dirRemove (h : RootedAt fs start mapStart len c none) (hc : WellFormed c)
    (hdir : dir.inode = rootDirSector) (name : CStr) :
    Allows (dirRemove dir name) fs fun b fs' => ∃ c', RootedAt fs' start mapStart len c' none ∧
      WellFormed c' ∧ (DirOp.remove name).Spec (bindings c) (.flag b) (bindings c') := by
  rw [Filesys.dirRemove]
  refine .bind_eq (h.lookup hdir name) ?_
  match hplace : place c name with
  | none => exact .pure ⟨c, h, hc, .notRemove (place_eq_none.mp hplace)⟩
  | some j =>
    obtain ⟨hj, hslot⟩ := place_eq_some hplace
    obtain ⟨hlen, hfree⟩ := freedEntry_eq (length_entryAt hc.length hj)
    obtain ⟨hc', hperm⟩ := hc.remove hj hslot hlen hfree
    refine .bind (h.inodeOpen (entrySector (entryAt c j))) ?_
    rintro r fs₁ ⟨rfl, h₁⟩
    obtain ⟨fs₂, hwrite, h₂, -, -⟩ := h₁.write hj hlen
    refine .bind_eq (by rw [hdir]; exact hwrite) ?_
    rw [if_neg (by simp)]
    refine .bind (h₂.inodeRemove _) fun _ fs₃ h₃ => .bind h₃.inodeClose fun _ fs₄ h₄ => .pure ?_
    exact ⟨_, h₄, hc', .remove hperm⟩

/-- **One operation on the root directory.** -/
theorem Directory.run {m : List (CStr × ℕ)} (h : Directory fs m) (hdir : dir.inode = rootDirSector)
    (op : DirOp) : Allows (op.run dir) fs fun reply fs' => ∃ m', Directory fs' m' ∧ op.Spec m reply m' := by
  obtain ⟨start, mapStart, len, c, hroot, hc, rfl⟩ := h
  cases op with
  | add name sector buffer =>
    obtain ⟨b, fs', c', heq, hroot', hc', hspec⟩ := hroot.dirAdd hc hdir buffer name sector
    exact .bind_eq heq (.pure ⟨_, ⟨_, _, _, c', hroot', hc', rfl⟩, hspec⟩)
  | remove name =>
    refine .bind (hroot.dirRemove hc hdir name) fun b fs' ⟨c', hroot', hc', hspec⟩ => .pure ?_
    exact ⟨_, ⟨_, _, _, c', hroot', hc', rfl⟩, hspec⟩
  | lookup name =>
    refine .bind (hroot.dirLookup hdir name) fun r fs' ⟨hroot', hspec⟩ => .pure ?_
    exact ⟨_, ⟨_, _, _, c, hroot', hc, rfl⟩, hspec⟩

/-- **A run of operations on the root directory.** -/
theorem Directory.runDir {m : List (CStr × ℕ)} (h : Directory fs m) (hdir : dir.inode = rootDirSector)
    (ops : List DirOp) :
    Allows (runDir dir ops) fs fun replies fs' => ∃ m', Directory fs' m' ∧ Trace m ops replies m' := by
  induction ops generalizing fs m with
  | nil => exact .pure ⟨m, h, .nil m⟩
  | cons op ops ih =>
    refine .bind (h.run hdir op) fun reply fs₁ ⟨m₁, h₁, hspec⟩ => ?_
    exact .bind (ih h₁) fun replies fs' ⟨m', h', htrace⟩ => .pure ⟨m', h', .cons hspec htrace⟩

/-- The map is a function from names of 1 to 14 characters, with at most 16 bindings. -/
theorem Directory.map {m : List (CStr × ℕ)} (h : Directory fs m) :
    (m.map Prod.fst).Nodup ∧ m.length ≤ rootEntries ∧
      ∀ b ∈ m, 1 ≤ b.1.chars.length ∧ b.1.chars.length ≤ nameMax := by
  obtain ⟨start, mapStart, len, c, hroot, hc, rfl⟩ := h
  refine ⟨hc.distinct, ?_, fun b hb => ?_⟩
  · have hlen : (slots c).length = rootEntries := by simp [slots]
    exact hlen ▸ List.length_filterMap_le id (slots c)
  · obtain ⟨j, hj, hslot⟩ := mem_bindings.mp hb
    have huse : entryInUse (entryAt c j) = true := by
      by_contra huse
      rw [slot_of_not_inUse (Bool.not_eq_true _ ▸ huse)] at hslot
      cases hslot
    obtain ⟨b', hslot', hne, hle⟩ := hc.named j hj huse
    cases hslot.symm.trans hslot'
    exact ⟨List.length_pos_iff.mpr hne, hle⟩

end Spec

/-! ### Scans -/

/-- `dir_readdir` until it returns false. -/
def scanDir : ℕ → Dir → Op (List CStr)
  | 0, _ => throw .running
  | turns + 1, dir => do
    match ← dirReaddir dir with
    | (none, _) => return []
    | (some name, dir) =>
      let names ← scanDir turns dir
      return name :: names

section Scans

variable {fs : Fs} {start mapStart len : ℕ} {c : List UInt8}

/-- The loop of `dir_readdir` goes to the next entry in use. -/
theorem RootedAt.readdirLoop (h : RootedAt fs start mapStart len c none) (turns i : ℕ)
    (hi : i ≤ rootEntries) (hturns : rootEntries < turns + i) :
    readdirLoop turns ⟨rootDirSector, (entrySize * i : ℕ)⟩ fs =
      .ok (match firstEntry c rootEntries entryInUse i with
        | some j => (some (entryName (entryAt c j)), ⟨rootDirSector, (entrySize * (j + 1) : ℕ)⟩)
        | none => (none, ⟨rootDirSector, (entrySize * rootEntries : ℕ)⟩), fs) := by
  induction turns generalizing i with
  | zero => omega
  | succ turns ih =>
    obtain ⟨ino, hino, hstart, -, -⟩ := h.root
    obtain ⟨e, hread, -, hfull, hmem⟩ := readEntry_eq hino i
    rw [Fs.alloc_of_nil h.heap] at hread
    rw [Inode.contents, hstart, h.contents] at hfull
    rw [Filesys.readdirLoop, bind_of_ok hread]
    by_cases hlt : i < rootEntries
    · have hlen := (hmem (Fs.hasMemory_of_nil h.heap)).mpr hlt
      obtain ⟨-, rfl⟩ := hfull hlen
      rw [if_neg (not_not_intro hlen), firstEntry_step hlt]
      cases huse : entryInUse (entryAt c i) with
      | true => rfl
      | false => exact ih (i + 1) hlt (by omega)
    · have hlen : e.length ≠ entrySize := fun hlen => hlt ((hmem (Fs.hasMemory_of_nil h.heap)).mp hlen)
      rw [if_pos hlen, firstEntry_of_le (Nat.le_of_not_lt hlt), Nat.le_antisymm hi (Nat.le_of_not_lt hlt)]
      rfl

theorem drop_slots {i : ℕ} (hi : i < rootEntries) :
    (slots c).drop i = slot (entryAt c i) :: (slots c).drop (i + 1) := by
  have hlen : i < (slots c).length := by simpa [slots] using hi
  rw [List.drop_eq_getElem_cons hlen]
  simp [slots]

/-- The bindings from the next entry in use on. -/
theorem WellFormed.drop_slots (hc : WellFormed c) (k i : ℕ) (hk : i + k = rootEntries) :
    match firstEntry c rootEntries entryInUse i with
    | some j => ∃ b, i ≤ j ∧ CStr.ofBytes (entryName (entryAt c j)) = some b.1 ∧
      ((slots c).drop i).filterMap id = b :: ((slots c).drop (j + 1)).filterMap id
    | none => ((slots c).drop i).filterMap id = [] := by
  induction k generalizing i with
  | zero =>
    rw [firstEntry_of_le (by omega), List.drop_eq_nil_of_le (by simp [slots]; omega)]
    rfl
  | succ k ih =>
    have hi : i < rootEntries := by omega
    rw [firstEntry_step hi, Filesys.drop_slots hi]
    cases huse : entryInUse (entryAt c i) with
    | true =>
      obtain ⟨b, hslot, -⟩ := hc.named i hi huse
      refine ⟨b, Nat.le_refl i, ?_, by rw [hslot]; rfl⟩
      rw [slot, if_pos huse] at hslot
      obtain ⟨name, hname, rfl⟩ := Option.map_eq_some_iff.mp hslot
      exact hname
    | false =>
      rw [slot_of_not_inUse huse]
      have hrest := ih (i + 1) (by omega)
      simp only [Bool.false_eq_true, if_false]
      split at hrest
      · obtain ⟨b, hle, hname, heq⟩ := hrest
        exact ⟨b, by omega, hname, heq⟩
      · exact hrest

theorem RootedAt.scanDir (h : RootedAt fs start mapStart len c none) (hc : WellFormed c) (turns i : ℕ)
    (hi : i ≤ rootEntries) (hturns : rootEntries < turns + i) :
    scanDir turns ⟨rootDirSector, (entrySize * i : ℕ)⟩ fs =
      .ok ((((slots c).drop i).filterMap id).map Prod.fst, fs) := by
  induction turns generalizing i with
  | zero => omega
  | succ turns ih =>
    have hread := h.readdirLoop dirTurns i hi (by rw [dirTurns, rootEntries]; omega)
    have hslots := hc.drop_slots (rootEntries - i) i (by omega)
    rw [Filesys.scanDir, dirReaddir]
    match hfirst : firstEntry c rootEntries entryInUse i with
    | none =>
      rw [hfirst] at hread hslots
      rw [bind_of_ok (bind_of_ok hread), hslots]
      rfl
    | some j =>
      rw [hfirst] at hread hslots
      obtain ⟨b, hle, hname, heq⟩ := hslots
      have hnext := ih (j + 1) (firstEntry_eq_some hfirst).1 (by omega)
      have hreaddir : dirReaddir ⟨rootDirSector, (entrySize * i : ℕ)⟩ fs =
          .ok ((some b.1, ⟨rootDirSector, (entrySize * (j + 1) : ℕ)⟩), fs) := by
        rw [dirReaddir, bind_of_ok hread]
        simp only [hname]
        rfl
      rw [← dirReaddir, bind_of_ok hreaddir, heq]
      exact bind_of_ok hnext

end Scans

/-! ### No halt -/

/-- `dir_remove` can give the inode at this sector back: it is on the device, and unless somebody has it open, its
sectors are marked as used in the free map. -/
structure Fs.Removable (fs : Fs) (sector : ℕ) : Prop where
  onDevice : sector < fs.dev.size
  opened : ∀ ino, Keyed.get Inode.sector sector fs.openInodes = some ino → 0 < ino.openCnt
  used : Keyed.get Inode.sector sector fs.openInodes = none →
    let ino := Inode.ofDisk sector (fs.dev.sector sector)
    AllUsed fs.freeMap sector 1 ∧ AllUsed fs.freeMap ino.start (bytesToSectors ino.length) ∧
      (ino.start + bytesToSectors ino.length ≤ sector ∨ sector + 1 ≤ ino.start)

/-- The sectors that an operation comes to are those of inodes. -/
def DirOp.Safe (fs : Fs) (m : List (CStr × ℕ)) : DirOp → Prop
  | .add .. => True
  | .lookup name => ∀ s, (name, s) ∈ m → s < fs.dev.size
  | .remove name => ∀ s, (name, s) ∈ m → fs.Removable s

section NoHalt

variable {fs : Fs} {start mapStart len : ℕ} {c : List UInt8} {extra : Option ℕ} {dir : Dir} {name : CStr}

theorem RootedAt.release (h : RootedAt fs start mapStart len c extra) {sector cnt : ℕ}
    (hused : AllUsed fs.freeMap sector cnt) :
    ∃ fs', Filesys.freeMapRelease sector cnt fs = .ok ((), fs') ∧
      RootedAt fs' start mapStart len c extra ∧
      fs'.freeMap = setMultiple fs.freeMap sector cnt false := by
  have h' := h.setFreeMap (setMultiple fs.freeMap sector cnt false)
  obtain ⟨b, fs', hwrite, hroot⟩ := h'.freeMapWrite
  refine ⟨fs', ?_, hroot, ?_⟩
  · rw [freeMapRelease_eq hused, bind_of_ok hwrite]
    rfl
  · obtain ⟨file, mino, hfile, hmino, -, -⟩ := h'.map
    obtain ⟨m, -, -, heq⟩ := freeMapWrite_eq hfile hmino
    cases hwrite.symm.trans heq
    rfl

/-- The inode that `dir_remove` opens: it was open before, or it comes from the disk. -/
theorem RootedAt.opens (h : RootedAt fs start mapStart len c none) {sector : ℕ} (hs : sector < fs.dev.size) :
    ∃ fs' ino, Filesys.inodeOpen sector fs = .ok (some sector, fs') ∧
      RootedAt fs' start mapStart len c (some sector) ∧ fs'.freeMap = fs.freeMap ∧
      Keyed.get Inode.sector sector fs'.openInodes = some ino ∧
      ((∃ ino₀, Keyed.get Inode.sector sector fs.openInodes = some ino₀ ∧ ino.openCnt = ino₀.openCnt + 1) ∨
        Keyed.get Inode.sector sector fs.openInodes = none ∧
          ino = .ofDisk sector (fs.dev.sector sector)) := by
  match hget : Keyed.get Inode.sector sector fs.openInodes with
  | some ino =>
    have hopen := inodeOpen_of_open hget
    have hkey : ino.sector = sector := Keyed.key_of_get hget
    exact ⟨_, { ino with openCnt := ino.openCnt + 1 }, hopen, (h.inodeOpen _ _ _ hopen).2, rfl,
      Keyed.get_put_self hkey hget, .inl ⟨ino, rfl, rfl⟩⟩
  | none =>
    have hopen := inodeOpen_of_closed hget (Fs.hasMemory_of_nil h.heap) hs
    refine ⟨_, _, hopen, (h.inodeOpen _ _ _ hopen).2, rfl, ?_, .inr ⟨rfl, rfl⟩⟩
    exact Keyed.get_cons_self (a := Inode.ofDisk sector (fs.dev.sector sector))

/-- A removed inode is closed, and given back if nobody else has it open. -/
theorem RootedAt.closes {sector : ℕ} (h : RootedAt fs start mapStart len c (some sector)) {ino : Inode}
    (hget : Keyed.get Inode.sector sector fs.openInodes = some ino)
    (hused : ino.openCnt = 1 → AllUsed fs.freeMap sector 1 ∧
      AllUsed fs.freeMap ino.start (bytesToSectors ino.length) ∧
      (ino.start + bytesToSectors ino.length ≤ sector ∨ sector + 1 ≤ ino.start)) :
    ∃ fs', Filesys.inodeClose (some sector) fs = .ok ((), fs') := by
  by_cases hcnt : ino.openCnt = 1
  swap
  · exact ⟨_, inodeClose_of_not_last hget hcnt⟩
  rw [inodeClose_of_last hget hcnt]
  cases ino.removed with
  | false => exact ⟨_, rfl⟩
  | true =>
    obtain ⟨hsector, hdata, hapart⟩ := hused hcnt
    have herase := h.erase hget hcnt
    obtain ⟨fs₁, hrelease, h₁, hmap⟩ := herase.release hsector
    have hdata₁ : AllUsed fs₁.freeMap ino.start (bytesToSectors ino.length) :=
      hmap ▸ hdata.setMultiple hsector.1 hapart false
    obtain ⟨fs₂, hrelease₂, -, -⟩ := h₁.release hdata₁
    refine ⟨fs₂, ?_⟩
    rw [if_pos rfl, bind_of_ok hrelease, hrelease₂]

theorem RootedAt.removes (h : RootedAt fs start mapStart len c none) (hc : WellFormed c)
    (hdir : dir.inode = rootDirSector) (hsafe : ∀ s, (name, s) ∈ bindings c → fs.Removable s) :
    ∃ b fs', Filesys.dirRemove dir name fs = .ok (b, fs') := by
  rw [Filesys.dirRemove, bind_of_ok (h.lookup hdir name)]
  match hplace : place c name with
  | none => exact ⟨_, _, rfl⟩
  | some j =>
    obtain ⟨hj, hslot⟩ := place_eq_some hplace
    have hrem := hsafe _ (mem_bindings.mpr ⟨j, hj, hslot⟩)
    obtain ⟨hlen, -⟩ := freedEntry_eq (length_entryAt hc.length hj)
    obtain ⟨fs₁, ino, hopen, h₁, hmap, hget, hino⟩ := h.opens hrem.onDevice
    obtain ⟨fs₂, hwrite, h₂, hinodes₂, hmap₂⟩ := h₁.write hj hlen
    rw [← hinodes₂] at hget
    have hremove := inodeRemove_eq hget
    have h₃ := h₂.inodeRemove _ _ _ hremove
    have hkey : ino.sector = entrySector (entryAt c j) := Keyed.key_of_get hget
    have hget₃ := Keyed.get_put_self (a := { ino with removed := true }) hkey hget
    obtain ⟨fs₄, hclose⟩ := h₃.closes hget₃ fun hlast => by
      obtain ⟨ino₀, hget₀, hcnt⟩ | ⟨hnone, hdisk⟩ := hino
      · -- somebody else has it open
        have hpos := hrem.opened _ hget₀
        exact absurd (hcnt.symm.trans hlast) (by omega)
      · have hused := hrem.used hnone
        rw [← hdisk] at hused
        change AllUsed fs₂.freeMap _ _ ∧ AllUsed fs₂.freeMap _ _ ∧ _
        rw [hmap₂, hmap]
        exact hused
    refine ⟨true, fs₄, ?_⟩
    simp only [Option.map_some, bind_of_ok hopen, hdir, bind_of_ok hwrite]
    rw [if_neg (by simp), bind_of_ok hremove, bind_of_ok hclose]
    rfl

/-- **No operation halts** if the sectors that it comes to are those of inodes. -/
theorem Directory.runs {m : List (CStr × ℕ)} (h : Directory fs m) (hdir : dir.inode = rootDirSector)
    (op : DirOp) (hsafe : op.Safe fs m) : ∃ reply fs', op.run dir fs = .ok (reply, fs') := by
  obtain ⟨start, mapStart, len, c, hroot, hc, rfl⟩ := h
  cases op with
  | add name sector buffer =>
    obtain ⟨b, fs', c', heq, -⟩ := hroot.dirAdd hc hdir buffer name sector
    exact ⟨_, fs', bind_of_ok heq⟩
  | remove name =>
    obtain ⟨b, fs', heq⟩ := hroot.removes hc hdir hsafe
    exact ⟨_, fs', bind_of_ok heq⟩
  | lookup name =>
    have hlookup := hroot.lookup hdir name
    match hplace : place c name with
    | none =>
      rw [hplace] at hlookup
      exact ⟨_, _, bind_of_ok (bind_of_ok hlookup)⟩
    | some j =>
      rw [hplace] at hlookup
      obtain ⟨hj, hslot⟩ := place_eq_some hplace
      obtain ⟨fs', -, hopen, -⟩ := hroot.opens (hsafe _ (mem_bindings.mpr ⟨j, hj, hslot⟩))
      exact ⟨_, fs', bind_of_ok ((bind_of_ok hlookup).trans hopen)⟩

end NoHalt

/-- **The directory refines a bounded finite map.** While the root directory is open and all allocations
succeed: every run of operations does to the map what is said of it, unless the kernel halts; an operation
does not halt if the sectors that it comes to are those of inodes; the map binds at most 16 names of 1 to 14
characters; and a scan with `dir_readdir` goes through the names that are bound, each of them once. -/
theorem directory_refines {fs : Fs} {m : List (CStr × ℕ)} (h : Directory fs m) :
    (∀ pos ops replies fs', runDir ⟨rootDirSector, pos⟩ ops fs = .ok (replies, fs') →
      ∃ m', Directory fs' m' ∧ Trace m ops replies m') ∧
    (∀ pos (op : DirOp), op.Safe fs m → ∃ reply fs', op.run ⟨rootDirSector, pos⟩ fs = .ok (reply, fs')) ∧
    (m.map Prod.fst).Nodup ∧ m.length ≤ 16 ∧
    (∀ b ∈ m, 1 ≤ b.1.chars.length ∧ b.1.chars.length ≤ 14) ∧
    scanDir dirTurns ⟨rootDirSector, 0⟩ fs = .ok (m.map Prod.fst, fs) := by
  refine ⟨fun pos ops replies fs' heq => h.runDir rfl ops replies fs' heq, fun pos op => h.runs rfl op,
    h.map.1, h.map.2.1, h.map.2.2, ?_⟩
  obtain ⟨start, mapStart, len, c, hroot, hc, rfl⟩ := h
  exact hroot.scanDir hc dirTurns 0 (Nat.zero_le _) (by decide)

/-- A blank device of 8 sectors. -/
def blankFs : Fs := ⟨⟨8, fun _ => 0, by decide⟩, [], none, [], []⟩

/-- The root directory has just been made, and is open. -/
def formatted : Op (Option Dir) := do
  filesysInit
  dirOpenRoot

theorem directory_refines_formatted :
    ∃ fs, formatted blankFs = .ok (some ⟨rootDirSector, 0⟩, fs) ∧ Directory fs [] ∧
      scanDir dirTurns ⟨rootDirSector, 0⟩ fs = .ok ([], fs) := by
  -- what the state looks like, as far as it matters
  have hrun : (formatted blankFs).toOption.any (fun r => decide (r.1 = some ⟨rootDirSector, 0⟩ ∧
      r.2.heap = [] ∧ r.2.freeMapFile = some ⟨freeMapSector, 0, false⟩ ∧
      r.2.openInodes = [⟨rootDirSector, 1, false, 0, 3, 320⟩, ⟨freeMapSector, 1, false, 0, 2, 4⟩] ∧
      r.2.dev.size = 8 ∧ r.2.dev.bytes.read (512 * 3) 320 = List.replicate 320 0)) = true := by
    decide +kernel
  obtain ⟨⟨dir, fs⟩, heq, hfs⟩ := (Option.any_eq_true ..).mp hrun
  obtain ⟨rfl, hheap, hfile, hinodes, hsize, hdata⟩ := of_decide_eq_true hfs
  have hok : formatted blankFs = .ok (some ⟨rootDirSector, 0⟩, fs) := by
    match hform : formatted blankFs with
    | .error _ =>
      rw [hform] at heq
      cases heq
    | .ok r =>
      rw [hform] at heq
      exact congrArg Except.ok (Option.some.inj heq)
  have hroot : Directory fs [] := by
    refine ⟨3, 2, 4, List.replicate 320 0, ⟨hheap, ?_, hdata, ?_, .inl (by decide)⟩, wellFormed_replicate⟩
    · refine ⟨_, ⟨by rw [hinodes]; rfl, rfl, by decide, ?_⟩, rfl, rfl, by decide⟩
      rw [hsize]
      decide
    · refine ⟨_, _, hfile, ⟨by rw [hinodes]; rfl, rfl, by decide, ?_⟩, rfl, by decide⟩
      rw [hsize]
      decide
  exact ⟨fs, hok, hroot, (directory_refines hroot).2.2.2.2.2⟩

end Filesys
end Pintos

import Pintos.Userprog.Elf

/-!
# The layout of a segment

The loop of `load_segment` goes through the pages of a segment with two counters, an address and a
position in the file. For a header that `validate_segment` accepts nothing wraps around.

* `segmentPages` — the pages, with what is to be read and to be zeroed; `loadLoop_eq` says that the
  loop adds them one after the other;
* `isPage_segmentPages` — page `k` of a segment, in numbers;
* `Phdr.Fits` — what `validate_segment` guarantees, in numbers;
* `segment_layout` — the pages of a segment hold its bytes.
-/

namespace Pintos
namespace Userprog

open Vaddr

variable {S : Type} {B : Build S}

/-! ### The loop -/

/-- The pages of a segment. -/
def segmentPages (writable : Bool) : ℕ → UInt32 → UInt32 → UInt32 → List Args
  | 0, _, _, _ => []
  | n + 1, ofs, upage, readBytes =>
    let pageReadBytes := if readBytes < pgWord then readBytes else pgWord
    ⟨upage, ofs, pageReadBytes, pgWord - pageReadBytes, writable⟩ ::
      segmentPages writable n (ofs + pageReadBytes) (upage + pgWord) (readBytes - pageReadBytes)

/-- Add pages until one fails. -/
def addPages (B : Build S) : S → List Args → Except Stop (Bool × S)
  | s, [] => return (true, s)
  | s, a :: l => do
    let (ok, s) ← B.addPage s a
    if !ok then return (false, s)
    addPages B s l

/-- The two counters after a turn. -/
theorem toNat_min_pgWord (r : UInt32) :
    (if r < pgWord then r else pgWord).toNat = min r.toNat 4096 := by
  split
  · rename_i h
    have hlt := UInt32.lt_iff_toNat_lt.mp h
    rw [toNat_pgWord] at hlt
    omega
  · rename_i h
    have hle : ¬ r.toNat < pgWord.toNat := fun hlt => h (UInt32.lt_iff_toNat_lt.mpr hlt)
    rw [toNat_pgWord] at hle ⊢
    omega

/-- **The loop of `load_segment`** ends, and adds the pages one after the other. -/
theorem loadLoop_eq (writable : Bool) {n turns : ℕ} (hturns : n < turns) (s : S)
    (ofs upage readBytes zeroBytes : UInt32)
    (hsum : readBytes.toNat + zeroBytes.toNat = 4096 * n) :
    loadLoop B writable turns s ofs upage readBytes zeroBytes =
      addPages B s (segmentPages writable n ofs upage readBytes) := by
  induction n generalizing turns s ofs upage readBytes zeroBytes with
  | zero =>
    obtain ⟨turns, rfl⟩ := Nat.exists_eq_add_of_lt hturns
    have hr : readBytes = 0 := UInt32.toNat_inj.mp (by simp; omega)
    have hz : zeroBytes = 0 := UInt32.toNat_inj.mp (by simp; omega)
    subst hr hz
    rfl
  | succ n ih =>
    cases turns with
    | zero => omega
    | succ turns =>
    set pageRead := if readBytes < pgWord then readBytes else pgWord with hpage
    have hread : pageRead.toNat = min readBytes.toNat 4096 := toNat_min_pgWord readBytes
    have hzero : (pgWord - pageRead).toNat = 4096 - pageRead.toNat :=
      toNat_sub_of_le (by rw [toNat_pgWord]; omega)
    -- what is left is a page less
    have hread' : (readBytes - pageRead).toNat = readBytes.toNat - pageRead.toNat :=
      toNat_sub_of_le (by omega)
    have hzero' : (zeroBytes - (pgWord - pageRead)).toNat =
        zeroBytes.toNat - (4096 - pageRead.toNat) := by
      rw [toNat_sub_of_le (by omega), hzero]
    have hloop : (decide (readBytes > 0) || decide (zeroBytes > 0)) = true := by
      simp only [gt_iff_lt, Bool.or_eq_true, decide_eq_true_eq, UInt32.lt_iff_toNat_lt,
        UInt32.toNat_zero]
      omega
    rw [loadLoop, if_pos hloop, segmentPages, addPages]
    refine bind_congr fun (ok, s') => ?_
    cases ok with
    | false => rfl
    | true => exact ih (Nat.lt_of_succ_lt_succ hturns) s' _ _ _ _ (by rw [← hpage, hread', hzero']; omega)

/-! ### The pages in numbers -/

theorem length_segmentPages (writable : Bool) (n : ℕ) (ofs upage readBytes : UInt32) :
    (segmentPages writable n ofs upage readBytes).length = n := by
  induction n generalizing ofs upage readBytes with
  | zero => rfl
  | succ n ih => rw [segmentPages, List.length_cons, ih]

/-- What page `k` of a segment is. -/
structure Args.IsPage (a : Args) (w : Bool) (k o u r : ℕ) : Prop where
  upage : a.upage.toNat = u + 4096 * k
  readBytes : a.readBytes.toNat = min (r - 4096 * k) 4096
  zeroBytes : a.zeroBytes.toNat = 4096 - a.readBytes.toNat
  -- unless the positions wrap around
  ofs : o + min r (4096 * k) < 2 ^ 32 → a.ofs.toNat = o + min r (4096 * k)
  writable : a.writable = w

/-- **Page `k` of a segment**, if the addresses do not wrap around. -/
theorem isPage_segmentPages {writable : Bool} {n k : ℕ} {ofs upage readBytes : UInt32}
    (hupage : upage.toNat + 4096 * n ≤ 2 ^ 32)
    (hk : k < (segmentPages writable n ofs upage readBytes).length) :
    (segmentPages writable n ofs upage readBytes)[k].IsPage writable k ofs.toNat upage.toNat
      readBytes.toNat := by
  induction n generalizing k ofs upage readBytes with
  | zero => simp [segmentPages] at hk
  | succ n ih =>
    set pageRead := if readBytes < pgWord then readBytes else pgWord with hpage
    have hread : pageRead.toNat = min readBytes.toNat 4096 := toNat_min_pgWord readBytes
    cases k with
    | zero =>
      refine ⟨by simp [segmentPages], ?_, ?_, by simp [segmentPages], rfl⟩
      · change pageRead.toNat = _
        simpa using hread
      · exact toNat_sub_of_le (by rw [toNat_pgWord, ← hpage]; omega)
    | succ k =>
      -- page `k` of what is left
      have hk' : k < (segmentPages writable n (ofs + pageRead) (upage + pgWord)
          (readBytes - pageRead)).length := by
        simpa [segmentPages] using hk
      have hn : k < n := by rwa [length_segmentPages] at hk'
      have hupage' : (upage + pgWord).toNat = upage.toNat + 4096 :=
        toNat_add_of_lt (by rw [toNat_pgWord]; omega)
      have hread' : (readBytes - pageRead).toNat = readBytes.toNat - pageRead.toNat :=
        toNat_sub_of_le (by omega)
      have hrest := ih (by omega) hk'
      rw [hupage', hread'] at hrest
      have hget : (segmentPages writable (n + 1) ofs upage readBytes)[k + 1] =
          (segmentPages writable n (ofs + pageRead) (upage + pgWord) (readBytes - pageRead))[k] := by
        simp only [segmentPages, List.getElem_cons_succ]
        rfl
      rw [hget]
      refine ⟨?_, ?_, hrest.zeroBytes, ?_, hrest.writable⟩
      · rw [hrest.upage]
        omega
      · have hleft : readBytes.toNat - pageRead.toNat - 4096 * k = readBytes.toNat - 4096 * (k + 1) := by
          omega
        rw [hrest.readBytes, hleft]
      · intro hlt
        have hmin : pageRead.toNat + min (readBytes.toNat - pageRead.toNat) (4096 * k) =
            min readBytes.toNat (4096 * (k + 1)) := by omega
        have hofs' : (ofs + pageRead).toNat = ofs.toNat + pageRead.toNat :=
          toNat_add_of_lt (by omega)
        rw [hrest.ofs (by omega)]
        omega

/-! ### Entries -/

/-- `spt'` is `spt` with the pages `l` added. -/
structure Added (spt : Spt) (l : List Args) (spt' : Spt) : Prop where
  fresh : ∀ a ∈ l, spt a.upage = none
  new : ∀ a ∈ l, spt' a.upage = some a.page
  rest : ∀ u, (∀ a ∈ l, a.upage ≠ u) → spt' u = spt u
  distinct : (l.map Args.upage).Nodup

theorem addEntry_eq_ok {ok : Bool} {spt : Spt} {u : UInt32} (p : Page) (hu : pgOfs u = 0) :
    addEntry ok spt u p =
      .ok (if ok && (spt u).isNone then (true, Function.update spt u (some p)) else (false, spt)) := by
  rw [addEntry, if_neg (not_not_intro hu)]
  split <;> rfl

/-- Adding pages does not fail in another way than by returning false. -/
theorem addPages_lazyBuild (ok : UInt32 → Bool) (spt : Spt) {l : List Args}
    (hl : ∀ a ∈ l, pgOfs a.upage = 0) :
    ∃ b spt', addPages (lazyBuild ok) spt l = .ok (b, spt') ∧ (b = true → Added spt l spt') := by
  induction l generalizing spt with
  | nil => exact ⟨true, spt, rfl, fun _ => ⟨by simp, by simp, fun _ _ => rfl, List.nodup_nil⟩⟩
  | cons a l ih =>
    have hadd : (lazyBuild ok).addPage spt a = .ok (if ok a.upage && (spt a.upage).isNone then
        (true, Function.update spt a.upage (some a.page)) else (false, spt)) :=
      addEntry_eq_ok a.page (hl a List.mem_cons_self)
    cases hok : ok a.upage && (spt a.upage).isNone with
    | false =>
      refine ⟨false, spt, ?_, by simp⟩
      rw [addPages, hadd, hok]
      rfl
    | true =>
      simp only [Bool.and_eq_true, Option.isNone_iff_eq_none] at hok
      obtain ⟨b, spt', hrest, hadded⟩ := ih (Function.update spt a.upage (some a.page))
        fun a' ha' => hl a' (List.mem_cons_of_mem a ha')
      refine ⟨b, spt', ?_, fun hb => ?_⟩
      · rw [addPages, hadd, hok.1, hok.2]
        exact hrest
      · -- the page was not there, so it is none of the later ones
        have hadded := hadded hb
        have hne : ∀ a' ∈ l, a'.upage ≠ a.upage := fun a' ha' h => by
          simpa [h] using hadded.fresh a' ha'
        refine ⟨fun a' ha' => ?_, fun a' ha' => ?_, fun u hu => ?_, ?_⟩
        · obtain rfl | ha' := List.mem_cons.mp ha'
          · exact hok.2
          · rw [← hadded.fresh a' ha', Function.update_of_ne (hne a' ha')]
        · obtain rfl | ha' := List.mem_cons.mp ha'
          · rw [hadded.rest _ hne, Function.update_self]
          · exact hadded.new a' ha'
        · rw [hadded.rest u fun a' ha' => hu a' (List.mem_cons_of_mem a ha'),
            Function.update_of_ne (Ne.symm (hu a List.mem_cons_self))]
        · refine List.nodup_cons.mpr ⟨fun hmem => ?_, hadded.distinct⟩
          obtain ⟨a', ha', h⟩ := List.mem_map.mp hmem
          exact hne a' ha' h

/-- A frame that is filled with `data` and zeroes, whatever was in it. -/
theorem splice_frame {data : List UInt8} {zeroes : ℕ} (hsum : data.length + zeroes = pgSize)
    (frame : Vector UInt8 pgSize) :
    splice (splice frame.toList 0 data) data.length (List.replicate zeroes 0) =
      data ++ List.replicate zeroes 0 := by
  have hframe : frame.toList.length = pgSize := by simp
  have hdata : splice frame.toList 0 data = data ++ frame.toList.drop data.length := by
    rw [splice, List.take_zero, List.nil_append, Nat.zero_add]
  have hend : frame.toList.drop (data.length + zeroes) = [] := List.drop_eq_nil_of_le (by omega)
  rw [hdata, splice, List.length_replicate, List.take_left, ← List.drop_drop, List.drop_left,
    List.drop_drop, hend, List.append_nil]

/-- **What `handle_mm_fault` leaves in a frame**, if the file gives all that is asked for. -/
theorem Page.fill_eq {p : Page} {img : Image} (hbin : p.bin = true)
    (hsum : p.readBytes.toNat + p.zeroBytes.toNat = pgSize)
    (hfull : (img.readAt p.ofs p.readBytes.toNat).length = p.readBytes.toNat)
    (frame : Vector UInt8 pgSize) :
    p.fill img frame =
      some (img.readAt p.ofs p.readBytes.toNat ++ List.replicate p.zeroBytes.toNat 0) := by
  rw [Page.fill, if_pos hbin]
  simp only [hfull, if_true]
  rw [← splice_frame (by rw [hfull]; exact hsum) frame, hfull]

/-! ### What `validate_segment` guarantees -/

/-- An accepted header, in numbers. -/
structure Phdr.Fits (p : Phdr) (img : Image) : Prop where
  congr : p.offset.toNat % 4096 = p.vaddr.toNat % 4096
  offset : p.offset.toNat ≤ img.bytes.length
  filesz : p.filesz.toNat ≤ p.memsz.toNat
  memsz : 0 < p.memsz.toNat
  below : p.vaddr.toNat + p.memsz.toNat < 0xC0000000
  above : 4096 ≤ p.vaddr.toNat

theorem Image.toNat_length (img : Image) : img.length.toNat = img.bytes.length := by
  have hbound := img.bound
  rw [Image.length, UInt32.toNat_ofNat_of_lt']
  exact Nat.lt_trans hbound (by decide)

theorem fits_of_validateSegment {p : Phdr} {img : Image} (h : validateSegment p img = true) :
    p.Fits img := by
  simp only [validateSegment, Bool.if_false_left, Bool.and_eq_true, Bool.not_eq_true',
    decide_eq_false_iff_not, not_not, Bool.not_eq_false, isUserVaddr_iff, gt_iff_lt,
    UInt32.lt_iff_toNat_lt, Image.toNat_length, toNat_pgWord, UInt32.toNat_add] at h
  obtain ⟨hcongr, hoffset, hfilesz, hmemsz, huser, hend, hwrap, habove, -⟩ := h
  have hcongr' := congrArg UInt32.toNat hcongr
  change (pgOfs p.offset).toNat = (pgOfs p.vaddr).toNat at hcongr'
  rw [toNat_pgOfs, toNat_pgOfs] at hcongr'
  have hpos : p.memsz.toNat ≠ 0 := fun h => hmemsz (UInt32.toNat_inj.mp h)
  -- the end is not before the start, so it has not wrapped around
  have hlt := p.memsz.toNat_lt
  exact ⟨hcongr', by omega, by omega, by omega, by omega, by omega⟩

section Numbers

variable {p : Phdr} {img : Image}

/-- The sums in `load` do not wrap around. -/
theorem Phdr.Fits.toNat_pgOfs_add (h : p.Fits img) {n : UInt32} (hn : n.toNat ≤ p.memsz.toNat) :
    (pgOfs p.vaddr + n).toNat = p.vaddr.toNat % 4096 + n.toNat := by
  have hbelow := h.below
  have hle := Nat.mod_le p.vaddr.toNat 4096
  rw [toNat_add_of_lt (by rw [toNat_pgOfs]; omega), toNat_pgOfs]

theorem Phdr.Fits.toNat_roundUp (h : p.Fits img) :
    (roundUp (pgOfs p.vaddr + p.memsz) pgWord).toNat =
      (p.vaddr.toNat % 4096 + p.memsz.toNat + 4095) / 4096 * 4096 := by
  have hbelow := h.below
  have hle := Nat.mod_le p.vaddr.toNat 4096
  have hsum := h.toNat_pgOfs_add (Nat.le_refl p.memsz.toNat)
  rw [Vaddr.toNat_roundUp (by omega), hsum]

theorem Phdr.Fits.toNat_readBytes (h : p.Fits img) :
    p.readBytes.toNat = if 0 < p.filesz.toNat then p.vaddr.toNat % 4096 + p.filesz.toNat else 0 := by
  rw [Phdr.readBytes]
  simp only [gt_iff_lt, UInt32.lt_iff_toNat_lt, UInt32.toNat_zero]
  split
  · exact h.toNat_pgOfs_add h.filesz
  · rfl

/-- The number of pages. -/
def Phdr.pages (p : Phdr) : ℕ := (p.vaddr.toNat % 4096 + p.memsz.toNat + 4095) / 4096

/-- What is read is at most what the pages hold, and the rest is zeroed. -/
theorem Phdr.Fits.readBytes_add_zeroBytes (h : p.Fits img) :
    p.readBytes.toNat + p.zeroBytes.toNat = 4096 * p.pages := by
  have hround := h.toNat_roundUp
  have hread := h.toNat_readBytes
  have hfilesz := h.filesz
  rw [Phdr.zeroBytes, Phdr.pages]
  simp only [gt_iff_lt, UInt32.lt_iff_toNat_lt, UInt32.toNat_zero]
  split
  · rename_i hpos
    rw [if_pos hpos] at hread
    rw [toNat_sub_of_le (by omega)]
    omega
  · rename_i hpos
    rw [if_neg hpos] at hread
    omega

/-- The pages of a segment reach from its first page to its last one. -/
theorem Phdr.Fits.lo_add_pages (p : Phdr) :
    p.vaddr.toNat / 4096 * 4096 + 4096 * p.pages =
      (p.vaddr.toNat + p.memsz.toNat + 4095) / 4096 * 4096 := by
  rw [Phdr.pages]
  omega

/-- The pages of the segment of a header. -/
def Phdr.segment (p : Phdr) : List Args :=
  segmentPages (decide (p.flags &&& pfW ≠ 0)) p.pages (pgRoundDown p.offset) (pgRoundDown p.vaddr)
    p.readBytes

theorem Phdr.length_segment (p : Phdr) : p.segment.length = p.pages := length_segmentPages ..

/-- The assertions of `load_segment` hold, and the one of `file_seek`. -/
theorem Phdr.Fits.loadSegment_eq (h : p.Fits img) (s : S) :
    loadSegment B manyTurns s (pgRoundDown p.offset) (pgRoundDown p.vaddr) p.readBytes p.zeroBytes
        (decide (p.flags &&& pfW ≠ 0)) =
      addPages B (B.seek s (pgRoundDown p.offset)) p.segment := by
  have hsum := h.readBytes_add_zeroBytes
  have hend := Phdr.Fits.lo_add_pages p
  have hbelow := h.below
  have hoffset := h.offset
  have hbound := img.bound
  have hassert : ¬ ((p.readBytes + p.zeroBytes) % pgWord ≠ 0 ∨ pgOfs (pgRoundDown p.vaddr) ≠ 0 ∨
      pgRoundDown p.offset % pgWord ≠ 0) := by
    simp only [not_or, not_not, toNat_pgOfs, ← UInt32.toNat_inj, UInt32.toNat_mod, toNat_pgWord,
      UInt32.toNat_add, toNat_pgRoundDown, UInt32.toNat_zero]
    omega
  have hseek : isNegative (pgRoundDown p.offset) = false := by
    rw [isNegative, decide_eq_false_iff_not, UInt32.le_iff_toNat_le, toNat_pgRoundDown]
    change ¬ 0x80000000 ≤ _
    omega
  rw [loadSegment, if_neg hassert, hseek, if_neg (by decide)]
  exact loadLoop_eq _ (by rw [manyTurns]; omega) _ _ _ _ _ hsum

end Numbers

/-! ### The bytes of a segment -/

/-- Nothing wraps around in what `load` computes for a segment. -/
structure Phdr.NoWrap (p : Phdr) : Prop where
  file : (pgOfs p.vaddr + p.filesz).toNat = (pgOfs p.vaddr).toNat + p.filesz.toNat
  mem : (pgOfs p.vaddr + p.memsz).toNat = (pgOfs p.vaddr).toNat + p.memsz.toNat
  round : (roundUp (pgOfs p.vaddr + p.memsz) pgWord).toNat =
    ((pgOfs p.vaddr).toNat + p.memsz.toNat + 4095) / 4096 * 4096
  zero : p.readBytes.toNat + p.zeroBytes.toNat =
    (roundUp (pgOfs p.vaddr + p.memsz) pgWord).toNat

/-- The entries for a segment have been added to `spt`. -/
structure Phdr.Loaded (p : Phdr) (img : Image) (spt spt' : Spt) : Prop where
  -- the pages from `p_vaddr` rounded down to the end rounded up
  recorded : ∀ u, (spt u = none ∧ spt' u ≠ none) ↔ u.toNat % 4096 = 0 ∧
    p.vaddr.toNat / 4096 * 4096 ≤ u.toNat ∧
    u.toNat < (p.vaddr.toNat + p.memsz.toNat + 4095) / 4096 * 4096
  kept : ∀ u, spt u ≠ none → spt' u = spt u
  above : 4096 ≤ p.vaddr.toNat / 4096 * 4096
  below : (p.vaddr.toNat + p.memsz.toNat + 4095) / 4096 * 4096 ≤ physBase
  -- what a fault at `p_vaddr + i` brings in, whatever the frame holds
  bytes : ∀ i < p.memsz, ∃ pg, spt' (pgRoundDown (p.vaddr + i)) = some pg ∧
    pg.writable = decide (p.flags &&& pfW ≠ 0) ∧
    ∀ frame, ∃ content, pg.fill img frame = some content ∧
      content[(pgOfs (p.vaddr + i)).toNat]? =
        if i < p.filesz then img.bytes[p.offset.toNat + i.toNat]? else some 0

theorem Phdr.Fits.noWrap {p : Phdr} {img : Image} (h : p.Fits img) : p.NoWrap := by
  have hround := h.toNat_roundUp
  have hsum := h.readBytes_add_zeroBytes
  rw [Phdr.pages] at hsum
  refine ⟨?_, ?_, ?_, ?_⟩
  · rw [h.toNat_pgOfs_add h.filesz, toNat_pgOfs]
  · rw [h.toNat_pgOfs_add (Nat.le_refl _), toNat_pgOfs]
  · rw [hround, toNat_pgOfs]
  · rw [hround, hsum, Nat.mul_comm]

section Bytes

variable {p : Phdr} {img : Image} {a : Args} {k : ℕ}

/-- What page `k` of the segment of `p` is. -/
def Phdr.IsPage (p : Phdr) (k : ℕ) (a : Args) : Prop :=
  a.IsPage (decide (p.flags &&& pfW ≠ 0)) k (p.offset.toNat / 4096 * 4096)
    (p.vaddr.toNat / 4096 * 4096) p.readBytes.toNat

theorem Phdr.Fits.isPage (h : p.Fits img) (hk : k < p.segment.length) :
    p.IsPage k p.segment[k] := by
  have hend := Phdr.Fits.lo_add_pages p
  have hbelow := h.below
  have hupage : (pgRoundDown p.vaddr).toNat + 4096 * p.pages ≤ 2 ^ 32 := by
    rw [toNat_pgRoundDown]
    omega
  have hpage := isPage_segmentPages hupage hk
  rwa [toNat_pgRoundDown, toNat_pgRoundDown] at hpage

/-- What is read for page `k` is in the file, if the segment is. -/
theorem Phdr.Fits.ofs_add_readBytes (h : p.Fits img)
    (hfit : p.offset.toNat + p.filesz.toNat ≤ img.bytes.length) (ha : p.IsPage k a) :
    a.ofs.toNat = p.offset.toNat / 4096 * 4096 + min p.readBytes.toNat (4096 * k) ∧
      a.ofs.toNat + a.readBytes.toNat ≤ img.bytes.length := by
  have hread := h.toNat_readBytes
  have hcongr := h.congr
  have hbound := img.bound
  have hbytes := ha.readBytes
  have hle : p.offset.toNat / 4096 * 4096 + p.readBytes.toNat ≤ img.bytes.length := by
    have hoffset := h.offset
    split at hread <;> omega
  have hofs := ha.ofs (by omega)
  omega

/-- Byte `j` of page `k`, whatever the frame holds. -/
theorem Phdr.Fits.fill_page (h : p.Fits img)
    (hfit : p.offset.toNat + p.filesz.toNat ≤ img.bytes.length) (ha : p.IsPage k a) {j : ℕ}
    (hj : j < 4096) (frame : Vector UInt8 pgSize) :
    ∃ content, a.page.fill img frame = some content ∧
      content[j]? = if 4096 * k + j < p.readBytes.toNat
        then img.bytes[p.offset.toNat / 4096 * 4096 + (4096 * k + j)]? else some 0 := by
  have hread := ha.readBytes
  have hzero := ha.zeroBytes
  obtain ⟨hofs, hfile⟩ := h.ofs_add_readBytes hfit ha
  have hfull : (img.readAt a.ofs a.readBytes.toNat).length = a.readBytes.toNat := by
    rw [Image.readAt, List.length_take, List.length_drop]
    omega
  refine ⟨_, Page.fill_eq rfl ?_ hfull frame, ?_⟩
  · change a.readBytes.toNat + a.zeroBytes.toNat = 4096
    omega
  · change (img.readAt a.ofs a.readBytes.toNat ++ List.replicate a.zeroBytes.toNat 0)[j]? = _
    split
    · rename_i hlt
      have hj' : j < a.readBytes.toNat := by omega
      have hpos : a.ofs.toNat + j = p.offset.toNat / 4096 * 4096 + (4096 * k + j) := by omega
      rw [List.getElem?_append_left (by omega), Image.readAt, List.getElem?_take_of_lt hj',
        List.getElem?_drop, hpos]
    · rename_i hge
      rw [List.getElem?_append_right (by omega), List.getElem?_replicate, if_pos (by omega)]

/-- Every page of the range is one of the pages of the segment. -/
theorem Phdr.Fits.exists_page (h : p.Fits img) {u : UInt32}
    (hu : u.toNat % 4096 = 0) (hlo : p.vaddr.toNat / 4096 * 4096 ≤ u.toNat)
    (hhi : u.toNat < (p.vaddr.toNat + p.memsz.toNat + 4095) / 4096 * 4096) :
    ∃ k, ∃ a ∈ p.segment, p.IsPage k a ∧ a.upage = u := by
  have hend := Phdr.Fits.lo_add_pages p
  have hlen := p.length_segment
  have hk : (u.toNat - p.vaddr.toNat / 4096 * 4096) / 4096 < p.segment.length := by omega
  have hpage := h.isPage hk
  refine ⟨_, _, List.getElem_mem hk, hpage, UInt32.toNat_inj.mp ?_⟩
  rw [hpage.upage]
  omega

/-- And every page of the segment is in the range. -/
theorem Phdr.Fits.mem_segment (h : p.Fits img) (ha : a ∈ p.segment) :
    a.upage.toNat % 4096 = 0 ∧ p.vaddr.toNat / 4096 * 4096 ≤ a.upage.toNat ∧
      a.upage.toNat < (p.vaddr.toNat + p.memsz.toNat + 4095) / 4096 * 4096 := by
  obtain ⟨k, hk, rfl⟩ := List.mem_iff_getElem.mp ha
  have hend := Phdr.Fits.lo_add_pages p
  have hlen := p.length_segment
  rw [(h.isPage hk).upage]
  omega

/-- The byte at `p_vaddr + i`. -/
theorem Phdr.Fits.fill_byte (h : p.Fits img)
    (hfit : p.offset.toNat + p.filesz.toNat ≤ img.bytes.length) (ha : p.IsPage k a) {i : UInt32}
    (hi : i < p.memsz) (hat : a.upage = pgRoundDown (p.vaddr + i)) (frame : Vector UInt8 pgSize) :
    ∃ content, a.page.fill img frame = some content ∧
      content[(pgOfs (p.vaddr + i)).toNat]? =
        if i < p.filesz then img.bytes[p.offset.toNat + i.toNat]? else some 0 := by
  have hbelow := h.below
  have hlt := UInt32.lt_iff_toNat_lt.mp hi
  have hsum : (p.vaddr + i).toNat = p.vaddr.toNat + i.toNat := toNat_add_of_lt (by omega)
  have hofs : (pgOfs (p.vaddr + i)).toNat = (p.vaddr.toNat + i.toNat) % 4096 := by
    rw [toNat_pgOfs, hsum]
  have hupage := ha.upage
  rw [hat, toNat_pgRoundDown, hsum] at hupage
  have hk : 4096 * k + (p.vaddr.toNat + i.toNat) % 4096 = p.vaddr.toNat % 4096 + i.toNat := by omega
  obtain ⟨content, hfill, hbyte⟩ := h.fill_page hfit ha (Nat.mod_lt _ (by decide)) frame
  refine ⟨content, hfill, ?_⟩
  -- the part of the file ends where the bytes that are read end
  have hread := h.toNat_readBytes
  have hiff : p.vaddr.toNat % 4096 + i.toNat < p.readBytes.toNat ↔ i < p.filesz := by
    rw [UInt32.lt_iff_toNat_lt]
    split at hread <;> omega
  have hpos : p.offset.toNat / 4096 * 4096 + (p.vaddr.toNat % 4096 + i.toNat) =
      p.offset.toNat + i.toNat := by
    rw [← Nat.add_assoc, ← h.congr, Nat.mul_comm, Nat.div_add_mod]
  rw [hofs, hbyte, hk, hpos]
  simp only [hiff]

/-- The entries for the pages of an accepted segment hold its bytes. -/
theorem Phdr.Fits.loaded (h : p.Fits img)
    (hfit : p.offset.toNat + p.filesz.toNat ≤ img.bytes.length) {spt spt' : Spt}
    (hadded : Added spt p.segment spt') : p.Loaded img spt spt' := by
  have hbelow := h.below
  have habove := h.above
  refine ⟨fun u => ⟨fun ⟨hnone, hsome⟩ => ?_, fun ⟨hu, hlo, hhi⟩ => ?_⟩, fun u hu => ?_, by omega,
    by rw [physBase]; omega, fun i hi => ?_⟩
  · -- an entry that is new is one of the pages
    by_contra hout
    refine hsome ((hadded.rest u fun a ha hau => hout ?_).trans hnone)
    rw [← hau]
    exact h.mem_segment ha
  · obtain ⟨k, a, ha, -, rfl⟩ := h.exists_page hu hlo hhi
    exact ⟨hadded.fresh a ha, by rw [hadded.new a ha]; simp⟩
  · exact hadded.rest u fun a ha hau => hu (hau ▸ hadded.fresh a ha)
  · have hlt := UInt32.lt_iff_toNat_lt.mp hi
    have hsum : (p.vaddr + i).toNat = p.vaddr.toNat + i.toNat := toNat_add_of_lt (by omega)
    have hround : (pgRoundDown (p.vaddr + i)).toNat = (p.vaddr.toNat + i.toNat) / 4096 * 4096 := by
      rw [toNat_pgRoundDown, hsum]
    obtain ⟨k, a, ha, hpage, hau⟩ := h.exists_page
      (show (pgRoundDown (p.vaddr + i)).toNat % 4096 = 0 by omega) (by omega) (by omega)
    exact ⟨a.page, hau ▸ hadded.new a ha, hpage.writable, h.fill_byte hfit hpage hi hau⟩

end Bytes

/-- **The layout of a segment.** For a header that `validate_segment` accepts, and whose part of the
file is there, nothing wraps around, `load_segment` ends without a failed assertion, and if it returns
true the segment has been loaded. -/
theorem segment_layout {p : Phdr} {img : Image} (hvalid : validateSegment p img = true)
    (hfit : p.offset.toNat + p.filesz.toNat ≤ img.bytes.length) :
    p.NoWrap ∧ ∀ (ok : UInt32 → Bool) (spt : Spt), ∃ b spt',
      loadSegment (lazyBuild ok) manyTurns spt (p.offset &&& ~~~pgMask) (p.vaddr &&& ~~~pgMask)
          p.readBytes p.zeroBytes (decide (p.flags &&& pfW ≠ 0)) = .ok (b, spt') ∧
        (b = true → p.Loaded img spt spt') := by
  have h := fits_of_validateSegment hvalid
  refine ⟨h.noWrap, fun ok spt => ?_⟩
  obtain ⟨b, spt', hadd, hadded⟩ := addPages_lazyBuild ok spt
    fun a ha => pgOfs_eq_zero.mpr (h.mem_segment ha).1
  exact ⟨b, spt', (h.loadSegment_eq spt).trans hadd, fun hb => h.loaded hfit (hadded hb)⟩

/-- A header whose last page is half file and half zeroes. -/
def mixedPhdr : Phdr := ⟨ptLoad, 4100, 0x8049004, 2, 5000, pfW⟩

/-- A file that is just long enough for it. -/
def mixedImage : Image := ⟨List.replicate 4102 7, by rw [List.length_replicate]; decide⟩

theorem segment_layout_mixed :
    validateSegment mixedPhdr mixedImage = true ∧ mixedPhdr.NoWrap ∧ ∀ spt, ∃ b spt',
      loadSegment (lazyBuild fun _ => true) manyTurns spt (mixedPhdr.offset &&& ~~~pgMask)
          (mixedPhdr.vaddr &&& ~~~pgMask) mixedPhdr.readBytes mixedPhdr.zeroBytes
          (decide (mixedPhdr.flags &&& pfW ≠ 0)) = .ok (b, spt') ∧
        (b = true → mixedPhdr.Loaded mixedImage spt spt') := by
  have hlen : mixedImage.bytes.length = 4102 := List.length_replicate ..
  have hvalid : validateSegment mixedPhdr mixedImage = true := by
    rw [validateSegment, Image.length, hlen]
    decide
  have hlayout := segment_layout hvalid (by rw [hlen]; decide)
  exact ⟨hvalid, hlayout.1, hlayout.2 fun _ => true⟩

end Userprog
end Pintos

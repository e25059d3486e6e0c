import Pintos.Userprog.Arguments
import Pintos.Userprog.Segment

/-!
# Lazy and eager loading

Without `VM`, `load` reads every page of the executable at once; with it, `load` only writes down what is
to be read, and `handle_mm_fault` reads it when the page is used. What the two builds share is a list of
segments, each a list of pages (`load_eq_ok_iff`).

* `lazy_simulates_eager` — an executable that the eager build loads is loaded by the lazy one, and the
  process sees the same bytes; both reject overlapping pages;
* `pagedIn_iff` — what the lazy build accepts can be brought in exactly if the segments are in the file,
  which `validate_segment` does not check.
-/

namespace Pintos
namespace Userprog

open Vaddr

variable {S : Type} {B : Build S} {img : Image}

/-! ### The segments of an executable -/

/-- `n` program headers from a position on. -/
def Image.phdrs (img : Image) : ℕ → UInt32 → List Phdr
  | 0, _ => []
  | n + 1, ofs => .ofBytes (img.readAt ofs phdrSize) :: img.phdrs n (ofs + UInt32.ofNat phdrSize)

/-- Each of these headers can be read, and stops `load` neither by its type nor by its fields. -/
def Image.ReadsPhdrs (img : Image) : ℕ → UInt32 → Prop
  | 0, _ => True
  | n + 1, ofs =>
    ¬ (isNegative ofs ∨ ofs > img.length) ∧ (img.readAt ofs phdrSize).length = phdrSize ∧
      (let p := Phdr.ofBytes (img.readAt ofs phdrSize)
       if p.type = ptLoad then validateSegment p img = true else p.type ∉ ptRefused) ∧
      img.ReadsPhdrs n (ofs + UInt32.ofNat phdrSize)

/-- The executable header. -/
def Image.ehdr (img : Image) : Ehdr := .ofBytes (img.readAt 0 ehdrSize)

/-- The headers of an executable are as `load` wants them. -/
structure Image.Accepted (img : Image) : Prop where
  full : (img.readAt 0 ehdrSize).length = ehdrSize
  valid : img.ehdr.valid = true
  phdrs : img.ReadsPhdrs img.ehdr.phnum.toNat img.ehdr.phoff

/-- The segments of an executable. -/
def Image.segments (img : Image) : List Phdr :=
  (img.phdrs img.ehdr.phnum.toNat img.ehdr.phoff).filter (·.type = ptLoad)

/-- The pages of its segments and of the stack. -/
def Image.pages (img : Image) : List UInt32 :=
  (img.segments.flatMap Phdr.segment).map Args.upage ++ [stackPage]

/-- Add the segments until one fails. -/
def addSegments (B : Build S) : S → List Phdr → Except Stop (Bool × S)
  | s, [] => return (true, s)
  | s, p :: l => do
    let (ok, s) ← addPages B (B.seek s (pgRoundDown p.offset)) p.segment
    if !ok then return (false, s)
    addSegments B s l

/-- One step after the other, as long as they succeed. -/
theorem bind_eq_ok {T : Type} {t : T} (x : Except Stop (Bool × S)) (r : S → T)
    (f : S → Except Stop T) (hr : ∀ s, r s ≠ t) :
    (x >>= fun y => if !y.1 then pure (r y.2) else f y.2) = .ok t ↔
      ∃ s, x = .ok (true, s) ∧ f s = .ok t := by
  obtain _ | ⟨ok, s⟩ := x
  · simp [bind, Except.bind]
  · cases ok <;> simp [bind, Except.bind, pure, Except.pure, hr]

theorem addPages_cons {a : Args} {l : List Args} {s s' : S} :
    addPages B s (a :: l) = .ok (true, s') ↔
      ∃ s₁, B.addPage s a = .ok (true, s₁) ∧ addPages B s₁ l = .ok (true, s') :=
  bind_eq_ok (B.addPage s a) (false, ·) (fun s => addPages B s l) (by simp)

theorem addSegments_cons {p : Phdr} {l : List Phdr} {s s' : S} :
    addSegments B s (p :: l) = .ok (true, s') ↔
      ∃ s₁, addPages B (B.seek s (pgRoundDown p.offset)) p.segment = .ok (true, s₁) ∧
        addSegments B s₁ l = .ok (true, s') :=
  bind_eq_ok (addPages B (B.seek s (pgRoundDown p.offset)) p.segment) (false, ·)
    (fun s => addSegments B s l) (by simp)

theorem addSegments_append {l l' : List Phdr} {s s' : S} :
    addSegments B s (l ++ l') = .ok (true, s') ↔
      ∃ s₁, addSegments B s l = .ok (true, s₁) ∧ addSegments B s₁ l' = .ok (true, s') := by
  induction l generalizing s with
  | nil => simp [addSegments, pure, Except.pure]
  | cons p l ih =>
    rw [List.cons_append, addSegments_cons]
    simp only [addSegments_cons, ih]
    constructor
    · rintro ⟨s₁, hp, s₂, hl, hl'⟩
      exact ⟨s₂, ⟨s₁, hp, hl⟩, hl'⟩
    · rintro ⟨s₂, ⟨s₁, hp, hl⟩, hl'⟩
      exact ⟨s₁, hp, s₂, hl, hl'⟩

/-- A header is dealt with. -/
theorem loadPhdr_eq_ok_iff {p : Phdr} {s s' : S} :
    loadPhdr B manyTurns img s p = .ok (true, s') ↔
      (if p.type = ptLoad then validateSegment p img = true else p.type ∉ ptRefused) ∧
        addSegments B s ([p].filter (·.type = ptLoad)) = .ok (true, s') := by
  by_cases hload : p.type = ptLoad
  · have hfilter : [p].filter (·.type = ptLoad) = [p] := by simp [hload]
    rw [loadPhdr, if_pos hload, if_pos hload, hfilter, addSegments_cons]
    by_cases hvalid : validateSegment p img = true
    · have hseg := (fits_of_validateSegment hvalid).loadSegment_eq (B := B) s
      rw [if_pos hvalid]
      refine (iff_of_eq (congrArg (· = _) hseg)).trans ⟨fun h => ⟨hvalid, s', h, rfl⟩, ?_⟩
      rintro ⟨-, s₁, h, hs⟩
      cases hs
      exact h
    · rw [if_neg hvalid]
      exact ⟨fun h => (by cases h), fun h => absurd h.1 hvalid⟩
  · have hfilter : [p].filter (·.type = ptLoad) = [] := by simp [hload]
    rw [loadPhdr, if_neg hload, if_neg hload, hfilter]
    simp [addSegments, pure, Except.pure]

/-- **The loop over the program headers** adds the segments one after the other. -/
theorem loadPhdrs_eq_ok_iff {n : ℕ} {ofs : UInt32} {s s' : S} :
    loadPhdrs B manyTurns img n s ofs = .ok (true, s') ↔ img.ReadsPhdrs n ofs ∧
      addSegments B s ((img.phdrs n ofs).filter (·.type = ptLoad)) = .ok (true, s') := by
  induction n generalizing s ofs with
  | zero => simp [loadPhdrs, Image.ReadsPhdrs, Image.phdrs, addSegments]
  | succ n ih =>
    rw [loadPhdrs, Image.ReadsPhdrs, Image.phdrs]
    by_cases hpos : isNegative ofs ∨ ofs > img.length
    · rw [if_pos hpos]
      exact ⟨fun h => (by cases h), fun h => absurd hpos h.1.1⟩
    by_cases hfull : (img.readAt ofs phdrSize).length = phdrSize
    · rw [if_neg hpos, if_neg (not_not_intro hfull)]
      set p := Phdr.ofBytes (img.readAt ofs phdrSize)
      refine (bind_eq_ok (loadPhdr B manyTurns img s p) (false, ·)
        (fun s => loadPhdrs B manyTurns img n s (ofs + UInt32.ofNat phdrSize)) (by simp)).trans ?_
      rw [← List.singleton_append, List.filter_append, addSegments_append]
      simp only [loadPhdr_eq_ok_iff, ih]
      constructor
      · rintro ⟨s₁, ⟨hp, hadd⟩, hreads, hrest⟩
        exact ⟨⟨hpos, hfull, hp, hreads⟩, s₁, hadd, hrest⟩
      · rintro ⟨⟨-, -, hp, hreads⟩, s₁, hadd, hrest⟩
        exact ⟨s₁, ⟨hp, hadd⟩, hreads, hrest⟩
    · rw [if_neg hpos, if_pos hfull]
      exact ⟨fun h => (by cases h), fun h => absurd h.1.2.1 hfull⟩

/-- **`load`** succeeds if the headers are accepted, and the pages of the segments and of the stack can
be added. -/
theorem load_eq_ok_iff {s s' : S} {eip : UInt32} :
    load B manyTurns img s = .ok (some eip, s') ↔ img.Accepted ∧ eip = img.ehdr.entry ∧
      ∃ s₁, addSegments B s img.segments = .ok (true, s₁) ∧ B.setupStack s₁ = .ok (true, s') := by
  rw [load]
  by_cases hfull : (img.readAt 0 ehdrSize).length = ehdrSize
  · rw [if_neg (not_not_intro hfull)]
    change (if (!img.ehdr.valid) = true then pure (none, s) else _) = _ ↔ _
    cases hvalid : img.ehdr.valid with
    | true =>
      refine (bind_eq_ok (loadPhdrs B manyTurns img img.ehdr.phnum.toNat s img.ehdr.phoff) (none, ·)
        (fun s => B.setupStack s >>= fun y => if !y.1 then pure (none, y.2)
          else pure (some img.ehdr.entry, y.2)) (by simp)).trans ?_
      constructor
      · rintro ⟨s₁, hload, hrest⟩
        obtain ⟨s₂, hstack, h⟩ := (bind_eq_ok (t := (some eip, s')) (B.setupStack s₁) (none, ·)
          (fun s => pure (some img.ehdr.entry, s)) (by simp)).mp hrest
        obtain ⟨hreads, hadd⟩ := loadPhdrs_eq_ok_iff.mp hload
        cases h
        exact ⟨⟨hfull, hvalid, hreads⟩, rfl, s₁, hadd, hstack⟩
      · rintro ⟨haccepted, rfl, s₁, hadd, hstack⟩
        refine ⟨s₁, loadPhdrs_eq_ok_iff.mpr ⟨haccepted.phdrs, hadd⟩, ?_⟩
        rw [hstack]
        rfl
    | false => exact ⟨fun h => (by cases h), fun h => absurd h.1.valid (by rw [hvalid]; decide)⟩
  · rw [if_pos hfull]
    exact ⟨fun h => (by cases h), fun h => absurd h.1.full hfull⟩

/-- The segments of an accepted executable fit. -/
theorem fits_of_mem_phdrs {n : ℕ} {ofs : UInt32} {p : Phdr} (h : img.ReadsPhdrs n ofs)
    (hp : p ∈ img.phdrs n ofs) (hload : p.type = ptLoad) : p.Fits img := by
  induction n generalizing ofs with
  | zero => simp [Image.phdrs] at hp
  | succ n ih =>
    obtain ⟨-, -, hvalid, hrest⟩ := h
    obtain rfl | hp := List.mem_cons.mp hp
    · exact fits_of_validateSegment (by simpa only [if_pos hload] using hvalid)
    · exact ih hrest hp

theorem Image.Accepted.fits (h : img.Accepted) {p : Phdr} (hp : p ∈ img.segments) : p.Fits img := by
  obtain ⟨hp, hload⟩ := List.mem_filter.mp hp
  exact fits_of_mem_phdrs h.phdrs hp (of_decide_eq_true hload)

/-! ### What the lazy build writes down -/

section Lazy

variable {ok : UInt32 → Bool} {spt spt₁ spt' : Spt}

theorem Added.append {l l' : List Args} (h : Added spt l spt₁) (h' : Added spt₁ l' spt') :
    Added spt (l ++ l') spt' := by
  -- a page of `l` is there when those of `l'` are added
  have hne : ∀ a ∈ l, ∀ a' ∈ l', a'.upage ≠ a.upage := by
    intro a ha a' ha' heq
    have hnone := h'.fresh a' ha'
    rw [heq, h.new a ha] at hnone
    cases hnone
  refine ⟨fun a ha => ?_, fun a ha => ?_, fun u hu => ?_, ?_⟩
  · obtain ha | ha := List.mem_append.mp ha
    · exact h.fresh a ha
    · rw [← h.rest a.upage fun b hb => Ne.symm (hne b hb a ha)]
      exact h'.fresh a ha
  · obtain ha | ha := List.mem_append.mp ha
    · rw [h'.rest a.upage (hne a ha)]
      exact h.new a ha
    · exact h'.new a ha
  · rw [h'.rest u fun a ha => hu a (List.mem_append_right l ha),
      h.rest u fun a ha => hu a (List.mem_append_left l' ha)]
  · rw [List.map_append]
    refine List.nodup_append.mpr ⟨h.distinct, h'.distinct, fun u hu u' hu' heq => ?_⟩
    obtain ⟨a, ha, rfl⟩ := List.mem_map.mp hu
    obtain ⟨a', ha', rfl⟩ := List.mem_map.mp hu'
    exact hne a ha a' ha' heq.symm

theorem Phdr.Fits.added {p : Phdr} (h : p.Fits img)
    (hadd : addPages (lazyBuild ok) spt p.segment = .ok (true, spt')) : Added spt p.segment spt' := by
  obtain ⟨b, spt₁, heq, hadded⟩ := addPages_lazyBuild ok spt
    fun a ha => pgOfs_eq_zero.mpr (h.mem_segment ha).1
  cases hadd.symm.trans heq
  exact hadded rfl

theorem addSegments_lazyBuild {l : List Phdr} (hl : ∀ p ∈ l, p.Fits img)
    (hadd : addSegments (lazyBuild ok) spt l = .ok (true, spt')) :
    Added spt (l.flatMap Phdr.segment) spt' := by
  induction l generalizing spt with
  | nil =>
    cases hadd
    exact ⟨by simp, by simp, fun _ _ => rfl, List.nodup_nil⟩
  | cons p l ih =>
    obtain ⟨spt₁, hp, hrest⟩ := addSegments_cons.mp hadd
    have hadded := (hl p List.mem_cons_self).added hp
    exact hadded.append (ih (fun q hq => hl q (List.mem_cons_of_mem p hq)) hrest)

theorem setupStack_lazyBuild :
    (lazyBuild ok).setupStack spt₁ = .ok (true, spt') ↔ ok stackPage = true ∧
      spt₁ stackPage = none ∧ spt' = Function.update spt₁ stackPage (some (anonPage true)) := by
  have haligned : pgOfs stackPage = 0 := by decide
  change addEntry (ok stackPage) spt₁ stackPage (anonPage true) = _ ↔ _
  rw [addEntry_eq_ok (anonPage true) haligned]
  cases hok : ok stackPage && (spt₁ stackPage).isNone with
  | false =>
    simp only [Bool.and_eq_false_iff, Option.isNone_eq_false_iff] at hok
    refine ⟨fun h => (by cases h), fun ⟨h, hnone, _⟩ => ?_⟩
    rw [h, hnone] at hok
    simp at hok
  | true =>
    simp only [Bool.and_eq_true, Option.isNone_iff_eq_none] at hok
    exact ⟨fun h => ⟨hok.1, hok.2, by cases h; rfl⟩, fun ⟨_, _, h⟩ => h ▸ rfl⟩

/-- What a successful `load` has written down. -/
structure Recorded (img : Image) (spt : Spt) : Prop where
  distinct : img.pages.Nodup
  entry : ∀ u pg, spt u = some pg ↔
    (∃ p ∈ img.segments, ∃ a ∈ p.segment, a.upage = u ∧ a.page = pg) ∨
      u = stackPage ∧ anonPage true = pg

theorem recorded_of_load {eip : UInt32}
    (h : load (lazyBuild ok) manyTurns img (fun _ => none) = .ok (some eip, spt)) :
    Recorded img spt := by
  obtain ⟨haccepted, -, spt₁, hadd, hstack⟩ := load_eq_ok_iff.mp h
  have hadded := addSegments_lazyBuild (fun p hp => haccepted.fits hp) hadd
  obtain ⟨-, hnone, rfl⟩ := setupStack_lazyBuild.mp hstack
  have hne : ∀ a ∈ img.segments.flatMap Phdr.segment, a.upage ≠ stackPage := by
    intro a ha heq
    rw [← heq, hadded.new a ha] at hnone
    cases hnone
  constructor
  · refine List.nodup_append.mpr ⟨hadded.distinct, List.pairwise_singleton .., fun u hu u' hu' heq => ?_⟩
    obtain ⟨a, ha, rfl⟩ := List.mem_map.mp hu
    exact hne a ha (heq.trans (List.mem_singleton.mp hu'))
  · intro u pg
    by_cases hu : u = stackPage
    · subst hu
      rw [Function.update_self, Option.some_inj]
      refine ⟨fun h => .inr ⟨rfl, h⟩, ?_⟩
      rintro (⟨p, hp, a, ha, hau, -⟩ | ⟨-, h⟩)
      · exact absurd hau (hne a (List.mem_flatMap.mpr ⟨p, hp, ha⟩))
      · exact h
    · rw [Function.update_of_ne hu]
      constructor
      · intro hpg
        by_contra hout
        simp only [not_or, not_exists, not_and] at hout
        -- an entry that is none of the pages was there at first
        refine absurd (hpg.symm.trans (hadded.rest u fun a ha hau => ?_)) (by simp)
        obtain ⟨p, hp, ha⟩ := List.mem_flatMap.mp ha
        have hnew := hadded.new a (List.mem_flatMap.mpr ⟨p, hp, ha⟩)
        rw [hau, hpg, Option.some_inj] at hnew
        exact hout.1 p hp a ha hau hnew.symm
      · rintro (⟨p, hp, a, ha, rfl, rfl⟩ | ⟨h, -⟩)
        · exact hadded.new a (List.mem_flatMap.mpr ⟨p, hp, ha⟩)
        · exact absurd h hu

end Lazy

/-! ### Bringing pages in -/

/-- The read that `handle_mm_fault` makes for an entry is complete, whatever the frame holds. -/
def PagedIn (img : Image) (pg : Page) : Prop := ∀ frame, (pg.fill img frame).isSome = true

/-- A segment that ends behind the file has a page whose read is short. -/
theorem Phdr.Fits.exists_short {p : Phdr} (h : p.Fits img)
    (hlong : img.bytes.length < p.offset.toNat + p.filesz.toNat) :
    ∃ a ∈ p.segment, ¬ PagedIn img a.page := by
  have hread := h.toNat_readBytes
  have hsum := h.readBytes_add_zeroBytes
  have hcongr := h.congr
  have hoffset := h.offset
  have hbound := img.bound
  rw [if_pos (by omega)] at hread
  -- the page that holds the end of the file
  have hk : (img.bytes.length - p.offset.toNat / 4096 * 4096) / 4096 < p.segment.length := by
    rw [p.length_segment]
    omega
  have hpage := h.isPage hk
  refine ⟨_, List.getElem_mem hk, fun hin => ?_⟩
  set a := p.segment[(img.bytes.length - p.offset.toNat / 4096 * 4096) / 4096]
  have hbytes := hpage.readBytes
  have hofs := hpage.ofs (by omega)
  have hlt : (img.readAt a.ofs a.readBytes.toNat).length ≠ a.readBytes.toNat := by
    rw [Image.readAt, List.length_take, List.length_drop]
    omega
  have hfill := hin (Vector.replicate pgSize 0)
  have hbin : a.page.bin = true := rfl
  rw [Page.fill, if_pos hbin] at hfill
  simp only [show a.page.readBytes = a.readBytes from rfl, show a.page.ofs = a.ofs from rfl,
    if_neg hlt, Option.isSome_none] at hfill
  cases hfill

/-- **Paging in what was accepted.** After `load` has returned true, each entry that it has written down
can be brought in if and only if each segment lies in the file as far as it is to be read. -/
theorem pagedIn_iff {img : Image} {ok : UInt32 → Bool} {eip : UInt32} {spt : Spt}
    (h : load (lazyBuild ok) manyTurns img (fun _ => none) = .ok (some eip, spt)) :
    (∀ u pg, spt u = some pg → PagedIn img pg) ↔
      ∀ p ∈ img.segments, p.offset.toNat + p.filesz.toNat ≤ img.bytes.length := by
  have hrecorded := recorded_of_load h
  have haccepted := (load_eq_ok_iff.mp h).1
  constructor
  · intro hin p hp
    by_contra hlong
    obtain ⟨a, ha, hshort⟩ := (haccepted.fits hp).exists_short (by omega)
    exact hshort (hin a.upage a.page ((hrecorded.entry _ _).mpr (.inl ⟨p, hp, a, ha, rfl, rfl⟩)))
  · intro hfit u pg hpg frame
    obtain ⟨p, hp, a, ha, -, rfl⟩ | ⟨-, rfl⟩ := (hrecorded.entry u pg).mp hpg
    · obtain ⟨k, hk, rfl⟩ := List.mem_iff_getElem.mp ha
      have hfits := haccepted.fits hp
      obtain ⟨content, hfill, -⟩ := hfits.fill_page (hfit p hp) (hfits.isPage hk) (j := 0) (by decide) frame
      rw [hfill]
      rfl
    · rfl

/-- A small executable, whose only segment is to be read from the start of the file on: `filesz` bytes
in a page at `0x8048000`. -/
def tinyElf (filesz : ℕ) : Image where
  bytes :=
    -- the executable header
    [0x7f, 0x45, 0x4c, 0x46, 1, 1, 1, 0, 0, 0, 0, 0, 0, 0, 0, 0] ++ leBytes 2 2 ++ leBytes 2 3 ++
      leBytes 4 1 ++ leBytes 4 0x8048000 ++ leBytes 4 52 ++ leBytes 4 0 ++ leBytes 4 0 ++ leBytes 2 52 ++
      leBytes 2 32 ++ leBytes 2 1 ++ leBytes 2 0 ++ leBytes 2 0 ++ leBytes 2 0 ++
    -- the program header
    (leBytes 4 1 ++ leBytes 4 0 ++ leBytes 4 0x8048000 ++ leBytes 4 0x8048000 ++ leBytes 4 filesz ++
      leBytes 4 4096 ++ leBytes 4 5 ++ leBytes 4 4096)
  bound := by simp

theorem exists_of_load (B : Build S) (img : Image) (s : S)
    (h : (load B manyTurns img s).toOption.any (·.1.isSome) = true) :
    ∃ eip s', load B manyTurns img s = .ok (some eip, s') := by
  match hload : load B manyTurns img s with
  | .error _ =>
    rw [hload] at h
    cases h
  | .ok (none, _) =>
    rw [hload] at h
    cases h
  | .ok (some eip, s') => exact ⟨eip, s', rfl⟩

theorem pagedIn_tinyElf :
    (∃ eip spt, load (lazyBuild fun _ => true) manyTurns (tinyElf 84) (fun _ => none) =
      .ok (some eip, spt) ∧ ∀ u pg, spt u = some pg → PagedIn (tinyElf 84) pg) ∧
    (tinyElf 84).segments.length = 1 := by
  obtain ⟨eip, spt, h⟩ := exists_of_load (lazyBuild fun _ => true) (tinyElf 84) (fun _ => none)
    (by decide +kernel)
  exact ⟨⟨eip, spt, h, (pagedIn_iff h).mpr (by decide +kernel)⟩, by decide +kernel⟩

/-- A file that has been cut off is loaded, but its page cannot be brought in. -/
theorem not_pagedIn_tinyElf :
    ∃ eip spt, load (lazyBuild fun _ => true) manyTurns (tinyElf 4096) (fun _ => none) =
      .ok (some eip, spt) ∧ ∃ u pg, spt u = some pg ∧ ¬ PagedIn (tinyElf 4096) pg := by
  obtain ⟨eip, spt, h⟩ := exists_of_load (lazyBuild fun _ => true) (tinyElf 4096) (fun _ => none)
    (by decide +kernel)
  have hlong : ∃ p ∈ (tinyElf 4096).segments,
      (tinyElf 4096).bytes.length < p.offset.toNat + p.filesz.toNat := by
    decide +kernel
  obtain ⟨p, hp, hlong⟩ := hlong
  obtain ⟨a, ha, hshort⟩ := ((load_eq_ok_iff.mp h).1.fits hp).exists_short hlong
  exact ⟨eip, spt, h, a.upage, a.page,
    ((recorded_of_load h).entry _ _).mpr (.inl ⟨p, hp, a, ha, rfl, rfl⟩), hshort⟩

/-! ### The eager build -/

/-- The process sees the same pages, whatever the frames hold that are used for them. -/
structure SameSpace (img : Image) (s : Eager) (spt : Spt) : Prop where
  mapped : ∀ u, s.pages u = none ↔ spt u = none
  same : ∀ u content writable, s.pages u = some (content, writable) →
    ∃ pg, spt u = some pg ∧ pg.writable = writable ∧ content.length = pgSize ∧
      ∀ frame, pg.fill img frame = some content

/-- What is at an address. -/
def Eager.memory (s : Eager) : Memory := fun a =>
  match s.pages (pgRoundDown (UInt32.ofNat a)) with
  | some (content, _) => content.getD (pgOfs (UInt32.ofNat a)).toNat 0
  | none => 0

/-- What is at an address once its page has been brought in, into a frame that held `frame`. -/
def Spt.memory (img : Image) (frame : UInt32 → Vector UInt8 pgSize) (spt : Spt) : Memory := fun a =>
  match spt (pgRoundDown (UInt32.ofNat a)) with
  | some pg => ((pg.fill img (frame (pgRoundDown (UInt32.ofNat a)))).getD []).getD
      (pgOfs (UInt32.ofNat a)).toNat 0
  | none => 0

section Eager

variable {ok : UInt32 → Bool} {frame : UInt32 → Vector UInt8 pgSize} {s s' : Eager} {spt : Spt}

theorem SameSpace.empty (img : Image) : SameSpace img ⟨fun _ => none, 0⟩ fun _ => none where
  mapped _ := iff_of_true rfl rfl
  same _ _ _ h := by cases h

theorem SameSpace.memory (h : SameSpace img s spt) (frame : UInt32 → Vector UInt8 pgSize) :
    spt.memory img frame = s.memory := by
  funext a
  rw [Spt.memory, Eager.memory]
  match hpage : s.pages (pgRoundDown (UInt32.ofNat a)) with
  | none => rw [(h.mapped _).mp hpage]
  | some (content, writable) =>
    obtain ⟨pg, hpg, -, -, hfill⟩ := h.same _ _ _ hpage
    simp only [hpg, hfill, Option.getD_some]

/-- A page is put in by both. -/
theorem SameSpace.update (h : SameSpace img s spt) {u : UInt32} {content : List UInt8} {pg : Page}
    (hlen : content.length = pgSize) (hfill : ∀ frame, pg.fill img frame = some content) (pos : UInt32) :
    SameSpace img ⟨Function.update s.pages u (some (content, pg.writable)), pos⟩
      (Function.update spt u (some pg)) := by
  constructor
  · intro u'
    by_cases hu : u' = u
    · subst hu
      simp
    · simp only [Function.update_of_ne hu]
      exact h.mapped u'
  · intro u' content' writable' hpage
    by_cases hu : u' = u
    · subst hu
      simp only [Function.update_self, Option.some_inj, Prod.mk.injEq] at hpage
      obtain ⟨rfl, rfl⟩ := hpage
      exact ⟨pg, Function.update_self .., rfl, hlen, hfill⟩
    · simp only [Function.update_of_ne hu] at hpage ⊢
      exact h.same u' content' writable' hpage

/-- The lazy build has an entry for what the eager one reads. -/
theorem SameSpace.addPage (h : SameSpace img s spt) {a : Args} (haligned : pgOfs a.upage = 0)
    (hsum : a.readBytes.toNat + a.zeroBytes.toNat = pgSize) (hpos : s.pos = a.ofs)
    (hadd : (eagerBuild img ok frame).addPage s a = .ok (true, s')) :
    ∃ spt', (lazyBuild fun _ => true).addPage spt a = .ok (true, spt') ∧ SameSpace img s' spt' ∧
      s'.pos = a.ofs + a.readBytes := by
  simp only [eagerBuild] at hadd
  split at hadd
  swap
  · cases hadd
  split at hadd
  swap
  · cases hadd
  rename_i _ hfull
  rw [Eager.install] at hadd
  split at hadd
  swap
  · cases hadd
  rename_i hnone
  cases hadd
  have hnone' : spt a.upage = none := (h.mapped _).mp (Option.isNone_iff_eq_none.mp hnone)
  rw [hpos] at hfull
  have hcontent := splice_frame (hfull ▸ hsum) (frame a.upage)
  have hfill := Page.fill_eq (p := a.page) rfl hsum hfull
  refine ⟨Function.update spt a.upage (some a.page), ?_, ?_, ?_⟩
  · change addEntry true spt a.upage a.page = _
    rw [addEntry_eq_ok a.page haligned, hnone']
    rfl
  · rw [hpos, hcontent]
    refine h.update ?_ hfill _
    change (img.readAt a.ofs a.readBytes.toNat ++ List.replicate a.zeroBytes.toNat 0).length = pgSize
    rw [List.length_append, List.length_replicate, hfull, hsum]
  · simp only [hpos, hfull, UInt32.ofNat_toNat]

theorem SameSpace.addPages {writable : Bool} {n : ℕ} {ofs upage readBytes : UInt32}
    (h : SameSpace img s spt) (hpos : s.pos = ofs)
    (haligned : ∀ a ∈ segmentPages writable n ofs upage readBytes, pgOfs a.upage = 0)
    (hadd : addPages (eagerBuild img ok frame) s (segmentPages writable n ofs upage readBytes) =
      .ok (true, s')) :
    ∃ spt', Userprog.addPages (lazyBuild fun _ => true) spt (segmentPages writable n ofs upage readBytes) =
      .ok (true, spt') ∧ SameSpace img s' spt' := by
  induction n generalizing s spt ofs upage readBytes with
  | zero =>
    cases hadd
    exact ⟨spt, rfl, h⟩
  | succ n ih =>
    obtain ⟨s₁, hfirst, hrest⟩ := addPages_cons.mp hadd
    have hread := toNat_min_pgWord readBytes
    have hzero := toNat_sub_of_le (a := pgWord) (b := if readBytes < pgWord then readBytes else pgWord)
      (by rw [toNat_pgWord]; omega)
    rw [toNat_pgWord] at hzero
    obtain ⟨spt₁, hadd₁, h₁, hpos₁⟩ := h.addPage (haligned _ List.mem_cons_self)
      (show _ = 4096 by simp only [hzero]; omega) hpos hfirst
    obtain ⟨spt', hadd', h'⟩ := ih h₁ hpos₁ (fun a ha => haligned a (List.mem_cons_of_mem _ ha)) hrest
    exact ⟨spt', addPages_cons.mpr ⟨spt₁, hadd₁, hadd'⟩, h'⟩

theorem SameSpace.addSegments {l : List Phdr} (h : SameSpace img s spt) (hl : ∀ p ∈ l, p.Fits img)
    (hadd : addSegments (eagerBuild img ok frame) s l = .ok (true, s')) :
    ∃ spt', Userprog.addSegments (lazyBuild fun _ => true) spt l = .ok (true, spt') ∧
      SameSpace img s' spt' := by
  induction l generalizing s spt with
  | nil =>
    cases hadd
    exact ⟨spt, rfl, h⟩
  | cons p l ih =>
    obtain ⟨s₁, hfirst, hrest⟩ := addSegments_cons.mp hadd
    -- `file_seek` moves the position, not the pages
    have hseek : SameSpace img { s with pos := pgRoundDown p.offset } spt := ⟨h.mapped, h.same⟩
    have hfits := hl p List.mem_cons_self
    obtain ⟨spt₁, hadd₁, h₁⟩ := hseek.addPages rfl
      (fun a ha => pgOfs_eq_zero.mpr (hfits.mem_segment ha).1) hfirst
    obtain ⟨spt', hadd', h'⟩ := ih h₁ (fun q hq => hl q (List.mem_cons_of_mem p hq)) hrest
    exact ⟨spt', addSegments_cons.mpr ⟨spt₁, hadd₁, hadd'⟩, h'⟩

theorem SameSpace.setupStack (h : SameSpace img s spt)
    (hadd : (eagerBuild img ok frame).setupStack s = .ok (true, s')) :
    ∃ spt', (lazyBuild fun _ => true).setupStack spt = .ok (true, spt') ∧ SameSpace img s' spt' := by
  simp only [eagerBuild] at hadd
  split at hadd
  swap
  · cases hadd
  rw [Eager.install] at hadd
  split at hadd
  swap
  · cases hadd
  rename_i hnone
  cases hadd
  have hnone' : spt stackPage = none := (h.mapped _).mp (Option.isNone_iff_eq_none.mp hnone)
  refine ⟨_, setupStack_lazyBuild.mpr ⟨rfl, hnone', rfl⟩, ?_⟩
  have hlen : (List.replicate pgSize (0 : UInt8)).length = pgSize := List.length_replicate ..
  have hfill : ∀ frame, (anonPage true).fill img frame = some (List.replicate pgSize 0) := fun _ => rfl
  exact h.update hlen hfill s.pos

/-- What the eager build loads is loaded by the lazy one, with the same entry point. -/
theorem SameSpace.of_load {eip : UInt32}
    (h : load (eagerBuild img ok frame) manyTurns img ⟨fun _ => none, 0⟩ = .ok (some eip, s)) :
    ∃ spt, load (lazyBuild fun _ => true) manyTurns img (fun _ => none) = .ok (some eip, spt) ∧
      SameSpace img s spt := by
  obtain ⟨haccepted, heip, s₁, hadd, hstack⟩ := load_eq_ok_iff.mp h
  obtain ⟨spt₁, hadd₁, h₁⟩ := (SameSpace.empty img).addSegments (fun p hp => haccepted.fits hp) hadd
  obtain ⟨spt, hstack', hsame⟩ := h₁.setupStack hstack
  exact ⟨spt, load_eq_ok_iff.mpr ⟨haccepted, heip, spt₁, hadd₁, hstack'⟩, hsame⟩

end Eager

/-- **Lazy loading simulates eager loading.** If the eager build loads an executable, then so does the
lazy one as long as there is memory for the entries, and the process sees the same address space: the
same pages, writable or not, with the same bytes whatever the frames hold in which they end up, the
same entry point and, for each command line, the same stack. And both reject segments that share a page
with each other or with the stack. -/
theorem lazy_simulates_eager (img : Image) :
    (∀ ok frame eip s,
      load (eagerBuild img ok frame) manyTurns img ⟨fun _ => none, 0⟩ = .ok (some eip, s) →
      ∃ spt, load (lazyBuild fun _ => true) manyTurns img (fun _ => none) = .ok (some eip, spt) ∧
        SameSpace img s spt ∧ ∀ frame' cmdline copy,
          constructStack cmdline copy ⟨physBase, spt.memory img frame', []⟩ =
            constructStack cmdline copy ⟨physBase, s.memory, []⟩) ∧
    (¬ img.pages.Nodup → ∀ ok eip,
      (∀ frame s, load (eagerBuild img ok frame) manyTurns img ⟨fun _ => none, 0⟩ ≠ .ok (some eip, s)) ∧
      ∀ spt, load (lazyBuild ok) manyTurns img (fun _ => none) ≠ .ok (some eip, spt)) := by
  constructor
  · intro ok frame eip s h
    obtain ⟨spt, hload, hsame⟩ := SameSpace.of_load h
    refine ⟨spt, hload, hsame, fun frame' cmdline copy => ?_⟩
    rw [hsame.memory frame']
  · refine fun hpages ok eip => ⟨fun frame s h => hpages ?_, fun spt h => hpages ?_⟩
    · obtain ⟨spt, hload, -⟩ := SameSpace.of_load h
      exact (recorded_of_load hload).distinct
    · exact (recorded_of_load h).distinct

example : (load (eagerBuild (tinyElf 84) (fun _ => true) fun _ => .replicate pgSize 7) manyTurns
    (tinyElf 84) ⟨fun _ => none, 0⟩).toOption.any (·.1.isSome) = true := by
  decide +kernel

end Userprog
end Pintos

import Pintos.Systems.System

/-!
# Bitmaps

`lib/kernel/bitmap.c`. The bits are packed into words of 32 bits, and a `Bitmap` carries the proof that there are as
many words as `elem_cnt` says and that they hold all its bits. Sums of sizes wrap around. A failed assertion, or
a word outside the bitmap, is `none`.

* `bitmapTest_eq`, `bitmapSet_eq`, `bitmapSetMultiple_eq`, `bitmapContains_eq` — what the functions do to the bits of
  all words, the unused ones of the last word included;
* `bitmapScan_eq` — the scan finds the first group of bits (`FirstFit`), or there is none;
* `pool_disjoint` — the ranges that the page pools, the swap slots and the free map hand out do not overlap.
-/

namespace Pintos
namespace Clib

/-- `elem_idx`. -/
def elemIdx (bitIdx : ℕ) : ℕ := bitIdx / 32

/-- `bit_mask`. -/
def bitMask (bitIdx : ℕ) : BitVec 32 := 1#32 <<< (bitIdx % 32)

/-- `elem_cnt`. The addition of `DIV_ROUND_UP` wraps around. -/
def elemCnt (bitCnt : ℕ) : ℕ := (bitCnt + 31) % 2 ^ 32 / 32

/-- `struct bitmap`. -/
structure Bitmap where
  bitCnt : ℕ
  bits : List (BitVec 32)
  length_bits : bits.length = elemCnt bitCnt
  bitCnt_le : bitCnt ≤ 32 * bits.length

/-- `BITMAP_ERROR`. -/
def bitmapError : ℕ := 2 ^ 32 - 1

/-- Apply an instruction to a word of the bitmap. -/
def Bitmap.update (b : Bitmap) (idx : ℕ) (f : BitVec 32 → BitVec 32) : Option Bitmap :=
  (b.bits[idx]?).map fun w => { b with
    bits := b.bits.set idx (f w)
    length_bits := by rw [List.length_set, b.length_bits]
    bitCnt_le := by rw [List.length_set]; exact b.bitCnt_le }

/-- `bitmap_mark`. -/
def bitmapMark (b : Bitmap) (bitIdx : ℕ) : Option Bitmap :=
  b.update (elemIdx bitIdx) fun w => w ||| bitMask bitIdx

/-- `bitmap_reset`. -/
def bitmapReset (b : Bitmap) (bitIdx : ℕ) : Option Bitmap :=
  b.update (elemIdx bitIdx) fun w => w &&& ~~~bitMask bitIdx

/-- `bitmap_set`. -/
def bitmapSet (b : Bitmap) (idx : ℕ) (value : Bool) : Option Bitmap :=
  if idx < b.bitCnt then
    if value then bitmapMark b idx else bitmapReset b idx
  else none

/-- `bitmap_test`. -/
def bitmapTest (b : Bitmap) (idx : ℕ) : Option Bool :=
  if idx < b.bitCnt then
    (b.bits[elemIdx idx]?).map fun w => decide (w &&& bitMask idx ≠ 0)
  else none

/-- The assertions of the functions on several bits. -/
def Bitmap.InRange (b : Bitmap) (start cnt : ℕ) : Prop :=
  start ≤ b.bitCnt ∧ (start + cnt) % 2 ^ 32 ≤ b.bitCnt

instance (b : Bitmap) (start cnt : ℕ) : Decidable (b.InRange start cnt) :=
  inferInstanceAs (Decidable (_ ∧ _))

/-- The loop of `bitmap_set_multiple`, with `n` turns left. -/
def setLoop (start : ℕ) (value : Bool) : ℕ → ℕ → Bitmap → Option Bitmap
  | _, 0, b => some b
  | i, n + 1, b => do
    let b ← bitmapSet b ((start + i) % 2 ^ 32) value
    setLoop start value (i + 1) n b

/-- `bitmap_set_multiple`. -/
def bitmapSetMultiple (b : Bitmap) (start cnt : ℕ) (value : Bool) : Option Bitmap :=
  if b.InRange start cnt then setLoop start value 0 cnt b else none

/-- The loop of `bitmap_contains`, with `n` turns left. -/
def containsLoop (b : Bitmap) (start : ℕ) (value : Bool) : ℕ → ℕ → Option Bool
  | _, 0 => some false
  | i, n + 1 => do
    let bit ← bitmapTest b ((start + i) % 2 ^ 32)
    if bit = value then some true else containsLoop b start value (i + 1) n

/-- `bitmap_contains`. -/
def bitmapContains (b : Bitmap) (start cnt : ℕ) (value : Bool) : Option Bool :=
  if b.InRange start cnt then containsLoop b start value 0 cnt else none

/-- `bitmap_all`. -/
def bitmapAll (b : Bitmap) (start cnt : ℕ) : Option Bool :=
  (bitmapContains b start cnt false).map (!·)

/-- The loop of `bitmap_scan`, with `n` turns left. -/
def scanLoop (b : Bitmap) (cnt : ℕ) (value : Bool) : ℕ → ℕ → Option ℕ
  | _, 0 => some bitmapError
  | i, n + 1 => do
    if ← bitmapContains b i cnt (!value) then scanLoop b cnt value (i + 1) n else some i

/-- `bitmap_scan`. -/
def bitmapScan (b : Bitmap) (start cnt : ℕ) (value : Bool) : Option ℕ :=
  if start ≤ b.bitCnt then
    if cnt ≤ b.bitCnt then
      let last := b.bitCnt - cnt
      scanLoop b cnt value start (last + 1 - start)
    else some bitmapError
  else none

/-- `bitmap_scan_and_flip`. -/
def bitmapScanAndFlip (b : Bitmap) (start cnt : ℕ) (value : Bool) : Option (ℕ × Bitmap) := do
  let idx ← bitmapScan b start cnt value
  if idx ≠ bitmapError then
    let b ← bitmapSetMultiple b idx cnt (!value)
    return (idx, b)
  else return (idx, b)

/-! ### Single bits -/

namespace Bitmap

/-- The bit of this number, counted through all words: those behind the last bit of the bitmap as well. -/
def bit (b : Bitmap) (i : ℕ) : Bool := ((b.bits[elemIdx i]?).getD 0).getLsbD (i % 32)

/-- `b'` has these bits instead, and is otherwise the same. -/
structure Sets (b : Bitmap) (P : ℕ → Prop) (value : Bool) (b' : Bitmap) : Prop where
  bitCnt : b'.bitCnt = b.bitCnt
  set : ∀ i, P i → b'.bit i = value
  keep : ∀ i, ¬ P i → b'.bit i = b.bit i

end Bitmap

variable {b b' : Bitmap}

/-- All the bits have an index that is far from wrapping around. -/
theorem Bitmap.bitCnt_lt (b : Bitmap) : b.bitCnt + 31 < 2 ^ 32 := by
  have h := b.bitCnt_le
  rw [b.length_bits, elemCnt] at h
  omega

theorem Bitmap.elemIdx_lt {i : ℕ} (hi : i < b.bitCnt) : elemIdx i < b.bits.length := by
  have h := b.bitCnt_le
  rw [elemIdx]
  omega

theorem getLsbD_bitMask (i j : ℕ) : (bitMask i).getLsbD j = decide (j = i % 32) := by
  rw [bitMask, ← BitVec.twoPow_eq, BitVec.getLsbD_twoPow]
  grind

theorem and_bitMask_ne_zero (w : BitVec 32) (i : ℕ) : decide (w &&& bitMask i ≠ 0) = w.getLsbD (i % 32) := by
  have hne : BitVec.twoPow 32 (i % 32) ≠ 0 := by
    intro h0
    have hbit := congrArg (BitVec.getLsbD · (i % 32)) h0
    simp [Nat.mod_lt i (by decide : 0 < 32)] at hbit
  rw [bitMask, ← BitVec.twoPow_eq, BitVec.and_twoPow]
  cases w.getLsbD (i % 32) with
  | true => exact decide_eq_true hne
  | false => rfl

theorem bitmapTest_eq {i : ℕ} (hi : i < b.bitCnt) : bitmapTest b i = some (b.bit i) := by
  have hlt := Bitmap.elemIdx_lt hi
  rw [bitmapTest, if_pos hi, Bitmap.bit, List.getElem?_eq_getElem hlt, Option.map_some, Option.getD_some,
    and_bitMask_ne_zero]

/-- An instruction that changes one bit of a word changes one bit of the bitmap. -/
theorem Bitmap.sets_update {i : ℕ} {value : Bool} {f : BitVec 32 → BitVec 32} (hi : i < b.bitCnt)
    (hbit : ∀ w, (f w).getLsbD (i % 32) = value)
    (hkeep : ∀ w j, j < 32 → j ≠ i % 32 → (f w).getLsbD j = w.getLsbD j) :
    ∃ b', b.update (elemIdx i) f = some b' ∧ b.Sets (· = i) value b' := by
  have hlt := Bitmap.elemIdx_lt hi
  rw [Bitmap.update, List.getElem?_eq_getElem hlt, Option.map_some]
  refine ⟨_, rfl, rfl, ?_, ?_⟩
  · rintro j rfl
    rw [Bitmap.bit, List.getElem?_set_self hlt, Option.getD_some]
    exact hbit _
  · intro j hne
    rw [Bitmap.bit, Bitmap.bit]
    by_cases hword : elemIdx j = elemIdx i
    · rw [hword, List.getElem?_set_self hlt, List.getElem?_eq_getElem hlt, Option.getD_some, Option.getD_some]
      refine hkeep _ _ (Nat.mod_lt _ (by decide)) fun hmod => hne ?_
      rw [elemIdx, elemIdx] at hword
      omega
    · rw [List.getElem?_set_ne (Ne.symm hword)]

theorem bitmapSet_eq {i : ℕ} (hi : i < b.bitCnt) (value : Bool) :
    ∃ b', bitmapSet b i value = some b' ∧ b.Sets (· = i) value b' := by
  rw [bitmapSet, if_pos hi]
  cases value with
  | true =>
    refine Bitmap.sets_update hi (fun w => ?_) fun w j hj hne => ?_
    · rw [BitVec.getLsbD_or, getLsbD_bitMask, decide_eq_true rfl, Bool.or_true]
    · rw [BitVec.getLsbD_or, getLsbD_bitMask, decide_eq_false hne, Bool.or_false]
  | false =>
    refine Bitmap.sets_update hi (fun w => ?_) fun w j hj hne => ?_
    · rw [BitVec.getLsbD_and, BitVec.getLsbD_not, getLsbD_bitMask, decide_eq_true rfl]
      simp
    · rw [BitVec.getLsbD_and, BitVec.getLsbD_not, getLsbD_bitMask, decide_eq_false hne]
      simp [hj]

/-! ### Several bits -/

theorem Bitmap.Sets.trans {P Q : ℕ → Prop} {value : Bool} {b₁ b₂ : Bitmap} (h : b.Sets P value b₁)
    (h' : b₁.Sets Q value b₂) : b.Sets (fun i => P i ∨ Q i) value b₂ where
  bitCnt := h'.bitCnt.trans h.bitCnt
  set i hi := by
    by_cases hQ : Q i
    · exact h'.set i hQ
    · rw [h'.keep i hQ, h.set i (hi.resolve_right hQ)]
  keep i hi := by
    rw [h'.keep i (hi ∘ .inr), h.keep i (hi ∘ .inl)]

theorem Bitmap.Sets.congr {P Q : ℕ → Prop} {value : Bool} (h : b.Sets P value b') (hPQ : ∀ i, P i ↔ Q i) :
    b.Sets Q value b' where
  bitCnt := h.bitCnt
  set i hi := h.set i ((hPQ i).mpr hi)
  keep i hi := h.keep i (mt (hPQ i).mp hi)

theorem setLoop_eq {start i n : ℕ} (value : Bool) (hle : start + i + n ≤ b.bitCnt) :
    ∃ b', setLoop start value i n b = some b' ∧
      b.Sets (fun j => start + i ≤ j ∧ j < start + i + n) value b' := by
  induction n generalizing i b with
  | zero => exact ⟨b, rfl, rfl, fun j hj => by omega, fun _ _ => rfl⟩
  | succ n ih =>
    have hlt := b.bitCnt_lt
    obtain ⟨b₁, hset, h₁⟩ := bitmapSet_eq (by omega : start + i < b.bitCnt) value
    obtain ⟨b₂, hloop, h₂⟩ := ih (b := b₁) (i := i + 1) (by rw [h₁.bitCnt]; omega)
    refine ⟨b₂, ?_, (h₁.trans h₂).congr fun j => by omega⟩
    rw [setLoop, Nat.mod_eq_of_lt (by omega), hset]
    exact hloop

theorem Bitmap.inRange {start cnt : ℕ} (hle : start + cnt ≤ b.bitCnt) : b.InRange start cnt := by
  have hlt := b.bitCnt_lt
  exact ⟨by omega, by rw [Nat.mod_eq_of_lt (by omega)]; exact hle⟩

theorem bitmapSetMultiple_eq {start cnt : ℕ} (value : Bool) (hle : start + cnt ≤ b.bitCnt) :
    ∃ b', bitmapSetMultiple b start cnt value = some b' ∧
      b.Sets (fun j => start ≤ j ∧ j < start + cnt) value b' := by
  rw [bitmapSetMultiple, if_pos (Bitmap.inRange hle)]
  exact setLoop_eq (i := 0) value hle

theorem containsLoop_eq {start i n : ℕ} (value : Bool) (hle : start + i + n ≤ b.bitCnt) :
    ∃ r, containsLoop b start value i n = some r ∧
      (r = true ↔ ∃ j, start + i ≤ j ∧ j < start + i + n ∧ b.bit j = value) := by
  induction n generalizing i with
  | zero =>
    refine ⟨false, rfl, ?_⟩
    simp only [Bool.false_eq_true, false_iff]
    rintro ⟨j, hj, hj', -⟩
    omega
  | succ n ih =>
    have hlt := b.bitCnt_lt
    rw [containsLoop, Nat.mod_eq_of_lt (by omega), bitmapTest_eq (by omega : start + i < b.bitCnt), Option.bind_eq_bind,
      Option.bind_some]
    by_cases hbit : b.bit (start + i) = value
    · rw [if_pos hbit]
      exact ⟨true, rfl, iff_of_true rfl ⟨start + i, by omega, by omega, hbit⟩⟩
    · rw [if_neg hbit]
      obtain ⟨r, hr, hiff⟩ := ih (i := i + 1) (by omega)
      refine ⟨r, hr, hiff.trans ⟨?_, ?_⟩⟩
      · rintro ⟨j, hj, hj', hval⟩
        exact ⟨j, by omega, by omega, hval⟩
      · rintro ⟨j, hj, hj', hval⟩
        refine ⟨j, ?_, by omega, hval⟩
        -- the bit that was tested is not this one
        rcases Nat.eq_or_lt_of_le hj with rfl | hgt
        · exact absurd hval hbit
        · omega

theorem bitmapContains_eq (b : Bitmap) {start cnt : ℕ} (value : Bool) (hle : start + cnt ≤ b.bitCnt) :
    ∃ r, bitmapContains b start cnt value = some r ∧
      (r = true ↔ ∃ j, start ≤ j ∧ j < start + cnt ∧ b.bit j = value) := by
  rw [bitmapContains, if_pos (Bitmap.inRange hle)]
  exact containsLoop_eq (i := 0) value hle

theorem bitmapAll_eq {start cnt : ℕ} (hle : start + cnt ≤ b.bitCnt)
    (hall : ∀ j, start ≤ j → j < start + cnt → b.bit j = true) : bitmapAll b start cnt = some true := by
  obtain ⟨r, hr, hiff⟩ := bitmapContains_eq b false hle
  have hfalse : r = false := by
    rw [Bool.eq_false_iff]
    intro htrue
    obtain ⟨j, hj, hj', hbit⟩ := hiff.mp htrue
    rw [hall j hj hj'] at hbit
    cases hbit
  rw [bitmapAll, hr, hfalse]
  rfl

/-! ### First fit -/

/-- A group of `cnt` bits that are all `value`, at `start` or behind it. -/
structure Bitmap.Fits (b : Bitmap) (start cnt : ℕ) (value : Bool) (idx : ℕ) : Prop where
  ge : start ≤ idx
  le : idx + cnt ≤ b.bitCnt
  bits : ∀ j, idx ≤ j → j < idx + cnt → b.bit j = value

theorem Bitmap.Fits.ne_error {start cnt idx : ℕ} {value : Bool} (h : b.Fits start cnt value idx) :
    idx ≠ bitmapError := by
  have hlt := b.bitCnt_lt
  have hle := h.le
  rw [bitmapError]
  omega

theorem scanLoop_eq {cnt i n : ℕ} {value : Bool} (hcnt : cnt ≤ b.bitCnt) (hn : n = b.bitCnt - cnt + 1 - i) :
    (∃ idx, scanLoop b cnt value i n = some idx ∧ IsLeast {k | b.Fits i cnt value k} idx) ∨
    (scanLoop b cnt value i n = some bitmapError ∧ ∀ idx, ¬ b.Fits i cnt value idx) := by
  induction n generalizing i with
  | zero =>
    refine .inr ⟨rfl, fun idx h => ?_⟩
    have hge := h.ge
    have hle := h.le
    omega
  | succ n ih =>
    have hn' : n = b.bitCnt - cnt + 1 - (i + 1) := by omega
    obtain ⟨r, hr, hiff⟩ := bitmapContains_eq b (!value) (by omega : i + cnt ≤ b.bitCnt)
    rw [scanLoop, hr, Option.bind_eq_bind, Option.bind_some]
    cases r with
    | false =>
      refine .inl ⟨i, rfl, ⟨Nat.le_refl i, by omega, ?_⟩, fun j hj => hj.ge⟩
      intro j hj hj'
      by_contra hne
      have := hiff.mpr ⟨j, hj, hj', Bool.eq_not_of_ne hne⟩
      cases this
    | true =>
      -- the group at `i` is spoilt, so every group lies behind `i`
      obtain ⟨j, hj, hj', hbit⟩ := hiff.mp rfl
      have hnext : ∀ idx, b.Fits i cnt value idx ↔ b.Fits (i + 1) cnt value idx := by
        intro idx
        constructor
        · intro h
          refine ⟨?_, h.le, h.bits⟩
          rcases Nat.eq_or_lt_of_le h.ge with rfl | hgt
          · rw [h.bits j hj hj'] at hbit
            exact absurd hbit (by simp)
          · exact hgt
        · intro h
          exact ⟨Nat.le_of_succ_le h.ge, h.le, h.bits⟩
      rw [if_pos rfl, Set.ext hnext]
      exact ih hn'

/-- **First fit.** The scan returns the first group of bits, or there is none. -/
theorem bitmapScan_eq {start : ℕ} (cnt : ℕ) (value : Bool) (hstart : start ≤ b.bitCnt) :
    (∃ idx, bitmapScan b start cnt value = some idx ∧ IsLeast {k | b.Fits start cnt value k} idx) ∨
    (bitmapScan b start cnt value = some bitmapError ∧ ∀ idx, ¬ b.Fits start cnt value idx) := by
  rw [bitmapScan, if_pos hstart]
  by_cases hcnt : cnt ≤ b.bitCnt
  · rw [if_pos hcnt]
    exact scanLoop_eq hcnt rfl
  · rw [if_neg hcnt]
    refine .inr ⟨rfl, fun idx h => hcnt ?_⟩
    have hle := h.le
    omega

/-- What `bitmap_scan_and_flip` does: the first group of bits is flipped and nothing else, or there is none. -/
theorem bitmapScanAndFlip_eq {start : ℕ} (cnt : ℕ) (value : Bool) (hstart : start ≤ b.bitCnt) :
    (∃ idx b', bitmapScanAndFlip b start cnt value = some (idx, b') ∧
      IsLeast {k | b.Fits start cnt value k} idx ∧ b.Sets (fun j => idx ≤ j ∧ j < idx + cnt) (!value) b') ∨
    (bitmapScanAndFlip b start cnt value = some (bitmapError, b) ∧ ∀ idx, ¬ b.Fits start cnt value idx) := by
  rw [bitmapScanAndFlip]
  rcases bitmapScan_eq cnt value hstart with ⟨idx, hscan, hleast⟩ | ⟨hscan, hnone⟩
  · obtain ⟨b', hset, hsets⟩ := bitmapSetMultiple_eq (!value) hleast.1.le
    refine .inl ⟨idx, b', ?_, hleast, hsets⟩
    rw [hscan, Option.bind_eq_bind, Option.bind_some, if_pos hleast.1.ne_error, hset]
    rfl
  · refine .inr ⟨?_, hnone⟩
    rw [hscan]
    rfl

/-! ### Allocators -/

/-- A bitmap that allocates, with the ranges (first bit and number of bits) that have been handed out and not been
given back. -/
structure Pool where
  used : Bitmap
  live : List (ℕ × ℕ)

/-- The calls of the allocators that are built on bitmaps: the page pools, the swap slots and the free map. -/
inductive Call
  | pallocGetMultiple (pageCnt : ℕ)
  | pallocFreeMultiple (pageIdx pageCnt : ℕ)
  | swapOut
  -- `swap_free`; what `swap_in` does to the bitmap is the same
  | swapFree (slot : ℕ)
  -- `written` says whether `bitmap_write` succeeds, if the free map has its file yet
  | freeMapAllocate (cnt : ℕ) (written : Bool)
  | freeMapRelease (sector cnt : ℕ)
deriving DecidableEq

namespace Pool

/-- Take `cnt` bits. -/
def take (p : Pool) (cnt : ℕ) : Option Pool := do
  let (idx, b) ← bitmapScanAndFlip p.used 0 cnt false
  if idx ≠ bitmapError then return ⟨b, (idx, cnt) :: p.live⟩ else return p

/-- Give a range back. Only one that has been handed out is. -/
def release (p : Pool) (r : ℕ × ℕ) : Option Pool := do
  if r ∈ p.live ∧ (← bitmapAll p.used r.1 r.2) then
    let b ← bitmapSetMultiple p.used r.1 r.2 false
    return ⟨b, p.live.erase r⟩
  else none

/-- A call. There is no next state if an assertion fails or the kernel panics. -/
def step (p : Pool) : Call → Option Pool
  | .pallocGetMultiple pageCnt => if pageCnt = 0 then some p else p.take pageCnt
  | .pallocFreeMultiple pageIdx pageCnt => p.release (pageIdx, pageCnt)
  | .swapOut => do
    let (idx, b) ← bitmapScanAndFlip p.used 0 1 false
    if idx = bitmapError then none else return ⟨b, (idx, 1) :: p.live⟩
  | .swapFree slot => do
    if (slot, 1) ∈ p.live ∧ (← bitmapTest p.used slot) then
      let b ← bitmapReset p.used slot
      return ⟨b, p.live.erase (slot, 1)⟩
    else none
  | .freeMapAllocate cnt written => do
    let (idx, b) ← bitmapScanAndFlip p.used 0 cnt false
    if idx = bitmapError then return p
    else if written then return ⟨b, (idx, cnt) :: p.live⟩
    else
      let b ← bitmapSetMultiple b idx cnt false
      return ⟨b, p.live⟩
  | .freeMapRelease sector cnt => p.release (sector, cnt)

/-- Any bitmap at all may be there at the start. -/
def system : System Pool Call where
  init p := p.live = []
  step := step

/-- No bit is in both ranges. -/
def Apart (r r' : ℕ × ℕ) : Prop := ∀ j, r.1 ≤ j → j < r.1 + r.2 → ¬ (r'.1 ≤ j ∧ j < r'.1 + r'.2)

theorem Apart.symm {r r' : ℕ × ℕ} (h : Apart r r') : Apart r' r := fun j hj hj' hr => h j hr.1 hr.2 ⟨hj, hj'⟩

/-- What has been handed out is marked and does not overlap. -/
structure Held (p : Pool) : Prop where
  le : ∀ r ∈ p.live, r.1 + r.2 ≤ p.used.bitCnt
  marked : ∀ r ∈ p.live, ∀ j, r.1 ≤ j → j < r.1 + r.2 → p.used.bit j = true
  apart : p.live.Pairwise Apart

variable {p p' : Pool}

/-- A range whose bits were clear joins the others. -/
theorem Held.add (h : p.Held) {idx cnt : ℕ} {b : Bitmap} (hfit : p.used.Fits 0 cnt false idx)
    (hsets : p.used.Sets (fun j => idx ≤ j ∧ j < idx + cnt) true b) : Held ⟨b, (idx, cnt) :: p.live⟩ := by
  have hapart : ∀ r ∈ p.live, Apart (idx, cnt) r := by
    intro r hr j hj hj' hin
    have hmark := h.marked r hr j hin.1 hin.2
    rw [hfit.bits j hj hj'] at hmark
    cases hmark
  refine ⟨?_, ?_, List.pairwise_cons.mpr ⟨hapart, h.apart⟩⟩
  · intro r hr
    change _ ≤ b.bitCnt
    rw [hsets.bitCnt]
    rcases List.mem_cons.mp hr with rfl | hr
    · exact hfit.le
    · exact h.le r hr
  · intro r hr j hj hj'
    rcases List.mem_cons.mp hr with rfl | hr
    · exact hsets.set j ⟨hj, hj'⟩
    · change b.bit j = true
      rw [hsets.keep j fun hin => hapart r hr j hin.1 hin.2 ⟨hj, hj'⟩]
      exact h.marked r hr j hj hj'

/-- A range leaves, and its bits are cleared. -/
theorem Held.erase (h : p.Held) {r : ℕ × ℕ} {b : Bitmap} (hr : r ∈ p.live)
    (hsets : p.used.Sets (fun j => r.1 ≤ j ∧ j < r.1 + r.2) false b) : Held ⟨b, p.live.erase r⟩ := by
  have hcons := (List.perm_cons_erase hr).pairwise_iff Apart.symm |>.mp h.apart
  have hapart := (List.pairwise_cons.mp hcons).1
  refine ⟨?_, ?_, (List.pairwise_cons.mp hcons).2⟩
  · intro r' hr'
    change _ ≤ b.bitCnt
    rw [hsets.bitCnt]
    exact h.le r' (List.mem_of_mem_erase hr')
  · intro r' hr' j hj hj'
    change b.bit j = true
    rw [hsets.keep j fun hin => hapart r' hr' j hin.1 hin.2 ⟨hj, hj'⟩]
    exact h.marked r' (List.mem_of_mem_erase hr') j hj hj'

theorem Held.perm {b : Bitmap} {l l' : List (ℕ × ℕ)} (h : Held ⟨b, l⟩) (hperm : l.Perm l') : Held ⟨b, l'⟩ where
  le r hr := h.le r (hperm.mem_iff.mpr hr)
  marked r hr := h.marked r (hperm.mem_iff.mpr hr)
  apart := (hperm.pairwise_iff Apart.symm).mp h.apart

theorem Held.congr_bits (h : p.Held) {b : Bitmap} (hcnt : b.bitCnt = p.used.bitCnt)
    (hbit : ∀ j, b.bit j = p.used.bit j) : Held ⟨b, p.live⟩ where
  le r hr := by
    change _ ≤ b.bitCnt
    rw [hcnt]
    exact h.le r hr
  marked r hr j hj hj' := by
    change b.bit j = true
    rw [hbit]
    exact h.marked r hr j hj hj'
  apart := h.apart

theorem Held.take (h : p.Held) {cnt : ℕ} (hs : p.take cnt = some p') : p'.Held := by
  rw [Pool.take] at hs
  rcases bitmapScanAndFlip_eq (b := p.used) cnt false (Nat.zero_le _) with
    ⟨idx, b, hscan, hleast, hsets⟩ | ⟨hscan, -⟩
  · simp only [hscan, Option.bind_eq_bind, Option.bind_some] at hs
    rw [if_pos hleast.1.ne_error] at hs
    cases hs
    exact h.add hleast.1 hsets
  · simp only [hscan, Option.bind_eq_bind, Option.bind_some] at hs
    rw [if_neg (not_not_intro rfl)] at hs
    cases hs
    exact h

/-- The assertions in front of a release hold. -/
theorem Held.release_eq (h : p.Held) {r : ℕ × ℕ} (hr : r ∈ p.live) :
    ∃ b, p.release r = some ⟨b, p.live.erase r⟩ ∧
      p.used.Sets (fun j => r.1 ≤ j ∧ j < r.1 + r.2) false b := by
  obtain ⟨b, hset, hsets⟩ := bitmapSetMultiple_eq false (h.le r hr)
  refine ⟨b, ?_, hsets⟩
  rw [release, bitmapAll_eq (h.le r hr) (h.marked r hr), Option.bind_eq_bind, Option.bind_some, if_pos ⟨hr, rfl⟩, hset]
  rfl

theorem Held.release (h : p.Held) {r : ℕ × ℕ} (hs : p.release r = some p') : p'.Held := by
  by_cases hr : r ∈ p.live
  · obtain ⟨b, hrel, hsets⟩ := h.release_eq hr
    cases hrel.symm.trans hs
    exact h.erase hr hsets
  · obtain ⟨all, -, hs⟩ := Option.bind_eq_some_iff.mp hs
    rw [if_neg (fun hand => hr hand.1)] at hs
    cases hs

/-- The assertion of `swap_free` holds, and the slot is cleared. -/
theorem Held.swapFree_eq (h : p.Held) {slot : ℕ} (hr : (slot, 1) ∈ p.live) :
    ∃ b, p.step (.swapFree slot) = some ⟨b, p.live.erase (slot, 1)⟩ ∧
      p.used.Sets (fun j => slot ≤ j ∧ j < slot + 1) false b := by
  have hlt : slot < p.used.bitCnt := h.le _ hr
  have hbit : p.used.bit slot = true := h.marked _ hr slot (Nat.le_refl _) (Nat.lt_succ_self _)
  obtain ⟨b, hset, hsets⟩ := bitmapSet_eq hlt false
  rw [bitmapSet, if_pos hlt, if_neg (by decide)] at hset
  refine ⟨b, ?_, hsets.congr fun j => by omega⟩
  rw [Pool.step, bitmapTest_eq hlt, hbit, Option.bind_eq_bind, Option.bind_some, if_pos ⟨hr, rfl⟩, hset]
  rfl

/-- No call hands out what is handed out already. -/
theorem Held.step (h : p.Held) {c : Call} (hs : p.step c = some p') : p'.Held := by
  cases c with
  | pallocGetMultiple pageCnt =>
    rw [Pool.step] at hs
    split at hs
    · cases hs
      exact h
    · exact h.take hs
  | pallocFreeMultiple pageIdx pageCnt | freeMapRelease sector cnt => exact h.release hs
  | swapOut =>
    rw [Pool.step] at hs
    rcases bitmapScanAndFlip_eq (b := p.used) 1 false (Nat.zero_le _) with
      ⟨idx, b, hscan, hleast, hsets⟩ | ⟨hscan, -⟩
    · simp only [hscan, Option.bind_eq_bind, Option.bind_some] at hs
      rw [if_neg hleast.1.ne_error] at hs
      cases hs
      exact h.add hleast.1 hsets
    · simp only [hscan, Option.bind_eq_bind, Option.bind_some] at hs
      rw [if_pos trivial] at hs
      cases hs
  | swapFree slot =>
    by_cases hr : (slot, 1) ∈ p.live
    · obtain ⟨b, hfree, hsets⟩ := h.swapFree_eq hr
      cases hfree.symm.trans hs
      exact h.erase hr hsets
    · obtain ⟨bit, -, hs⟩ := Option.bind_eq_some_iff.mp hs
      rw [if_neg (fun hand => hr hand.1)] at hs
      cases hs
  | freeMapAllocate cnt written =>
    rw [Pool.step] at hs
    rcases bitmapScanAndFlip_eq (b := p.used) cnt false (Nat.zero_le _) with
      ⟨idx, b, hscan, hleast, hsets⟩ | ⟨hscan, -⟩
    · simp only [hscan, Option.bind_eq_bind, Option.bind_some] at hs
      rw [if_neg hleast.1.ne_error] at hs
      cases written with
      | true =>
        cases hs
        exact h.add hleast.1 hsets
      | false =>
        -- the bits are cleared again
        obtain ⟨b₂, hset, hsets₂⟩ := bitmapSetMultiple_eq (b := b) false (by rw [hsets.bitCnt]; exact hleast.1.le)
        rw [if_neg (by decide), hset] at hs
        cases hs
        refine h.congr_bits (hsets₂.bitCnt.trans hsets.bitCnt) fun j => ?_
        by_cases hin : idx ≤ j ∧ j < idx + cnt
        · rw [hsets₂.set j hin, hleast.1.bits j hin.1 hin.2]
        · rw [hsets₂.keep j hin, hsets.keep j hin]
    · simp only [hscan, Option.bind_eq_bind, Option.bind_some] at hs
      rw [if_pos trivial] at hs
      cases hs
      exact h

theorem held_of_reachable (h : system.Reachable p) : p.Held := by
  refine System.ReachableVia.invariant ?_ (fun _ _ _ hp _ hs => hp.step hs) h
  intro p hinit
  refine ⟨?_, ?_, ?_⟩ <;> rw [show p.live = [] from hinit]
  · intro r hr
    cases hr
  · intro r hr
    cases hr
  · exact List.Pairwise.nil

end Pool

/-- Groups of clear bits across two words. The last word has unused bits. -/
def busy : Bitmap := ⟨40, [0x3FFFFFFF, 0xFFFFFFE0], rfl, by decide⟩

/-- **First-fit allocation.** No assertion fails in `bitmap_scan_and_flip`. It returns the first group of bits and
flips these and no other bit of any word, or it returns `BITMAP_ERROR` and leaves the bitmap as it is if and only if
there is none. In every run of the allocators that are built on it the ranges that are handed out do not overlap,
and the assertions in front of a release hold. -/
theorem bitmap_first_fit :
    (∀ (b : Bitmap) (start cnt : ℕ) (value : Bool), start ≤ b.bitCnt →
      ∃ idx b', bitmapScanAndFlip b start cnt value = some (idx, b') ∧
        (idx ≠ bitmapError → IsLeast {k | b.Fits start cnt value k} idx ∧
          b.Sets (fun j => idx ≤ j ∧ j < idx + cnt) (!value) b') ∧
        (idx = bitmapError → b' = b) ∧
        (idx = bitmapError ↔ ∀ k, ¬ b.Fits start cnt value k)) ∧
    (∀ p : Pool, Pool.system.Reachable p →
      p.live.Pairwise Pool.Apart ∧
      (∀ r ∈ p.live, (p.release r).isSome) ∧
      (∀ slot, (slot, 1) ∈ p.live → (p.step (.swapFree slot)).isSome)) := by
  constructor
  · intro b start cnt value hstart
    rcases bitmapScanAndFlip_eq cnt value hstart with
      ⟨idx, b', hscan, hleast, hsets⟩ | ⟨hscan, hnone⟩
    · refine ⟨idx, b', hscan, fun _ => ⟨hleast, hsets⟩, fun herr => absurd herr hleast.1.ne_error, ?_⟩
      exact iff_of_false hleast.1.ne_error fun hnone => hnone idx hleast.1
    · exact ⟨bitmapError, b, hscan, fun hne => absurd rfl hne, fun _ => rfl, iff_of_true rfl hnone⟩
  · intro p hp
    have h := Pool.held_of_reachable hp
    refine ⟨h.apart, fun r hr => ?_, fun slot hr => ?_⟩
    · obtain ⟨b, hrel, -⟩ := h.release_eq hr
      rw [hrel]
      rfl
    · obtain ⟨b, hfree, -⟩ := h.swapFree_eq hr
      rw [hfree]
      rfl

/-- A group of five bits that starts in the first word, and three allocators' ranges in one bitmap. -/
theorem bitmap_first_fit_busy :
    (bitmapScanAndFlip busy 3 5 false).map Prod.fst = some 30 ∧
    (∃ idx b', bitmapScanAndFlip busy 3 5 false = some (idx, b') ∧ (idx = bitmapError → b' = busy)) ∧
    (∃ p : Pool, Pool.system.Reachable p ∧ p.live = [(32, 1), (30, 2)] ∧ p.live.Pairwise Pool.Apart) := by
  have hfit := bitmap_first_fit.1 busy 3 5 false (by decide)
  obtain ⟨idx, b', hscan, -, herr, -⟩ := hfit
  refine ⟨by decide +kernel, ⟨idx, b', hscan, herr⟩, ?_⟩
  obtain ⟨p, hrun, hlive⟩ := System.exists_of_runWith (fun p => p.live = [(32, 1), (30, 2)])
    (show (Pool.system.run ⟨busy, []⟩ [.pallocGetMultiple 2, .swapOut, .freeMapAllocate 3 false]).any _ = true by
      decide +kernel)
  have hp : Pool.system.Reachable p :=
    System.reachableVia_of_runWith (fun _ _ _ => trivial) (show Pool.system.init ⟨busy, []⟩ from rfl) hrun
  exact ⟨p, hp, hlive, (bitmap_first_fit.2 p hp).1⟩

end Clib
end Pintos

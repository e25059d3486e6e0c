import Pintos.Clib.Bitmap
import Pintos.Clib.LinkedList
import Pintos.Lib.Action
import Pintos.Lib.Vaddr

/-!
# The page allocator

`palloc_get_multiple` and `palloc_free_multiple` of `threads/palloc.c`, on the memory and the bitmaps of the two pools.
The locks of the pools are left out: a call is one step here.

`Ram.Owns` says that somebody has been handed out certain pages of a pool. `getMultiple_spec` and `freeMultiple_spec` are
what the two functions do to the pages that a caller owns; who owns the other pages does not matter to it.
-/

namespace Pintos
namespace Palloc

open Clib Pintos.Action Vaddr

/-- `struct pool`. -/
structure PagePool where
  usedMap : Bitmap
  /-- The address of the first page. -/
  base : ℕ

/-- The memory and the pools. -/
structure Ram where
  mem : Memory
  kernelPool : PagePool
  userPool : PagePool

/-- Something the kernel does. -/
abbrev Op := StateT Ram (Except Halt)

/-- `enum palloc_flags`. -/
structure Flags where
  assert : Bool
  zero : Bool
  user : Bool

/-- The pool that is meant. -/
def Ram.pool (s : Ram) : Bool → PagePool
  | true => s.userPool
  | false => s.kernelPool

/-- The bitmap of a pool is replaced. -/
def Ram.setUsed (s : Ram) (user : Bool) (b : Bitmap) : Ram :=
  match user with
  | true => { s with userPool := { s.userPool with usedMap := b } }
  | false => { s with kernelPool := { s.kernelPool with usedMap := b } }

/-- The result of a function with assertions. -/
def asserted {α : Type} : Option α → Except Halt α
  | some a => return a
  | none => throw .assertion

/-- `memset`. It does not reach beyond the last address. -/
def memset (a : ℕ) (v : UInt8) (n : ℕ) : Op Unit := do
  if a + n ≤ 2 ^ 32 then modify fun s => { s with mem := s.mem.fill a n v } else throw .wild

/-- `palloc_get_multiple`. -/
def pallocGetMultiple (flags : Flags) (pageCnt : ℕ) : Op (Option ℕ) := do
  if pageCnt = 0 then return none
  else
    let s ← get
    let pool := s.pool flags.user
    let (pageIdx, b) ← asserted (bitmapScanAndFlip pool.usedMap 0 pageCnt false)
    set (s.setUsed flags.user b)
    if pageIdx ≠ bitmapError then
      let pages := pool.base + pgSize * pageIdx
      if flags.zero then
        memset pages 0 (pgSize * pageCnt)
        return some pages
      else return some pages
    else if flags.assert then throw .panic
    else return none

/-- `palloc_get_page`. -/
def pallocGetPage (flags : Flags) : Op (Option ℕ) := pallocGetMultiple flags 1

/-- `page_from_pool`. -/
def PageFromPool (pool : PagePool) (page : ℕ) : Prop :=
  page / pgSize ≥ pool.base / pgSize ∧ page / pgSize < pool.base / pgSize + pool.usedMap.bitCnt

instance (pool : PagePool) (page : ℕ) : Decidable (PageFromPool pool page) := inferInstanceAs (Decidable (_ ∧ _))

/-- What `palloc_free_multiple` does when it has found the pool. -/
def freeIn (user : Bool) (pages pageCnt : ℕ) : Op Unit := do
  let pool := (← get).pool user
  let pageIdx := pages / pgSize - pool.base / pgSize
  memset pages 0xcc (pgSize * pageCnt)
  assert (← asserted (bitmapAll pool.usedMap pageIdx pageCnt))
  let b ← asserted (bitmapSetMultiple pool.usedMap pageIdx pageCnt false)
  modify fun s => s.setUsed user b

/-- `palloc_free_multiple`. -/
def pallocFreeMultiple (pages pageCnt : ℕ) : Op Unit := do
  assert (pages % pgSize = 0)
  if pages = 0 ∨ pageCnt = 0 then return
  else
    let s ← get
    if PageFromPool s.kernelPool pages then freeIn false pages pageCnt
    else if PageFromPool s.userPool pages then freeIn true pages pageCnt
    else throw .panic

/-- `palloc_free_page`. -/
def pallocFreePage (page : ℕ) : Op Unit := pallocFreeMultiple page 1

/-! ### Owners -/

/-- Where the pools lie. `palloc_init` puts the user pool behind the kernel pool. -/
structure Ram.Valid (s : Ram) : Prop where
  kernel_aligned : s.kernelPool.base % pgSize = 0
  user_aligned : s.userPool.base % pgSize = 0
  kernel_pos : 0 < s.kernelPool.base
  order : s.kernelPool.base + pgSize * s.kernelPool.usedMap.bitCnt ≤ s.userPool.base
  fits : s.userPool.base + pgSize * s.userPool.usedMap.bitCnt ≤ 2 ^ 32

/-- Somebody owns the ranges `live` of pages of a pool. -/
def Ram.Owns (s : Ram) (user : Bool) (live : List (ℕ × ℕ)) : Prop := Pool.Held ⟨(s.pool user).usedMap, live⟩

/-- The address of a page. -/
def Ram.page (s : Ram) (user : Bool) (idx : ℕ) : ℕ := (s.pool user).base + pgSize * idx

variable {s s' : Ram} {user : Bool} {live : List (ℕ × ℕ)} {idx cnt : ℕ} {b : Bitmap}

theorem setUsed_self : s.setUsed user (s.pool user).usedMap = s := by cases user <;> rfl

theorem Ram.Valid.aligned (h : s.Valid) (user : Bool) : (s.pool user).base % pgSize = 0 := by
  cases user
  · exact h.kernel_aligned
  · exact h.user_aligned

theorem Ram.Valid.base_pos (h : s.Valid) (user : Bool) : 0 < (s.pool user).base := by
  have h₁ := h.kernel_pos
  have h₂ := h.order
  cases user
  · exact h₁
  · change 0 < s.userPool.base
    omega

theorem Ram.Valid.pool_fits (h : s.Valid) (user : Bool) :
    (s.pool user).base + pgSize * (s.pool user).usedMap.bitCnt ≤ 2 ^ 32 := by
  have h₁ := h.order
  have h₂ := h.fits
  cases user
  · change s.kernelPool.base + pgSize * s.kernelPool.usedMap.bitCnt ≤ 2 ^ 32
    omega
  · exact h₂

theorem Ram.Valid.setUsed (h : s.Valid) (hb : b.bitCnt = (s.pool user).usedMap.bitCnt) : (s.setUsed user b).Valid := by
  cases user
  · refine ⟨h.kernel_aligned, h.user_aligned, h.kernel_pos, ?_, h.fits⟩
    change s.kernelPool.base + pgSize * b.bitCnt ≤ s.userPool.base
    rw [hb]
    exact h.order
  · refine ⟨h.kernel_aligned, h.user_aligned, h.kernel_pos, h.order, ?_⟩
    change s.userPool.base + pgSize * b.bitCnt ≤ 2 ^ 32
    rw [hb]
    exact h.fits

theorem Ram.Valid.setMem (h : s.Valid) (m : Memory) : { s with mem := m }.Valid :=
  ⟨h.kernel_aligned, h.user_aligned, h.kernel_pos, h.order, h.fits⟩

/-- The pages of a range that somebody owns end inside the address space. -/
theorem Ram.Valid.range_fits (h : s.Valid) (hlive : s.Owns user live) (hr : (idx, cnt) ∈ live) :
    s.page user idx + pgSize * cnt ≤ 2 ^ 32 := by
  have hle : idx + cnt ≤ (s.pool user).usedMap.bitCnt := hlive.le _ hr
  have hfits := h.pool_fits user
  have hmul := Nat.mul_le_mul_left pgSize hle
  rw [Nat.mul_add] at hmul
  rw [Ram.page]
  omega

/-! ### Getting pages -/

section Checks

variable {σ α β : Type} {t : σ}

theorem asserted_bind (a : α) (f : α → StateT σ (Except Halt) β) :
    ((liftM (asserted (some a)) : StateT σ (Except Halt) α) >>= f) t = f a t := rfl

theorem lift_assert_bind {P : Prop} [Decidable P] (h : P) (f : Unit → StateT σ (Except Halt) β) :
    ((liftM (assert P) : StateT σ (Except Halt) Unit) >>= f) t = f () t :=
  bind_of_ok (lift_apply (if_pos h))

end Checks

theorem memset_eq {a n : ℕ} (h : a + n ≤ 2 ^ 32) (v : UInt8) :
    memset a v n s = .ok ((), { s with mem := s.mem.fill a n v }) := by
  rw [memset, if_pos h]
  rfl

/-- What `palloc_get_multiple` leaves when it has found pages. -/
def Ram.gotten (s : Ram) (zero user : Bool) (idx cnt : ℕ) (b : Bitmap) : Ram :=
  { s.setUsed user b with mem := if zero then s.mem.fill (s.page user idx) (pgSize * cnt) 0 else s.mem }

theorem Ram.Valid.gotten {zero : Bool} (h : s.Valid) (hb : b.bitCnt = (s.pool user).usedMap.bitCnt) :
    (s.gotten zero user idx cnt b).Valid :=
  (h.setUsed hb).setMem _

/-- **`palloc_get_multiple`** fails, or it hands out pages that nobody owns. -/
theorem getMultiple_spec (hv : s.Valid) (h : s.Owns user live) (zero : Bool) (hcnt : cnt ≠ 0) :
    pallocGetMultiple ⟨false, zero, user⟩ cnt s = .ok (none, s) ∨
    ∃ idx b, pallocGetMultiple ⟨false, zero, user⟩ cnt s = .ok (some (s.page user idx), s.gotten zero user idx cnt b) ∧
      Pool.Held ⟨b, (idx, cnt) :: live⟩ ∧ (s.pool user).usedMap.Sets (fun j => idx ≤ j ∧ j < idx + cnt) true b := by
  rcases bitmapScanAndFlip_eq (b := (s.pool user).usedMap) cnt false (Nat.zero_le _) with
    ⟨idx, b, hscan, hleast, hsets⟩ | ⟨hscan, -⟩
  · refine .inr ⟨idx, b, ?_, Pool.Held.add h hleast.1 hsets, hsets⟩
    have hfits : s.page user idx + pgSize * cnt ≤ 2 ^ 32 := by
      have hle := Nat.mul_le_mul_left pgSize hleast.1.le
      have hfits := hv.pool_fits user
      rw [Nat.mul_add] at hle
      rw [Ram.page]
      omega
    rw [pallocGetMultiple, if_neg hcnt, bind_of_ok get_apply, hscan, asserted_bind]
    dsimp only
    rw [bind_of_ok (set_apply _), if_pos hleast.1.ne_error]
    change (if zero = true then _ else _ : Op _) _ = _
    cases zero with
    | false => cases user <;> rfl
    | true =>
      rw [if_pos rfl]
      refine (bind_of_ok (memset_eq hfits 0)).trans ?_
      cases user <;> rfl
  · refine .inl ?_
    rw [pallocGetMultiple, if_neg hcnt, bind_of_ok get_apply, hscan, asserted_bind]
    dsimp only
    rw [bind_of_ok (set_apply _), if_neg (not_not_intro rfl), setUsed_self, if_neg Bool.false_ne_true]
    rfl

/-! ### Giving pages back -/

/-- What `palloc_free_multiple` leaves. -/
def Ram.freed (s : Ram) (user : Bool) (idx cnt : ℕ) (b : Bitmap) : Ram :=
  { s.setUsed user b with mem := s.mem.fill (s.page user idx) (pgSize * cnt) 0xcc }

theorem Ram.Valid.freed (h : s.Valid) (hb : b.bitCnt = (s.pool user).usedMap.bitCnt) : (s.freed user idx cnt b).Valid :=
  (h.setUsed hb).setMem _

theorem freeIn_spec (hv : s.Valid) (h : s.Owns user live) (hr : (idx, cnt) ∈ live) :
    ∃ b, freeIn user (s.page user idx) cnt s = .ok ((), s.freed user idx cnt b) ∧
      Pool.Held ⟨b, live.erase (idx, cnt)⟩ ∧
      (s.pool user).usedMap.Sets (fun j => idx ≤ j ∧ j < idx + cnt) false b := by
  have hidx : s.page user idx / pgSize - (s.pool user).base / pgSize = idx := by
    rw [Ram.page, Nat.add_mul_div_left _ _ (by decide), Nat.add_sub_cancel_left]
  obtain ⟨b, hset, hsets⟩ := bitmapSetMultiple_eq false (h.le _ hr)
  refine ⟨b, ?_, h.erase hr hsets, hsets⟩
  rw [freeIn, bind_of_ok get_apply, hidx, bind_of_ok (memset_eq (hv.range_fits h hr) _), bitmapAll_eq (h.le _ hr) (h.marked _ hr),
    asserted_bind, lift_assert_bind rfl, hset, asserted_bind, modify_apply]
  cases user <;> rfl

/-- **`palloc_free_multiple`** of pages that are owned: no assertion fails. -/
theorem freeMultiple_spec (hv : s.Valid) (h : s.Owns user live) (hr : (idx, cnt) ∈ live) (hcnt : cnt ≠ 0) :
    ∃ b, pallocFreeMultiple (s.page user idx) cnt s = .ok ((), s.freed user idx cnt b) ∧
      Pool.Held ⟨b, live.erase (idx, cnt)⟩ ∧
      (s.pool user).usedMap.Sets (fun j => idx ≤ j ∧ j < idx + cnt) false b := by
  obtain ⟨b, hfree, hrest⟩ := freeIn_spec hv h hr
  refine ⟨b, ?_, hrest⟩
  have haligned : s.page user idx % pgSize = 0 := by
    rw [Ram.page, Nat.add_mul_mod_self_left]
    exact hv.aligned user
  have hdiv : s.page user idx / pgSize = (s.pool user).base / pgSize + idx := Nat.add_mul_div_left _ _ (by decide)
  have hpos : ¬ (s.page user idx = 0 ∨ cnt = 0) := by
    have := hv.base_pos user
    rw [Ram.page]
    omega
  have hlt : idx < (s.pool user).usedMap.bitCnt := by
    have hle : idx + cnt ≤ (s.pool user).usedMap.bitCnt := h.le _ hr
    omega
  rw [pallocFreeMultiple, lift_assert_bind haligned, if_neg hpos, bind_of_ok get_apply]
  cases user with
  | false =>
    rw [if_pos (show PageFromPool s.kernelPool (s.page false idx) from ⟨?_, ?_⟩)]
    · exact hfree
    · rw [hdiv]
      exact Nat.le_add_right _ _
    · rw [hdiv]
      exact Nat.add_lt_add_left hlt _
  | true =>
    have hnot : ¬ PageFromPool s.kernelPool (s.page true idx) := by
      rintro ⟨-, hin⟩
      rw [hdiv] at hin
      have horder := Nat.div_le_div_right (c := pgSize) hv.order
      rw [Nat.add_mul_div_left _ _ (by decide)] at horder
      exact absurd hin (Nat.not_lt.mpr (Nat.le_trans horder (Nat.le_add_right _ _)))
    rw [if_neg hnot, if_pos (show PageFromPool s.userPool (s.page true idx) from ⟨?_, ?_⟩)]
    · exact hfree
    · rw [hdiv]
      exact Nat.le_add_right _ _
    · rw [hdiv]
      exact Nat.add_lt_add_left hlt _

end Palloc
end Pintos

import Mathlib

/-!
# 17.14 fixed-point arithmetic

`threads/fixed-point.h`. A value is an `int`; sums and products of `int`s are taken modulo 2^32 and
read as two's complement (`wrap32`), divisions truncate toward zero. `fp_mul` and `fp_div` multiply
in 64 bits, where the product of two `int`s fits, and narrow the quotient.
-/

namespace Pintos
namespace Threads

/-- A 32-bit result, two's complement. -/
def wrap32 (x : ℤ) : ℤ := x.bmod 4294967296

/-- `FP_F`. -/
def fpF : ℤ := 16384

/-- `fp_from_int`. -/
def fpFromInt (n : ℤ) : ℤ := wrap32 (n * fpF)

/-- `fp_to_int_zero`. -/
def fpToIntZero (x : ℤ) : ℤ := x.tdiv fpF

/-- `fp_to_int_nearest`. -/
def fpToIntNearest (x : ℤ) : ℤ :=
  if 0 ≤ x then (wrap32 (x + fpF.tdiv 2)).tdiv fpF else (wrap32 (x - fpF.tdiv 2)).tdiv fpF

/-- `fp_to_int_up`. -/
def fpToIntUp (x : ℤ) : ℤ :=
  if 0 ≤ x then (wrap32 (wrap32 (x + fpF) - 1)).tdiv fpF else x.tdiv fpF

/-- `fp_add`. -/
def fpAdd (x y : ℤ) : ℤ := wrap32 (x + y)

/-- `fp_sub`. -/
def fpSub (x y : ℤ) : ℤ := wrap32 (x - y)

/-- `fp_add_int`. -/
def fpAddInt (x n : ℤ) : ℤ := wrap32 (x + wrap32 (n * fpF))

/-- `fp_sub_int`. -/
def fpSubInt (x n : ℤ) : ℤ := wrap32 (x - wrap32 (n * fpF))

/-- `fp_mul`. -/
def fpMul (x y : ℤ) : ℤ := wrap32 ((x * y).tdiv fpF)

/-- `fp_mul_int`. -/
def fpMulInt (x n : ℤ) : ℤ := wrap32 (x * n)

/-- `fp_div`. -/
def fpDiv (x y : ℤ) : ℤ := wrap32 ((x * fpF).tdiv y)

/-- `fp_div_int`. -/
def fpDivInt (x n : ℤ) : ℤ := x.tdiv n

/-! ### Values that fit -/

/-- `x` is the value of an `int`. -/
def Fits (x : ℤ) : Prop := -2147483648 ≤ x ∧ x < 2147483648

instance (x : ℤ) : Decidable (Fits x) := by
  unfold Fits
  infer_instance

variable {x y n : ℤ}

theorem wrap32_of_fits (h : Fits x) : wrap32 x = x := by
  obtain ⟨hlo, hhi⟩ := h
  exact Int.bmod_eq_of_le (by omega) (by omega)

theorem fits_wrap32 (x : ℤ) : Fits (wrap32 x) := by
  have hlo := Int.le_bmod (x := x) (m := 4294967296) (by decide)
  have hhi := Int.bmod_lt (x := x) (m := 4294967296) (by decide)
  exact ⟨by unfold wrap32; omega, by unfold wrap32; omega⟩

/-- Truncation keeps what lies between two integers between them. -/
theorem tdiv_fpF_bounds {lo hi : ℤ} (hlo : lo * 16384 ≤ x) (hhi : x ≤ hi * 16384) :
    lo ≤ x.tdiv 16384 ∧ x.tdiv 16384 ≤ hi := by
  have hsign : (16384 : ℤ).sign = 1 := rfl
  rw [Int.tdiv_eq_ediv, hsign]
  split
  · omega
  · next hneg =>
    have hmod : x % 16384 ≠ 0 := fun h => hneg (.inr (Int.dvd_of_emod_eq_zero h))
    omega

/-! ### Checked operations

The same operations, with no result if one of the values that C computes on the way overflows or a
divisor is zero. -/

/-- An `int`, if there is one of this value. -/
def int32? (x : ℤ) : Option ℤ := if Fits x then some x else none

/-- An `int64_t`, if there is one of this value. -/
def int64? (x : ℤ) : Option ℤ :=
  if -9223372036854775808 ≤ x ∧ x < 9223372036854775808 then some x else none

def fpFromInt? (n : ℤ) : Option ℤ := int32? (n * fpF)

def fpAdd? (x y : ℤ) : Option ℤ := int32? (x + y)

def fpSub? (x y : ℤ) : Option ℤ := int32? (x - y)

def fpAddInt? (x n : ℤ) : Option ℤ := do int32? (x + (← int32? (n * fpF)))

def fpSubInt? (x n : ℤ) : Option ℤ := do int32? (x - (← int32? (n * fpF)))

def fpMul? (x y : ℤ) : Option ℤ := do int32? ((← int64? (x * y)).tdiv fpF)

def fpMulInt? (x n : ℤ) : Option ℤ := int32? (x * n)

def fpDiv? (x y : ℤ) : Option ℤ :=
  if y = 0 then none else do int32? ((← int64? (x * fpF)).tdiv y)

def fpDivInt? (x n : ℤ) : Option ℤ := if n = 0 then none else int32? (x.tdiv n)

theorem int32?_of_fits (h : Fits x) : int32? x = some x := if_pos h

theorem int64?_of_le (hlo : -9223372036854775808 ≤ x) (hhi : x < 9223372036854775808) :
    int64? x = some x := if_pos ⟨hlo, hhi⟩

/-- Where nothing overflows, nothing is lost. -/
theorem wrap32_of_int32? (h : int32? x = some y) : wrap32 x = y := by
  unfold int32? at h
  split at h
  · next hx => rw [wrap32_of_fits hx, Option.some.inj h]
  · cases h

theorem eq_of_int64? (h : int64? x = some y) : x = y := by
  unfold int64? at h
  split at h
  · exact Option.some.inj h
  · cases h

variable {z : ℤ}

theorem fpFromInt_of_checked (h : fpFromInt? n = some z) : fpFromInt n = z := wrap32_of_int32? h

theorem fpAdd_of_checked (h : fpAdd? x y = some z) : fpAdd x y = z := wrap32_of_int32? h

theorem fpSub_of_checked (h : fpSub? x y = some z) : fpSub x y = z := wrap32_of_int32? h

theorem fpMulInt_of_checked (h : fpMulInt? x n = some z) : fpMulInt x n = z := wrap32_of_int32? h

theorem fpAddInt_of_checked (h : fpAddInt? x n = some z) : fpAddInt x n = z := by
  obtain ⟨m, hm, hz⟩ := Option.bind_eq_some_iff.mp h
  rw [fpAddInt, wrap32_of_int32? hm, wrap32_of_int32? hz]

theorem fpSubInt_of_checked (h : fpSubInt? x n = some z) : fpSubInt x n = z := by
  obtain ⟨m, hm, hz⟩ := Option.bind_eq_some_iff.mp h
  rw [fpSubInt, wrap32_of_int32? hm, wrap32_of_int32? hz]

theorem fpMul_of_checked (h : fpMul? x y = some z) : fpMul x y = z := by
  obtain ⟨m, hm, hz⟩ := Option.bind_eq_some_iff.mp h
  rw [fpMul, eq_of_int64? hm, wrap32_of_int32? hz]

theorem fpDiv_of_checked (h : fpDiv? x y = some z) : fpDiv x y = z := by
  unfold fpDiv? at h
  split at h
  · cases h
  · obtain ⟨m, hm, hz⟩ := Option.bind_eq_some_iff.mp h
    rw [fpDiv, eq_of_int64? hm, wrap32_of_int32? hz]

theorem fpDivInt_of_checked (h : fpDivInt? x n = some z) : fpDivInt x n = z := by
  unfold fpDivInt? int32? at h
  split at h
  · cases h
  · split at h
    · exact Option.some.inj h
    · cases h

theorem fpAddInt?_of_fits (hn : Fits (n * 16384)) (h : Fits (x + n * 16384)) :
    fpAddInt? x n = some (x + n * 16384) := by
  simp [fpAddInt?, fpF, int32?_of_fits hn, int32?_of_fits h]

theorem fpSubInt?_of_fits (hn : Fits (n * 16384)) (h : Fits (x - n * 16384)) :
    fpSubInt? x n = some (x - n * 16384) := by
  simp [fpSubInt?, fpF, int32?_of_fits hn, int32?_of_fits h]

/-- A product that fits after the division fits into 64 bits before it. -/
theorem fpMul?_of_le {a b : ℤ} (hlo : a * 16384 ≤ x * y) (hhi : x * y ≤ b * 16384) (hlo' : Fits a)
    (hhi' : Fits b) : fpMul? x y = some ((x * y).tdiv 16384) := by
  obtain ⟨h1, h2⟩ := tdiv_fpF_bounds hlo hhi
  unfold Fits at hlo' hhi'
  have h64 : int64? (x * y) = some (x * y) := int64?_of_le (by omega) (by omega)
  simp [fpMul?, fpF, h64, int32?_of_fits (x := (x * y).tdiv 16384) ⟨by omega, by omega⟩]

end Threads
end Pintos

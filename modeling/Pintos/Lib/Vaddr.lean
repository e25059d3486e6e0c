import Mathlib

/-!
# Virtual addresses

The constants and functions of `threads/vaddr.h` and `lib/round.h`. The code computes with words of 32
bits, which wrap around; `toNat_add_of_lt` and its like turn a computation that does not into one with
numbers.
-/

namespace Pintos
namespace Vaddr

/-- `PGSIZE`. -/
def pgSize : ℕ := 4096

/-- `PHYS_BASE`. -/
def physBase : ℕ := 0xC0000000

/-- `PGSIZE`, as a word. -/
def pgWord : UInt32 := 4096

/-- `PGMASK`. -/
def pgMask : UInt32 := 0xFFF

/-- `pg_ofs`. -/
def pgOfs (va : UInt32) : UInt32 := va &&& pgMask

/-- `pg_round_down`. -/
def pgRoundDown (va : UInt32) : UInt32 := va &&& ~~~pgMask

/-- `is_user_vaddr`. -/
def isUserVaddr (va : UInt32) : Bool := va < 0xC0000000

/-- `ROUND_UP`. -/
def roundUp (x step : UInt32) : UInt32 := (x + step - 1) / step * step

/-! ### Words as numbers -/

variable {a b : UInt32}

theorem toNat_add_of_lt (h : a.toNat + b.toNat < 2 ^ 32) : (a + b).toNat = a.toNat + b.toNat := by
  rw [UInt32.toNat_add, Nat.mod_eq_of_lt h]

theorem toNat_sub_of_le (h : b.toNat ≤ a.toNat) : (a - b).toNat = a.toNat - b.toNat :=
  UInt32.toNat_sub_of_le a b (UInt32.le_iff_toNat_le.mpr h)

@[simp] theorem toNat_pgWord : pgWord.toNat = 4096 := rfl

theorem toNat_pgOfs (va : UInt32) : (pgOfs va).toNat = va.toNat % 4096 := by
  rw [pgOfs, UInt32.toNat_and]
  exact Nat.and_two_pow_sub_one_eq_mod va.toNat 12

theorem pgOfs_eq_zero {va : UInt32} : pgOfs va = 0 ↔ va.toNat % 4096 = 0 := by
  rw [← toNat_pgOfs, ← UInt32.toNat_inj]
  rfl

theorem toNat_pgRoundDown (va : UInt32) : (pgRoundDown va).toNat = va.toNat / 4096 * 4096 := by
  have hmask : (~~~pgMask).toNat = (2 ^ 20 - 1) <<< 12 := rfl
  have hdiv : va.toNat / 4096 * 4096 = (va.toNat >>> 12) <<< 12 := by
    rw [Nat.shiftRight_eq_div_pow, Nat.shiftLeft_eq]
  rw [pgRoundDown, UInt32.toNat_and, hmask, hdiv]
  refine Nat.eq_of_testBit_eq fun i => ?_
  rw [Nat.testBit_and, Nat.testBit_shiftLeft, Nat.testBit_shiftLeft, Nat.testBit_two_pow_sub_one,
    Nat.testBit_shiftRight]
  by_cases hi : 12 ≤ i
  · by_cases hi' : i < 32
    · have hlt : i - 12 < 20 := by omega
      have hback : 12 + (i - 12) = i := by omega
      simp [hi, hlt, hback]
    · -- a word has no bits there
      have hbit : va.toNat.testBit i = false :=
        Nat.testBit_lt_two_pow (Nat.lt_of_lt_of_le va.toNat_lt (Nat.pow_le_pow_right (by decide) (by omega)))
      have hback : 12 + (i - 12) = i := by omega
      simp [hback, hbit]
  · simp [hi]

theorem isUserVaddr_iff {va : UInt32} : isUserVaddr va = true ↔ va.toNat < 0xC0000000 := by
  rw [isUserVaddr, decide_eq_true_iff, UInt32.lt_iff_toNat_lt]
  rfl

/-- Rounding up to pages, as long as it does not reach the end of the address space. -/
theorem toNat_roundUp {x : UInt32} (h : x.toNat + 4095 < 2 ^ 32) :
    (roundUp x pgWord).toNat = (x.toNat + 4095) / 4096 * 4096 := by
  have hsum : (x + pgWord - 1).toNat = x.toNat + 4095 := by
    have hx := x.toNat_lt
    rw [UInt32.toNat_sub, UInt32.toNat_add, toNat_pgWord, UInt32.toNat_one]
    omega
  rw [roundUp, UInt32.toNat_mul, UInt32.toNat_div, hsum, toNat_pgWord, Nat.mod_eq_of_lt (by omega)]

end Vaddr
end Pintos

import Mathlib

/-!
# 64-bit division

`lib/arithmetic.c`, which gcc calls for 64-bit division on a machine of 32 bits. The only division that the
machine offers is `divl`: it divides 64 bits by 32 and traps if the quotient does not fit in 32 bits. A trap is
`none` here. Unsigned and signed arithmetic wrap around.

* `udiv64_eq` — the quotient is exact and nothing traps. If the divisor has more than 32 bits, it is
  normalised, and the quotient by its upper half is at most one too large (`estimate_le`, `le_estimate`);
* `sdiv64_eq` — so is the signed quotient;
* `mod_exact_iff` — `umod64` and `smod64` return 32 bits, and the remainder is right if and only if it fits.
-/

namespace Pintos
namespace Clib

/-- `divl`. It traps if the divisor is 0 or the quotient has more than 32 bits. -/
def divl (n : UInt64) (d : UInt32) : Option UInt32 :=
  if d = 0 ∨ 2 ^ 32 ≤ n.toNat / d.toNat then none else some (UInt32.ofNat (n.toNat / d.toNat))

/-- One of the tests of `nlz`: if `x` is at most `bound`, it has `k` leading zeros more. -/
def nlzStep (bound : UInt32) (k : ℕ) (p : ℕ × UInt32) : ℕ × UInt32 :=
  if p.2 ≤ bound then (p.1 + k, p.2 <<< UInt32.ofNat k) else p

/-- `nlz`. -/
def nlz (x : UInt32) : ℕ :=
  let p := nlzStep 0x0000FFFF 16 (0, x)
  let p := nlzStep 0x00FFFFFF 8 p
  let p := nlzStep 0x0FFFFFFF 4 p
  let p := nlzStep 0x3FFFFFFF 2 p
  if p.2 ≤ 0x7FFFFFFF then p.1 + 1 else p.1

/-- `udiv64`. -/
def udiv64 (n d : UInt64) : Option UInt64 := do
  if d >>> 32 = 0 then
    let b := (1 : UInt64) <<< 32
    let n1 := (n >>> 32).toUInt32
    let n0 := n.toUInt32
    let d0 := d.toUInt32
    let q ← divl (b * (n1 % d0).toUInt64 + n0.toUInt64) d0
    return q.toUInt64 + b * (n1 / d0).toUInt64
  else if n < d then return 0
  else
    let d1 := (d >>> 32).toUInt32
    let s := nlz d1
    let q ← divl (n >>> 1) ((d <<< UInt64.ofNat s) >>> 32).toUInt32
    let q := (q >>> UInt32.ofNat (31 - s)).toUInt64
    return if n - (q - 1) * d < d then q - 1 else q

/-- `umod64`. -/
def umod64 (n d : UInt64) : Option UInt32 := do
  let q ← udiv64 n d
  return (n - d * q).toUInt32

/-- The absolute value that `sdiv64` takes. -/
def abs64 (n : Int64) : UInt64 := if 0 ≤ n then n.toUInt64 else -n.toUInt64

/-- `sdiv64`. -/
def sdiv64 (n d : Int64) : Option Int64 := do
  let q ← udiv64 (abs64 n) (abs64 d)
  return if (n < 0) = (d < 0) then q.toInt64 else -q.toInt64

/-- `smod64`. -/
def smod64 (n d : Int64) : Option Int32 := do
  let q ← sdiv64 n d
  return (n - d * q).toInt32

/-- `__divdi3`. -/
def divdi3 (n d : Int64) : Option Int64 := sdiv64 n d

/-- `__moddi3`. -/
def moddi3 (n d : Int64) : Option Int64 := (smod64 n d).map Int32.toInt64

/-- `__udivdi3`. -/
def udivdi3 (n d : UInt64) : Option UInt64 := udiv64 n d

/-- `__umoddi3`. -/
def umoddi3 (n d : UInt64) : Option UInt64 := (umod64 n d).map UInt32.toUInt64

/-! ### The instruction -/

theorem divl_eq {n : UInt64} {d : UInt32} (hd : 0 < d.toNat) (hq : n.toNat / d.toNat < 2 ^ 32) :
    ∃ q : UInt32, divl n d = some q ∧ q.toNat = n.toNat / d.toNat := by
  refine ⟨UInt32.ofNat (n.toNat / d.toNat), ?_, ?_⟩
  · have hd0 : d ≠ 0 := by
      rintro rfl
      simp at hd
    rw [divl, if_neg (not_or.mpr ⟨hd0, Nat.not_le.mpr hq⟩)]
  · rw [UInt32.toNat_ofNat_of_lt' hq]

/-! ### Leading zeros -/

theorem fst_nlzStep (bound : UInt32) (k : ℕ) (p : ℕ × UInt32) :
    (nlzStep bound k p).1 = if p.2 ≤ bound then p.1 + k else p.1 := by
  unfold nlzStep
  split <;> rfl

/-- Between the tests of `nlz`: the second component is `x` shifted by the first without loss, and it has fewer
than `m` leading zeros. -/
structure Shifted (x : UInt32) (m : ℕ) (p : ℕ × UInt32) : Prop where
  value : p.2.toNat = x.toNat * 2 ^ p.1
  high : 2 ^ (32 - m) ≤ p.2.toNat
  count : p.1 + m ≤ 32

/-- A test halves the number of the zeros that may be left. -/
theorem Shifted.nlzStep {x : UInt32} {p : ℕ × UInt32} (bound : UInt32) (k : ℕ) (h : Shifted x (2 * k) p) (hk : 0 < k)
    (hbound : bound.toNat + 1 = 2 ^ (32 - k)) : Shifted x k (nlzStep bound k p) := by
  obtain ⟨hvalue, hhigh, hcount⟩ := h
  unfold Clib.nlzStep
  by_cases hle : p.2 ≤ bound
  · have hle' : p.2.toNat ≤ bound.toNat := UInt32.le_iff_toNat_le.mp hle
    have hfits : p.2.toNat * 2 ^ k < 2 ^ 32 := by
      calc p.2.toNat * 2 ^ k < 2 ^ (32 - k) * 2 ^ k :=
            Nat.mul_lt_mul_of_pos_right (by omega) (Nat.two_pow_pos k)
        _ = 2 ^ 32 := by rw [← Nat.pow_add, Nat.sub_add_cancel (by omega)]
    have hshift : (p.2 <<< UInt32.ofNat k).toNat = p.2.toNat * 2 ^ k := by
      rw [UInt32.toNat_shiftLeft, UInt32.toNat_ofNat_of_lt' (Nat.lt_of_le_of_lt (by omega : k ≤ 16) (by decide)),
        Nat.mod_eq_of_lt (by omega : k < 32), Nat.shiftLeft_eq, Nat.mod_eq_of_lt hfits]
    rw [if_pos hle]
    refine ⟨?_, ?_, by dsimp only; omega⟩
    · rw [hshift, hvalue, Nat.mul_assoc, ← Nat.pow_add]
    · calc 2 ^ (32 - k) = 2 ^ (32 - 2 * k) * 2 ^ k := by rw [← Nat.pow_add]; congr 1; omega
        _ ≤ p.2.toNat * 2 ^ k := Nat.mul_le_mul_right _ hhigh
        _ = _ := hshift.symm
  · have hlt := Nat.lt_of_not_le (mt UInt32.le_iff_toNat_le.mpr hle)
    rw [if_neg hle]
    exact ⟨hvalue, by omega, by omega⟩

/-- **Normalisation.** Shifted by its leading zeros a number has its highest bit set. -/
theorem nlz_spec {x : UInt32} (hx : 0 < x.toNat) :
    nlz x ≤ 31 ∧ 2 ^ 31 ≤ x.toNat * 2 ^ nlz x ∧ x.toNat * 2 ^ nlz x < 2 ^ 32 := by
  have h32 : Shifted x 32 (0, x) := ⟨by simp, hx, Nat.le_refl 32⟩
  have h16 := h32.nlzStep 0x0000FFFF 16 (by decide) (by decide)
  have h8 := h16.nlzStep 0x00FFFFFF 8 (by decide) (by decide)
  have h4 := h8.nlzStep 0x0FFFFFFF 4 (by decide) (by decide)
  have h2 := h4.nlzStep 0x3FFFFFFF 2 (by decide) (by decide)
  have h1 := h2.nlzStep 0x7FFFFFFF 1 (by decide) (by decide)
  -- the last test needs no shift, since nothing reads the word after it
  have hnlz := fst_nlzStep 0x7FFFFFFF 1
    (Clib.nlzStep 0x3FFFFFFF 2 (Clib.nlzStep 0x0FFFFFFF 4 (Clib.nlzStep 0x00FFFFFF 8
      (Clib.nlzStep 0x0000FFFF 16 (0, x)))))
  obtain ⟨hvalue, hhigh, hcount⟩ := h1
  rw [hnlz] at hvalue hcount
  change _ = x.toNat * 2 ^ nlz x at hvalue
  change nlz x + 1 ≤ 32 at hcount
  rw [← hvalue]
  exact ⟨by omega, hhigh, UInt32.toNat_lt _⟩

/-! ### The estimate -/

section
variable {N D s : ℕ}

/-- The upper half of the shifted divisor is the divisor without its low bits. -/
theorem div_normalised (hs : s ≤ 32) : D * 2 ^ s / 2 ^ 32 = D / 2 ^ (32 - s) := by
  have h32 : 2 ^ 32 = 2 ^ (32 - s) * 2 ^ s := by rw [← Nat.pow_add, Nat.sub_add_cancel hs]
  rw [h32, Nat.mul_div_mul_right _ _ (Nat.two_pow_pos s)]

/-- The three divisions of the estimate are one, by the divisor with its low bits cleared. -/
theorem estimate_eq (v : ℕ) (hs : s ≤ 31) : N / 2 / v / 2 ^ (31 - s) = N / (v * 2 ^ (32 - s)) := by
  have hpow : 2 ^ (32 - s) = 2 * 2 ^ (31 - s) := by
    rw [← Nat.pow_succ']
    congr 1
    omega
  rw [Nat.div_div_eq_div_mul, Nat.div_div_eq_div_mul, hpow,
    Nat.mul_left_comm 2 v]

/-- **The estimate is never too small.** -/
theorem le_estimate (hlow : 0 < D / 2 ^ (32 - s)) :
    N / D ≤ N / (D / 2 ^ (32 - s) * 2 ^ (32 - s)) :=
  Nat.div_le_div_left (Nat.div_mul_le_self _ _) (Nat.mul_pos hlow (Nat.two_pow_pos _))

/-- The low bits of the divisor, as often as the quotient takes them, are not more than the rest of it. -/
theorem tail_le (hN : N < 2 ^ 64) (hs : s ≤ 31) (hlow : 2 ^ 31 ≤ D / 2 ^ (32 - s)) :
    (N / D + 1) * (D % 2 ^ (32 - s)) ≤ D / 2 ^ (32 - s) * 2 ^ (32 - s) := by
  have hAB : 2 ^ s * 2 ^ (32 - s) = 2 ^ 32 := by rw [← Nat.pow_add, Nat.add_sub_cancel' (by omega)]
  have hw : 2 ^ 31 * 2 ^ (32 - s) ≤ D / 2 ^ (32 - s) * 2 ^ (32 - s) := Nat.mul_le_mul_right _ hlow
  have hr : D % 2 ^ (32 - s) < 2 ^ (32 - s) := Nat.mod_lt _ (Nat.two_pow_pos _)
  have hQ : N / D < 2 * 2 ^ s := by
    apply Nat.div_lt_of_lt_mul
    calc N < 2 ^ 31 * 2 ^ (32 - s) * (2 * 2 ^ s) := by
          rw [Nat.mul_assoc, Nat.mul_left_comm (2 ^ (32 - s)), Nat.mul_comm (2 ^ (32 - s)), hAB]
          exact hN
      _ ≤ D * (2 * 2 ^ s) := Nat.mul_le_mul_right _ (Nat.le_trans hw (Nat.div_mul_le_self _ _))
  calc (N / D + 1) * (D % 2 ^ (32 - s)) ≤ 2 * 2 ^ s * (D % 2 ^ (32 - s)) := Nat.mul_le_mul_right _ hQ
    _ ≤ 2 ^ 31 * 2 ^ (32 - s) := ?_
    _ ≤ _ := hw
  rcases Nat.lt_or_eq_of_le hs with hlt | rfl
  · -- four or more low bits' worth: the product is below `2 ^ 33`
    have hB : 2 ^ 2 ≤ 2 ^ (32 - s) := Nat.pow_le_pow_right (by decide) (by omega)
    calc 2 * 2 ^ s * (D % 2 ^ (32 - s)) ≤ 2 * 2 ^ s * 2 ^ (32 - s) := Nat.mul_le_mul_left _ (Nat.le_of_lt hr)
      _ = 2 ^ 31 * 2 ^ 2 := by rw [Nat.mul_assoc, hAB]; decide
      _ ≤ 2 ^ 31 * 2 ^ (32 - s) := Nat.mul_le_mul_left _ hB
  · omega

/-- **The estimate is at most one too large.** -/
theorem estimate_le (hN : N < 2 ^ 64) (hs : s ≤ 31) (hlow : 2 ^ 31 ≤ D / 2 ^ (32 - s)) :
    N / (D / 2 ^ (32 - s) * 2 ^ (32 - s)) ≤ N / D + 1 := by
  have htail := tail_le hN hs hlow
  have hsplit := Nat.div_add_mod' D (2 ^ (32 - s))
  have hpos : 0 < D := by
    have := Nat.div_mul_le_self D (2 ^ (32 - s))
    have := Nat.mul_pos (Nat.lt_of_lt_of_le (by decide) hlow) (Nat.two_pow_pos (32 - s))
    omega
  have hlt := Nat.lt_mul_div_succ N hpos
  apply Nat.le_of_lt_succ
  apply Nat.div_lt_of_lt_mul
  generalize D / 2 ^ (32 - s) * 2 ^ (32 - s) = w at *
  generalize N / D = Q at *
  calc N < D * (Q + 1) := hlt
    _ = w * (Q + 1) + (Q + 1) * (D % 2 ^ (32 - s)) := by rw [Nat.mul_comm (Q + 1), ← Nat.add_mul, hsplit]
    _ ≤ w * (Q + 1) + w := Nat.add_le_add_left htail _
    _ = w * (Q + 1 + 1) := (Nat.mul_succ _ _).symm

/-- The test that `udiv64` makes picks the quotient out of the two candidates. -/
theorem correct_estimate {q : ℕ} (hD : 0 < D) (hle : D ≤ N) (hlow : N / D ≤ q) (hhigh : q ≤ N / D + 1) :
    (if N - (q - 1) * D < D then q - 1 else q) = N / D := by
  have hpos : 0 < N / D := Nat.div_pos hle hD
  have hmod := Nat.div_add_mod' N D
  have hlt := Nat.mod_lt N hD
  obtain rfl | rfl : q = N / D ∨ q = N / D + 1 := by omega
  · have hback : (N / D - 1) * D = N / D * D - D := by rw [Nat.sub_mul, Nat.one_mul]
    have := Nat.le_mul_of_pos_left D hpos
    rw [if_neg (by omega)]
  · rw [Nat.add_sub_cancel, if_pos (by omega)]

end

/-! ### The unsigned quotient -/

theorem toNat_hi (n : UInt64) : (n >>> 32).toUInt32.toNat = n.toNat / 2 ^ 32 := by
  have := n.toNat_lt
  rw [UInt64.toNat_toUInt32, UInt64.toNat_shiftRight]
  change n.toNat >>> 32 % _ = _
  rw [Nat.shiftRight_eq_div_pow]
  omega

/-- Long division by one digit. -/
theorem long_division {b n1 n0 d : ℕ} (hd : 0 < d) :
    (b * n1 + n0) / d = (b * (n1 % d) + n0) / d + b * (n1 / d) := by
  have hsplit : b * n1 + n0 = d * (b * (n1 / d)) + (b * (n1 % d) + n0) := by
    nth_rewrite 1 [← Nat.div_add_mod n1 d]
    rw [Nat.mul_add, Nat.mul_left_comm, Nat.add_assoc]
  rw [hsplit, Nat.mul_add_div hd, Nat.add_comm]

/-- A divisor of 32 bits: the upper half of the dividend is divided first, then what is left of it with the lower
half. -/
theorem udiv64_of_small {n d : UInt64} (hd : 0 < d.toNat) (hlow : d.toNat < 2 ^ 32) :
    (udiv64 n d).map UInt64.toNat = some (n.toNat / d.toNat) := by
  have hn := n.toNat_lt
  have hhi : d >>> 32 = 0 := by
    apply UInt64.toNat_inj.mp
    rw [UInt64.toNat_shiftRight]
    change d.toNat >>> 32 = 0
    rw [Nat.shiftRight_eq_div_pow]
    omega
  have hd0 : d.toUInt32.toNat = d.toNat := by
    rw [UInt64.toNat_toUInt32]
    exact Nat.mod_eq_of_lt hlow
  have hn0 : n.toUInt32.toNat = n.toNat % 2 ^ 32 := UInt64.toNat_toUInt32 n
  have hr := Nat.mod_lt (n.toNat / 2 ^ 32) hd
  -- neither the dividend of `divl` nor the sum wraps around
  have hnum : ((1 : UInt64) <<< 32 * ((n >>> 32).toUInt32 % d.toUInt32).toUInt64 + n.toUInt32.toUInt64).toNat =
      2 ^ 32 * (n.toNat / 2 ^ 32 % d.toNat) + n.toNat % 2 ^ 32 := by
    rw [UInt64.toNat_add, UInt64.toNat_mul, UInt32.toNat_toUInt64, UInt32.toNat_toUInt64, UInt32.toNat_mod,
      toNat_hi, hd0, hn0]
    change (2 ^ 32 * _ % 2 ^ 64 + _) % 2 ^ 64 = _
    omega
  have hquot : (2 ^ 32 * (n.toNat / 2 ^ 32 % d.toNat) + n.toNat % 2 ^ 32) / d.toNat < 2 ^ 32 := by
    apply Nat.div_lt_of_lt_mul
    calc 2 ^ 32 * (n.toNat / 2 ^ 32 % d.toNat) + n.toNat % 2 ^ 32
        < 2 ^ 32 * (n.toNat / 2 ^ 32 % d.toNat + 1) := by omega
      _ ≤ 2 ^ 32 * d.toNat := Nat.mul_le_mul_left _ hr
      _ = d.toNat * 2 ^ 32 := Nat.mul_comm _ _
  obtain ⟨q, hdivl, hq⟩ := divl_eq (d := d.toUInt32) (by rw [hd0]; exact hd) (by rw [hnum, hd0]; exact hquot)
  have hlong : n.toNat / d.toNat = q.toNat + 2 ^ 32 * (n.toNat / 2 ^ 32 / d.toNat) := by
    rw [hq, hnum, hd0, ← long_division hd, Nat.div_add_mod]
  have hfits : n.toNat / d.toNat < 2 ^ 64 := Nat.lt_of_le_of_lt (Nat.div_le_self _ _) hn
  rw [udiv64, if_pos hhi]
  simp only [hdivl, Option.bind_eq_bind, Option.bind_some, Option.pure_def, Option.map_some]
  rw [hlong, UInt64.toNat_add, UInt64.toNat_mul, UInt32.toNat_toUInt64, UInt32.toNat_toUInt64, UInt32.toNat_div,
    toNat_hi, hd0]
  congr 1
  change (_ + 2 ^ 32 * _ % 2 ^ 64) % 2 ^ 64 = _
  omega

/-- The divisor shifted by the leading zeros of its upper half keeps all its bits, and its highest bit is set. -/
theorem normalised {d : UInt64} (hlow : 2 ^ 32 ≤ d.toNat) {s : ℕ} (hs : nlz (d >>> 32).toUInt32 = s) :
    s ≤ 31 ∧ ((d <<< UInt64.ofNat s) >>> 32).toUInt32.toNat = d.toNat / 2 ^ (32 - s) ∧
      2 ^ 31 ≤ d.toNat / 2 ^ (32 - s) := by
  obtain ⟨hs31, hnorm, hnorm'⟩ := nlz_spec (x := (d >>> 32).toUInt32) (by rw [toNat_hi]; omega)
  rw [toNat_hi, hs] at hnorm hnorm'
  rw [hs] at hs31
  have hAB : 2 ^ (32 - s) * 2 ^ s = 2 ^ 32 := by rw [← Nat.pow_add, Nat.sub_add_cancel (by omega)]
  have hupper : d.toNat / 2 ^ 32 < 2 ^ (32 - s) :=
    Nat.lt_of_mul_lt_mul_right (Nat.lt_of_lt_of_eq hnorm' hAB.symm)
  have hshift : d.toNat * 2 ^ s < 2 ^ 64 := by
    calc d.toNat * 2 ^ s < 2 ^ (32 - s) * 2 ^ 32 * 2 ^ s :=
          Nat.mul_lt_mul_of_pos_right (by omega) (Nat.two_pow_pos s)
      _ = 2 ^ 64 := by rw [Nat.mul_right_comm, hAB]; decide
  refine ⟨hs31, ?_, ?_⟩
  · rw [toNat_hi, UInt64.toNat_shiftLeft, UInt64.toNat_ofNat_of_lt' (Nat.lt_of_le_of_lt hs31 (by decide)),
      Nat.mod_eq_of_lt (by omega : s < 64), Nat.shiftLeft_eq, Nat.mod_eq_of_lt hshift, div_normalised (by omega)]
  · rw [← div_normalised (by omega), Nat.le_div_iff_mul_le (by decide)]
    calc 2 ^ 31 * 2 ^ 32 ≤ d.toNat / 2 ^ 32 * 2 ^ s * 2 ^ 32 := Nat.mul_le_mul_right _ hnorm
      _ = d.toNat / 2 ^ 32 * 2 ^ 32 * 2 ^ s := Nat.mul_right_comm _ _ _
      _ ≤ d.toNat * 2 ^ s := Nat.mul_le_mul_right _ (Nat.div_mul_le_self _ _)

/-- The estimate that `udiv64` makes: `divl` does not trap, and the quotient or one more comes out. -/
theorem estimate {n d : UInt64} (hlow : 2 ^ 32 ≤ d.toNat) {s : ℕ} (hs : nlz (d >>> 32).toUInt32 = s) :
    ∃ q, divl (n >>> 1) ((d <<< UInt64.ofNat s) >>> 32).toUInt32 = some q ∧
      n.toNat / d.toNat ≤ (q >>> UInt32.ofNat (31 - s)).toUInt64.toNat ∧
      (q >>> UInt32.ofNat (31 - s)).toUInt64.toNat ≤ n.toNat / d.toNat + 1 := by
  have hn := n.toNat_lt
  obtain ⟨hs31, hv, hvlow⟩ := normalised hlow hs
  have hnum : (n >>> 1).toNat = n.toNat / 2 := by
    rw [UInt64.toNat_shiftRight]
    exact Nat.shiftRight_eq_div_pow _ 1
  have hquot : n.toNat / 2 / (d.toNat / 2 ^ (32 - s)) < 2 ^ 32 := by
    apply Nat.div_lt_of_lt_mul
    calc n.toNat / 2 < 2 ^ 31 * 2 ^ 32 := by omega
      _ ≤ _ := Nat.mul_le_mul_right _ hvlow
  obtain ⟨q, hdivl, hq⟩ := divl_eq (n := n >>> 1) (d := ((d <<< UInt64.ofNat s) >>> 32).toUInt32)
    (by rw [hv]; omega) (by rw [hv, hnum]; exact hquot)
  have hest : (q >>> UInt32.ofNat (31 - s)).toUInt64.toNat =
      n.toNat / (d.toNat / 2 ^ (32 - s) * 2 ^ (32 - s)) := by
    rw [UInt32.toNat_toUInt64, UInt32.toNat_shiftRight,
      UInt32.toNat_ofNat_of_lt' (Nat.lt_of_le_of_lt (Nat.sub_le 31 s) (by decide)),
      Nat.mod_eq_of_lt (by omega : 31 - s < 32), Nat.shiftRight_eq_div_pow, hq, hv, hnum, estimate_eq _ hs31]
  refine ⟨q, hdivl, ?_, ?_⟩
  · rw [hest]
    exact le_estimate (by omega)
  · rw [hest]
    exact estimate_le hn hs31 hvlow

/-- A larger divisor. -/
theorem udiv64_of_large {n d : UInt64} (hlow : 2 ^ 32 ≤ d.toNat) :
    (udiv64 n d).map UInt64.toNat = some (n.toNat / d.toNat) := by
  have hn := n.toNat_lt
  have hhi : d >>> 32 ≠ 0 := by
    intro h0
    have h0' := toNat_hi d
    rw [h0] at h0'
    change 0 = _ at h0'
    omega
  rw [udiv64, if_neg hhi]
  by_cases hlt : n < d
  · rw [if_pos hlt, Nat.div_eq_of_lt (UInt64.lt_iff_toNat_lt.mp hlt)]
    rfl
  have hle : d.toNat ≤ n.toNat := Nat.le_of_not_lt (mt UInt64.lt_iff_toNat_lt.mpr hlt)
  have hpos : 0 < n.toNat / d.toNat := Nat.div_pos hle (by omega)
  obtain ⟨q, hdivl, hge, hle'⟩ := estimate (n := n) hlow rfl
  rw [if_neg hlt]
  simp only [hdivl, Option.bind_eq_bind, Option.bind_some, Option.pure_def, Option.map_some]
  generalize (q >>> UInt32.ofNat (31 - nlz (d >>> 32).toUInt32)).toUInt64 = e at *
  -- neither the product nor the differences wrap around
  have hpred : (e - 1).toNat = e.toNat - 1 := UInt64.toNat_sub_of_le e 1 (UInt64.le_iff_toNat_le.mpr (by
    change 1 ≤ e.toNat
    omega))
  have hprod : (e.toNat - 1) * d.toNat ≤ n.toNat :=
    Nat.le_trans (Nat.mul_le_mul_right _ (by omega)) (Nat.div_mul_le_self _ _)
  have hmul : ((e - 1) * d).toNat = (e.toNat - 1) * d.toNat := by
    rw [UInt64.toNat_mul, hpred, Nat.mod_eq_of_lt (by omega)]
  have hrest : (n - (e - 1) * d).toNat = n.toNat - (e.toNat - 1) * d.toNat := by
    rw [UInt64.toNat_sub_of_le _ _ (UInt64.le_iff_toNat_le.mpr (by rw [hmul]; exact hprod)), hmul]
  rw [← correct_estimate (by omega) hle hge hle', apply_ite UInt64.toNat]
  simp only [UInt64.lt_iff_toNat_lt, hrest, hpred]

/-- **`udiv64` is exact**, and nothing traps in it. -/
theorem udiv64_eq {n d : UInt64} (hd : d ≠ 0) :
    (udiv64 n d).map UInt64.toNat = some (n.toNat / d.toNat) := by
  have hpos : 0 < d.toNat := Nat.pos_of_ne_zero fun h0 => hd (UInt64.toNat_inj.mp h0)
  rcases Nat.lt_or_ge d.toNat (2 ^ 32) with hlow | hlow
  · exact udiv64_of_small hpos hlow
  · exact udiv64_of_large hlow

/-! ### The signed quotient -/

theorem toInt_toInt64 (q : UInt64) : q.toInt64.toInt = (q.toNat : ℤ).bmod (2 ^ 64) :=
  BitVec.toInt_eq_toNat_bmod _

theorem toNat_abs64 (n : Int64) : (abs64 n).toNat = n.toInt.natAbs := by
  have hlow := n.le_toInt
  have hhigh := n.toInt_lt
  have hval : n.toInt = (n.toUInt64.toNat : ℤ).bmod (2 ^ 64) := toInt_toInt64 n.toUInt64
  have hlt := n.toUInt64.toNat_lt
  unfold abs64
  by_cases h0 : 0 ≤ n
  · rw [if_pos h0]
    rw [Int64.le_iff_toInt_le] at h0
    change 0 ≤ n.toInt at h0
    rw [Int.bmod_def] at hval
    omega
  · rw [if_neg h0, UInt64.toNat_neg]
    rw [Int64.le_iff_toInt_le] at h0
    change ¬ 0 ≤ n.toInt at h0
    rw [Int.bmod_def] at hval
    change (2 ^ 64 - _) % 2 ^ 64 = _
    omega

/-- The truncated quotient of two numbers of the same sign. -/
theorem tdiv_of_iff {n d : ℤ} (hsign : n < 0 ↔ d < 0) : n.tdiv d = ((n.natAbs / d.natAbs : ℕ) : ℤ) := by
  cases n with
  | ofNat n =>
    cases d with
    | ofNat d => rfl
    | negSucc d => exact absurd (hsign.mpr (Int.negSucc_lt_zero d)) (Int.not_lt.mpr (Int.natCast_nonneg n))
  | negSucc n =>
    cases d with
    | ofNat d => exact absurd (hsign.mp (Int.negSucc_lt_zero n)) (Int.not_lt.mpr (Int.natCast_nonneg d))
    | negSucc d => rfl

/-- The truncated quotient of two numbers of different signs. -/
theorem tdiv_of_not_iff {n d : ℤ} (hsign : ¬ (n < 0 ↔ d < 0)) : n.tdiv d = -((n.natAbs / d.natAbs : ℕ) : ℤ) := by
  cases n with
  | ofNat n =>
    cases d with
    | ofNat d =>
      exact absurd (iff_of_false (Int.not_lt.mpr (Int.natCast_nonneg n)) (Int.not_lt.mpr (Int.natCast_nonneg d))) hsign
    | negSucc d => rfl
  | negSucc n =>
    cases d with
    | ofNat d => rfl
    | negSucc d => exact absurd (iff_of_true (Int.negSucc_lt_zero n) (Int.negSucc_lt_zero d)) hsign

/-- The only quotient of two numbers of the same sign that leaves the signed range. -/
theorem quot_lt {n d : Int64} (hsign : n.toInt < 0 ↔ d.toInt < 0) (hd : d.toInt ≠ 0)
    (hover : ¬ (n = Int64.minValue ∧ d = -1)) : n.toInt.natAbs / d.toInt.natAbs < 2 ^ 63 := by
  have hn := n.le_toInt
  have hn' := n.toInt_lt
  rcases Nat.lt_or_ge d.toInt.natAbs 2 with h1 | h2
  · have hone : d.toInt.natAbs = 1 := by omega
    rw [hone, Nat.div_one]
    by_contra hge
    have hmin : n.toInt = -2 ^ 63 := by omega
    have hneg : d.toInt = -1 := by omega
    exact hover ⟨Int64.toInt_inj.mp hmin, Int64.toInt_inj.mp hneg⟩
  · calc n.toInt.natAbs / d.toInt.natAbs ≤ n.toInt.natAbs / 2 := Nat.div_le_div_left h2 (by decide)
      _ < 2 ^ 63 := by omega

/-- **`sdiv64` is exact**: it truncates toward zero. -/
theorem sdiv64_eq {n d : Int64} (hd : d ≠ 0) (hover : ¬ (n = Int64.minValue ∧ d = -1)) :
    (sdiv64 n d).map Int64.toInt = some (n.toInt.tdiv d.toInt) := by
  have hn := n.le_toInt
  have hn' := n.toInt_lt
  have hd0 : d.toInt ≠ 0 := fun h0 => hd (Int64.toInt_inj.mp h0)
  have habs : abs64 d ≠ 0 := by
    intro h0
    have hzero := toNat_abs64 d
    rw [h0] at hzero
    exact hd0 (Int.natAbs_eq_zero.mp hzero.symm)
  obtain ⟨q, hq, hval⟩ := Option.map_eq_some_iff.mp (udiv64_eq (n := abs64 n) habs)
  rw [toNat_abs64, toNat_abs64] at hval
  have hsigns : ((n < 0) = (d < 0)) ↔ (n.toInt < 0 ↔ d.toInt < 0) := by
    rw [eq_iff_iff, Int64.lt_iff_toInt_lt, Int64.lt_iff_toInt_lt]
    rfl
  simp only [sdiv64, hq, Option.bind_eq_bind, Option.bind_some, Option.pure_def, Option.map_some]
  by_cases hsign : n.toInt < 0 ↔ d.toInt < 0
  · have hlt := quot_lt hsign hd0 hover
    rw [if_pos (hsigns.mpr hsign), toInt_toInt64, hval, tdiv_of_iff hsign, Int.bmod_def]
    refine congrArg some ?_
    omega
  · -- `2 ^ 63` becomes negative in the cast and stays so when it is negated, which is what it should be
    have hle : n.toInt.natAbs / d.toInt.natAbs ≤ n.toInt.natAbs := Nat.div_le_self _ _
    rw [if_neg (mt hsigns.mp hsign), Int64.toInt_neg, toInt_toInt64, hval, tdiv_of_not_iff hsign, Int.bmod_def,
      Int.bmod_def]
    refine congrArg some ?_
    omega

/-- **64-bit division.** For every divisor but 0 `udiv64` returns the quotient, and `sdiv64` the quotient truncated
toward zero unless that is `2 ^ 63`. Neither traps. -/
theorem division_exact :
    (∀ n d : UInt64, d ≠ 0 → (udiv64 n d).map UInt64.toNat = some (n.toNat / d.toNat)) ∧
    (∀ n d : Int64, d ≠ 0 → ¬ (n = Int64.minValue ∧ d = -1) →
      (sdiv64 n d).map Int64.toInt = some (n.toInt.tdiv d.toInt)) :=
  ⟨fun _ _ hd => udiv64_eq hd, fun _ _ hd hover => sdiv64_eq hd hover⟩

/-- A divisor of 34 bits, and the minimum by 1. -/
theorem division_exact_large :
    (udiv64 0xFFFFFFFFFFFFFFFF 0x300000001).map UInt64.toNat = some (0xFFFFFFFFFFFFFFFF / 0x300000001) ∧
    (sdiv64 Int64.minValue 1).map Int64.toInt = some (-2 ^ 63) :=
  ⟨division_exact.1 _ _ (by decide), division_exact.2 _ _ (by decide) (by decide)⟩

/-! ### The remainders -/

/-- `__umoddi3` returns the remainder, and it is the one of `__udivdi3`. -/
def UmodExact (n d : UInt64) : Prop :=
  ∃ q r, udivdi3 n d = some q ∧ umoddi3 n d = some r ∧
    r.toNat = n.toNat % d.toNat ∧ n.toNat = d.toNat * q.toNat + r.toNat

/-- `__moddi3` returns the remainder of `__divdi3`. It is less than the divisor in absolute value and has the sign of
the dividend. -/
def SmodExact (n d : Int64) : Prop :=
  ∃ q r, divdi3 n d = some q ∧ moddi3 n d = some r ∧
    r.toInt = n.toInt - d.toInt * q.toInt ∧ r.toInt.natAbs < d.toInt.natAbs ∧
    (0 ≤ n.toInt → 0 ≤ r.toInt) ∧ (n.toInt ≤ 0 → r.toInt ≤ 0)

/-- `umod64` returns the low 32 bits of the remainder. -/
theorem umoddi3_eq {n d : UInt64} (hd : d ≠ 0) :
    (umoddi3 n d).map UInt64.toNat = some (n.toNat % d.toNat % 2 ^ 32) := by
  have hn := n.toNat_lt
  obtain ⟨q, hq, hval⟩ := Option.map_eq_some_iff.mp (udiv64_eq (n := n) hd)
  have hle : d.toNat * (n.toNat / d.toNat) ≤ n.toNat := Nat.mul_div_le _ _
  have hmul : (d * q).toNat = d.toNat * (n.toNat / d.toNat) := by
    rw [UInt64.toNat_mul, hval, Nat.mod_eq_of_lt (by omega)]
  have hsub : (n - d * q).toNat = n.toNat % d.toNat := by
    rw [UInt64.toNat_sub_of_le _ _ (UInt64.le_iff_toNat_le.mpr (by rw [hmul]; exact hle)), hmul, Nat.mod_eq_sub]
  simp only [umoddi3, umod64, hq, Option.bind_eq_bind, Option.bind_some, Option.pure_def, Option.map_some]
  rw [UInt32.toNat_toUInt64, UInt64.toNat_toUInt32, hsub]

/-- `smod64` returns the low 32 bits of the remainder, as a signed number. -/
theorem moddi3_eq {n d : Int64} (hd : d ≠ 0) (hover : ¬ (n = Int64.minValue ∧ d = -1)) :
    (moddi3 n d).map Int64.toInt = some ((n.toInt.tmod d.toInt).bmod (2 ^ 32)) := by
  obtain ⟨q, hq, hval⟩ := Option.map_eq_some_iff.mp (sdiv64_eq hd hover)
  have hmod : n.toInt - d.toInt * q.toInt = n.toInt.tmod d.toInt := by
    rw [hval, Int.tmod_def]
  simp only [moddi3, smod64, hq, Option.bind_eq_bind, Option.bind_some, Option.pure_def, Option.map_some]
  rw [Int32.toInt_toInt64, Int64.toInt_toInt32, Int64.toInt_sub, Int64.toInt_mul, Int.sub_bmod_bmod, hmod,
    Int.bmod_bmod_of_dvd (by decide)]

/-- The remainder of `__umoddi3` is right if and only if it fits in 32 bits. -/
theorem umodExact_iff {n d : UInt64} (hd : d ≠ 0) : UmodExact n d ↔ n.toNat % d.toNat < 2 ^ 32 := by
  obtain ⟨q, hq, hqval⟩ := Option.map_eq_some_iff.mp (udiv64_eq (n := n) hd)
  obtain ⟨r, hr, hrval⟩ := Option.map_eq_some_iff.mp (umoddi3_eq (n := n) hd)
  constructor
  · rintro ⟨q', r', -, hr', hmod, -⟩
    obtain rfl : r = r' := Option.some.inj (hr.symm.trans hr')
    rw [← hmod, hrval]
    exact Nat.mod_lt _ (by decide)
  · intro hlt
    rw [Nat.mod_eq_of_lt hlt] at hrval
    exact ⟨q, r, hq, hr, hrval, by rw [hqval, hrval, Nat.div_add_mod]⟩

/-- The remainder of `__moddi3` is right if and only if it fits in 32 bits. -/
theorem smodExact_iff {n d : Int64} (hd : d ≠ 0) (hover : ¬ (n = Int64.minValue ∧ d = -1)) :
    SmodExact n d ↔ -2 ^ 31 ≤ n.toInt.tmod d.toInt ∧ n.toInt.tmod d.toInt < 2 ^ 31 := by
  obtain ⟨q, hq, hqval⟩ := Option.map_eq_some_iff.mp (sdiv64_eq hd hover)
  obtain ⟨r, hr, hrval⟩ := Option.map_eq_some_iff.mp (moddi3_eq hd hover)
  have hmod : n.toInt - d.toInt * q.toInt = n.toInt.tmod d.toInt := by
    rw [hqval, Int.tmod_def]
  constructor
  · rintro ⟨q', r', hq', hr', heq, -, -⟩
    obtain rfl : q = q' := Option.some.inj (hq.symm.trans hq')
    obtain rfl : r = r' := Option.some.inj (hr.symm.trans hr')
    rw [hmod] at heq
    rw [← heq, hrval, Int.bmod_def]
    omega
  · rintro ⟨hlow, hhigh⟩
    rw [Int.bmod_eq_of_le (by omega) (by omega)] at hrval
    have hd0 : d.toInt ≠ 0 := fun h0 => hd (Int64.toInt_inj.mp h0)
    refine ⟨q, r, hq, hr, by rw [hmod, hrval], ?_, ?_, ?_⟩
    · rw [hrval, Int.natAbs_tmod]
      exact Nat.mod_lt _ (Int.natAbs_pos.mpr hd0)
    · intro h0
      rw [hrval]
      exact Int.tmod_nonneg _ h0
    · intro h0
      have hneg := Int.tmod_nonneg d.toInt (Int.neg_nonneg_of_nonpos h0)
      rw [Int.neg_tmod] at hneg
      omega

/-- **64-bit remainders.** `umod64` and `smod64` return 32 bits, and the functions that call them are right if and
only if the remainder fits. -/
theorem mod_exact_iff (n d : UInt64) (n' d' : Int64) (hd : d ≠ 0) (hd' : d' ≠ 0)
    (hover : ¬ (n' = Int64.minValue ∧ d' = -1)) :
    (UmodExact n d ↔ n.toNat % d.toNat < 2 ^ 32) ∧
    (SmodExact n' d' ↔ -2 ^ 31 ≤ n'.toInt.tmod d'.toInt ∧ n'.toInt.tmod d'.toInt < 2 ^ 31) :=
  ⟨umodExact_iff hd, smodExact_iff hd' hover⟩

/-- Remainders by divisors of more than 32 bits that are right all the same. -/
theorem mod_exact_iff_large : UmodExact 0x500000007 0x500000000 ∧ SmodExact (-0x500000007) 0x500000000 :=
  ⟨((mod_exact_iff 0x500000007 0x500000000 1 1 (by decide) (by decide) (by decide)).1).mpr (by decide),
    ((mod_exact_iff 1 1 (-0x500000007) 0x500000000 (by decide) (by decide) (by decide)).2).mpr (by decide)⟩

/-- `2 ^ 32` divided by `2 ^ 33` leaves `2 ^ 32`, and 0 is returned; `2 ^ 31` divided by `2 ^ 32` leaves `2 ^ 31`,
and `-2 ^ 31` is returned. -/
theorem mod_truncated :
    umoddi3 0x100000000 0x200000000 = some 0 ∧ ¬ UmodExact 0x100000000 0x200000000 ∧
    moddi3 0x80000000 0x100000000 = some (-0x80000000) ∧ ¬ SmodExact 0x80000000 0x100000000 := by
  refine ⟨by decide, ?_, by decide, ?_⟩
  · rw [umodExact_iff (by decide)]
    decide
  · rw [smodExact_iff (by decide) (by decide)]
    decide

end Clib
end Pintos

import Pintos.Lib.Bytes

/-!
# `memmove`

`memmove` of `lib/string.c`, on the bytes of memory. Pointers and sizes are 32-bit words, which wrap
around.

* `memmove_eq` — in both directions each byte that is still needed is read before it is overwritten, so
  the range at the destination becomes what the range at the source was;
* `moves_iff` — the pointer that is returned is the one that the loop has moved: it is the destination if
  the copy runs downwards, and the end of the destination if it runs upwards.
-/

namespace Pintos
namespace Clib

variable {m : Memory} {dst src size : UInt32} {n : ℕ}

/-- `while (size-- > 0) *dst++ = *src++;` -/
def copyUp (m : Memory) (dst src : UInt32) : ℕ → Memory × UInt32
  | 0 => (m, dst)
  | n + 1 => copyUp (m.write dst.toNat [m src.toNat]) (dst + 1) (src + 1) n

/-- `while (size-- > 0) *--dst = *--src;` -/
def copyDown (m : Memory) (dst src : UInt32) : ℕ → Memory × UInt32
  | 0 => (m, dst)
  | n + 1 => copyDown (m.write (dst - 1).toNat [m (src - 1).toNat]) (dst - 1) (src - 1) n

/-- `memmove`, if its assertions hold. -/
def memmove (m : Memory) (dst src size : UInt32) : Option (Memory × UInt32) :=
  if (dst = 0 ∨ src = 0) ∧ size ≠ 0 then none
  else if dst < src then some (copyUp m dst src size.toNat)
  else some (copyDown m (dst + size) (src + size) size.toNat)

/-- Upwards, what is overwritten lies below what is still to be read. -/
theorem copyUp_eq (hlt : dst.toNat ≤ src.toNat) (hsrc : src.toNat + n ≤ 2 ^ 32) :
    copyUp m dst src n = (m.write dst.toNat (m.read src.toNat n), dst + UInt32.ofNat n) := by
  induction n generalizing m dst src with
  | zero => simp [copyUp, Memory.read]
  | succ n ih =>
    have hstep : m.read src.toNat (n + 1) = [m src.toNat] ++ m.read (src.toNat + 1) n := by
      rw [Nat.add_comm n 1, Memory.read_append]
      simp [Memory.read]
    have hptr : dst + 1 + UInt32.ofNat n = dst + UInt32.ofNat (n + 1) := by
      rw [UInt32.ofNat_add, UInt32.add_assoc, UInt32.add_comm 1]
      rfl
    rw [copyUp, hstep, ← Memory.write_write_append]
    obtain rfl | hn := Nat.eq_zero_or_pos n
    · simp [copyUp, Memory.read]
    · have hd : (dst + 1).toNat = dst.toNat + 1 := by
        rw [UInt32.toNat_add]
        exact Nat.mod_eq_of_lt (by simp; omega)
      have hs : (src + 1).toNat = src.toNat + 1 := by
        rw [UInt32.toNat_add]
        exact Nat.mod_eq_of_lt (by simp; omega)
      rw [ih (by omega) (by omega), hd, hs, hptr, Memory.read_write_of_disjoint]
      · rfl
      · simp
        omega

/-- Downwards, what is overwritten lies above what is still to be read. -/
theorem copyDown_eq {d s : ℕ} (hle : s ≤ d) (hdst : d + n ≤ 2 ^ 32) :
    copyDown m (UInt32.ofNat (d + n)) (UInt32.ofNat (s + n)) n =
      (m.write d (m.read s n), UInt32.ofNat d) := by
  induction n generalizing m with
  | zero => simp [copyDown, Memory.read]
  | succ n ih =>
    have hpred : ∀ a, UInt32.ofNat (a + (n + 1)) - 1 = UInt32.ofNat (a + n) := by
      intro a
      rw [← Nat.add_assoc, UInt32.ofNat_add]
      simp
    have haddr : ∀ a, a + (n + 1) ≤ 2 ^ 32 → (UInt32.ofNat (a + n)).toNat = a + n := by
      intro a ha
      rw [UInt32.toNat_ofNat']
      exact Nat.mod_eq_of_lt (by omega)
    have hread : (m.write (d + n) [m (s + n)]).read s n = m.read s n :=
      m.read_write_of_disjoint _ _ _ (by omega)
    have hlast : m.read s (n + 1) = m.read s n ++ [m (s + n)] := by
      rw [Memory.read_append]
      simp [Memory.read]
    rw [copyDown, hpred, hpred, haddr d hdst, haddr s (by omega), ih (by omega), hread, hlast,
      ← Memory.write_write_append, Memory.length_read, Memory.write_comm]
    simp

/-- **The bytes are moved** whichever way the ranges overlap. -/
theorem memmove_eq (hdst : dst.toNat + size.toNat ≤ 2 ^ 32) (hsrc : src.toNat + size.toNat ≤ 2 ^ 32)
    (hnull : dst ≠ 0 ∧ src ≠ 0 ∨ size = 0) :
    memmove m dst src size = some (m.write dst.toNat (m.read src.toNat size.toNat),
      if dst < src then dst + size else dst) := by
  rw [memmove, if_neg (by tauto)]
  by_cases hlt : dst < src
  · have hle : dst.toNat ≤ src.toNat := Nat.le_of_lt (UInt32.lt_iff_toNat_lt.mp hlt)
    rw [if_pos hlt, if_pos hlt, copyUp_eq hle hsrc, UInt32.ofNat_toNat]
  · have hle : src.toNat ≤ dst.toNat := by
      rw [UInt32.lt_iff_toNat_lt] at hlt
      omega
    have hend : ∀ a : UInt32, a + size = UInt32.ofNat (a.toNat + size.toNat) := by
      intro a
      rw [UInt32.ofNat_add, UInt32.ofNat_toNat, UInt32.ofNat_toNat]
    rw [if_neg hlt, if_neg hlt, hend, hend, copyDown_eq hle hdst, UInt32.ofNat_toNat]

/-- What `memmove` promises: it returns `dst`, the bytes there are those that were at `src`, and all
others are unchanged. -/
def Moves (m : Memory) (dst src size : UInt32) : Prop :=
  ∃ m', memmove m dst src size = some (m', dst) ∧
    m'.read dst.toNat size.toNat = m.read src.toNat size.toNat ∧
    ∀ x, x < dst.toNat ∨ dst.toNat + size.toNat ≤ x → m' x = m x

/-- **`memmove` keeps its promise exactly if it copies downwards.** -/
theorem moves_iff (m : Memory) (dst src size : UInt32) (hdst : dst.toNat + size.toNat ≤ 2 ^ 32)
    (hsrc : src.toNat + size.toNat ≤ 2 ^ 32) :
    Moves m dst src size ↔ size = 0 ∨ src ≠ 0 ∧ src ≤ dst := by
  by_cases hnull : dst ≠ 0 ∧ src ≠ 0 ∨ size = 0
  · have heq := memmove_eq (m := m) hdst hsrc hnull
    constructor
    · rintro ⟨m', hok, -, -⟩
      rw [heq, Option.some.injEq, Prod.mk.injEq] at hok
      by_cases hlt : dst < src
      · rw [if_pos hlt, UInt32.add_eq_left] at hok
        exact .inl hok.2
      · exact hnull.symm.imp id fun h => ⟨h.2, UInt32.not_lt.mp hlt⟩
    · intro h
      refine ⟨m.write dst.toNat (m.read src.toNat size.toNat), heq.trans ?_, ?_, ?_⟩
      · congr 2
        obtain rfl | ⟨-, hle⟩ := h
        · simp
        · exact if_neg (UInt32.not_lt.mpr hle)
      · have := Memory.read_write_self m dst.toNat (m.read src.toNat size.toNat)
        rwa [Memory.length_read] at this
      · intro x hx
        exact m.write_of_not_mem _ _ (by rwa [Memory.length_read])
  · -- an assertion fails
    have hnone : memmove m dst src size = none := if_pos (by tauto)
    constructor
    · rintro ⟨m', hok, -⟩
      rw [hnone] at hok
      cases hok
    · rintro (rfl | ⟨hne, hle⟩)
      · exact absurd (.inr rfl) hnull
      · refine absurd (.inl ⟨?_, hne⟩) hnull
        rintro rfl
        rw [UInt32.le_iff_toNat_le] at hle
        exact hne (UInt32.toNat.inj (Nat.le_zero.mp hle))

/-- Eight of the sixteen bytes overlap. -/
theorem moves_iff_overlap : Moves (fun a => UInt8.ofNat a) 4104 4096 16 :=
  (moves_iff _ 4104 4096 16 (by decide) (by decide)).mpr (.inr (by decide))

/-- The same upwards: the bytes are moved, and the end of the destination is returned. -/
theorem not_moves_up : (memmove (fun a => UInt8.ofNat a) 4096 4104 16).map Prod.snd = some 4112 ∧
    ¬ Moves (fun a => UInt8.ofNat a) 4096 4104 16 := by
  have hend : (memmove (fun a => UInt8.ofNat a) 4096 4104 16).map Prod.snd = some 4112 := by decide
  refine ⟨hend, ?_⟩
  rintro ⟨m', hok, -, -⟩
  rw [hok] at hend
  cases hend

end Clib
end Pintos

import Mathlib

/-!
# Resources and their holders

A set of resources, of which some are in use, and a set of holders that hold one resource each or none.
`Holders used held` says that a resource is in use if and only if somebody holds it, and that nobody
else holds it then. The rules say how this survives that a holder takes a resource which is not in use,
gives one back, or hands it to another holder.
-/

namespace Pintos

/-- The resources in use are those that are held, and each of them has one holder. -/
structure Holders {ρ η : Type} (used : ρ → Bool) (held : η → Option ρ) : Prop where
  used_iff : ∀ r, used r = true ↔ ∃ h, held h = some r
  inj : ∀ h h' r, held h = some r → held h' = some r → h = h'

namespace Holders

variable {ρ η : Type} {used used' : ρ → Bool} {held held' : η → Option ρ} {h i : η} {r : ρ}

theorem used_of_held (H : Holders used held) (hr : held h = some r) : used r = true :=
  (H.used_iff r).2 ⟨h, hr⟩

theorem ne_of_not_used (H : Holders used held) (hr : used r = false) (x : η) : held x ≠ some r := by
  intro hx
  rw [H.used_of_held hx] at hr
  cases hr

/-- Nobody takes, gives or hands over anything. -/
theorem keep (H : Holders used held) (hu : used' = used) (hx : ∀ x, held' x = held x) :
    Holders used' held' := by
  have : held' = held := funext hx
  rwa [hu, this]

/-- `h` takes `r`. -/
theorem take (H : Holders used held) (hr : used r = false) (hh : held h = none)
    (hu : used' r = true) (hu' : ∀ x, x ≠ r → used' x = used x)
    (hh' : held' h = some r) (hx : ∀ x, x ≠ h → held' x = held x) : Holders used' held' where
  used_iff x := by
    by_cases hxr : x = r
    · subst hxr
      exact iff_of_true hu ⟨h, hh'⟩
    · rw [hu' x hxr, H.used_iff x]
      constructor
      · rintro ⟨y, hy⟩
        refine ⟨y, ?_⟩
        rw [hx y, hy]
        rintro rfl
        rw [hh] at hy
        cases hy
      · rintro ⟨y, hy⟩
        refine ⟨y, ?_⟩
        rw [← hx y, hy]
        rintro rfl
        rw [hh'] at hy
        exact hxr (Option.some.inj hy).symm
  inj x y z hxz hyz := by
    have key : ∀ w, held' w = some r → w = h := by
      intro w hw
      by_contra hwh
      rw [hx w hwh] at hw
      exact H.ne_of_not_used hr w hw
    by_cases hzr : z = r
    · subst hzr
      rw [key x hxz, key y hyz]
    · have hne : ∀ w, held' w = some z → w ≠ h := by
        rintro w hw rfl
        rw [hh'] at hw
        exact hzr (Option.some.inj hw).symm
      rw [hx x (hne x hxz)] at hxz
      rw [hx y (hne y hyz)] at hyz
      exact H.inj x y z hxz hyz

/-- `h` gives `r` back. -/
theorem give (H : Holders used held) (hh : held h = some r)
    (hu : used' r = false) (hu' : ∀ x, x ≠ r → used' x = used x)
    (hh' : held' h = none) (hx : ∀ x, x ≠ h → held' x = held x) : Holders used' held' := by
  have hsub : ∀ x z, held' x = some z → held x = some z ∧ x ≠ h := by
    intro x z hxz
    have hxh : x ≠ h := by
      rintro rfl
      rw [hh'] at hxz
      cases hxz
    exact ⟨by rw [← hx x hxh, hxz], hxh⟩
  refine ⟨fun x => ?_, fun x y z hxz hyz => H.inj x y z (hsub x z hxz).1 (hsub y z hyz).1⟩
  by_cases hxr : x = r
  · subst hxr
    simp only [hu, Bool.false_eq_true, false_iff, not_exists]
    intro y hy
    exact (hsub y x hy).2 (H.inj y h x (hsub y x hy).1 hh)
  · rw [hu' x hxr, H.used_iff x]
    constructor
    · rintro ⟨y, hy⟩
      refine ⟨y, ?_⟩
      rw [hx y, hy]
      rintro rfl
      rw [hh] at hy
      exact hxr (Option.some.inj hy).symm
    · rintro ⟨y, hy⟩
      exact ⟨y, (hsub y x hy).1⟩

/-- `h` hands `r` to `i`. -/
theorem move (H : Holders used held) (hh : held h = some r) (hn : held i = none)
    (hu : used' = used) (hh' : held' h = none) (hn' : held' i = some r)
    (hx : ∀ x, x ≠ h → x ≠ i → held' x = held x) : Holders used' held' := by
  classical
  -- First `h` gives `r` back, and then `i` takes it.
  have H₁ : Holders (Function.update used r false) (Function.update held h none) :=
    H.give hh (Function.update_self r false used) (fun x hxr => Function.update_of_ne hxr ..)
      (Function.update_self h none held) (fun x hxh => Function.update_of_ne hxh ..)
  have hne : i ≠ h := by
    rintro rfl
    rw [hh] at hn
    cases hn
  refine H₁.take (h := i) (r := r) (Function.update_self r false used) ?_ ?_ ?_ hn' ?_
  · rw [Function.update_of_ne hne, hn]
  · rw [hu, H.used_of_held hh]
  · intro x hxr
    rw [hu, Function.update_of_ne hxr]
  · intro x hxi
    by_cases hxh : x = h
    · subst hxh
      rw [hh', Function.update_self]
    · rw [hx x hxh hxi, Function.update_of_ne hxh]

end Holders

end Pintos

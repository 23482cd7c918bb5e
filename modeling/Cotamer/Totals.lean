import Mathlib

/-! Sums over the members of a list, when one member changes at a time. -/
namespace Cotamer.Totals

variable {α : Type} {xs : List α} {x y : α} {i j : Nat} {f : α → Nat}

def total (f : α → Nat) (xs : List α) : Nat := (xs.map f).sum

theorem total_set (found : xs[i]? = some x) (y : α) :
    total f (xs.set i y) + f x = total f xs + f y := by
  induction xs generalizing i with
  | nil => contradiction
  | cons a xs ih =>
      cases i with
      | zero =>
          cases Option.some.inj found
          simp only [total, List.set_cons_zero, List.map_cons, List.sum_cons]
          omega
      | succ i =>
          have rest := ih (i := i) (by simpa using found)
          simp only [total, List.set_cons_succ, List.map_cons, List.sum_cons] at rest ⊢
          omega

theorem total_append (xs ys : List α) : total f (xs ++ ys) = total f xs + total f ys := by
  simp only [total, List.map_append, List.sum_append]

theorem le_total (found : xs[i]? = some x) : f x ≤ total f xs := by
  have member := List.mem_of_getElem? found
  clear found
  induction member with
  | head xs =>
      simp only [total, List.map_cons, List.sum_cons]
      omega
  | tail a _ ih =>
      simp only [total, List.map_cons, List.sum_cons] at ih ⊢
      omega

theorem total_add (g : α → Nat) (xs : List α) : total (fun x => f x + g x) xs = total f xs + total g xs := by
  induction xs with
  | nil => rfl
  | cons a xs ih =>
      simp only [total, List.map_cons, List.sum_cons] at ih ⊢
      omega

theorem total_eq_zero : total f xs = 0 ↔ ∀ x ∈ xs, f x = 0 := by
  induction xs with
  | nil => simp [total]
  | cons a xs ih =>
      rw [List.forall_mem_cons, ← ih]
      simp only [total, List.map_cons, List.sum_cons]
      omega

end Cotamer.Totals

import Mathlib.Data.List.Basic
import Mathlib.Data.List.GetD

/-! Parts of a text that only grows at its end. -/
namespace Cotamer.Spans

variable {α : Type} {xs ys zs : List α} {i j n : Nat}

/-- The part of a text from one offset to another. -/
def slice (xs : List α) (i j : Nat) : List α := (xs.drop i).take (j - i)

theorem slice_append (ys : List α) (inside : j ≤ xs.length) : slice (xs ++ ys) i j = slice xs i j := by
  rcases Nat.le_total i j with order | order
  · have start : i ≤ xs.length := Nat.le_trans order inside
    rw [slice, slice, List.drop_append_of_le_length start, List.take_append_of_le_length]
    rw [List.length_drop]
    exact Nat.sub_le_sub_right inside i
  · rw [slice, slice, Nat.sub_eq_zero_of_le order, List.take_zero, List.take_zero]

/-- A piece that was appended is found where the text ended. -/
theorem slice_piece (xs ys zs : List α) :
    slice (xs ++ ys ++ zs) xs.length (xs.length + ys.length) = ys := by
  rw [slice, List.append_assoc, List.drop_left, Nat.add_sub_cancel_left, List.take_left]

/-- The same with offsets that are given in another form. -/
theorem slice_at (text : xs = ys ++ zs) (start : i = n) (stop : j = n + ys.length)
    (front : List α) (length : front.length = n) : slice (front ++ xs) i j = ys := by
  subst start stop length text
  rw [← List.append_assoc]
  exact slice_piece front ys zs

theorem length_slice (inside : j ≤ xs.length) : (slice xs i j).length = j - i := by
  rw [slice, List.length_take, List.length_drop]
  omega

theorem slice_cons (order : i < j) (inside : j ≤ xs.length) (d : α) :
    slice xs i j = xs.getD i d :: slice xs (i + 1) j := by
  have bound : i < xs.length := Nat.lt_of_lt_of_le order inside
  have count : j - i = j - (i + 1) + 1 := by omega
  rw [slice, slice, List.drop_eq_getElem_cons bound, count, List.take_succ_cons,
    List.getD_eq_getElem _ _ bound]

theorem slice_snoc (order : i ≤ j) (inside : j < xs.length) (d : α) :
    slice xs i (j + 1) = slice xs i j ++ [xs.getD j d] := by
  have count : j + 1 - i = j - i + 1 := by omega
  have last : (xs.drop i)[j - i]? = some xs[j] := by
    rw [List.getElem?_drop, Nat.add_sub_cancel' order, List.getElem?_eq_getElem inside]
  rw [slice, slice, count, List.take_add_one, last, List.getD_eq_getElem _ _ inside]
  rfl

theorem getD_slice (xs : List α) (i j k : Nat) (d : α) :
    (slice xs i j).getD k d = if i + k < j then xs.getD (i + k) d else d := by
  rw [slice, List.getD_eq_getElem?_getD, List.getElem?_take, List.getElem?_drop]
  have bound : k < j - i ↔ i + k < j := by omega
  simp only [bound]
  split
  · rw [List.getD_eq_getElem?_getD]
  · rfl

theorem slice_self (xs : List α) (i : Nat) : slice xs i i = [] := by
  rw [slice, Nat.sub_self, List.take_zero]

end Cotamer.Spans

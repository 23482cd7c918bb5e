import Mathlib.Data.List.Perm.Basic
import Mathlib.Data.List.Count

/-! Unordered vectors: an entry is removed by overwriting it with the last one
and dropping the last. Up to order this is `List.eraseIdx` and `List.erase`, so
counts and membership follow from the library's lemmas about those. -/
namespace Cotamer.SwapVector

variable {α β : Type}

/-- `v[i] = v.back(); v.pop_back()` -/
def swapRemove (i : Nat) (xs : List α) : List α :=
  match xs.getLast? with
  | none => xs
  | some last => (xs.set i last).dropLast

/-- Remove the first entry equal to `x` by swapping, as a search loop does. -/
def swapErase [DecidableEq α] (x : α) (xs : List α) : List α :=
  if x ∈ xs then swapRemove (xs.idxOf x) xs else xs

theorem swapRemove_last (front : List α) (x : α) : swapRemove front.length (front ++ [x]) = front := by
  simp [swapRemove]

theorem swapRemove_middle (front middle : List α) (x last : α) :
    swapRemove front.length (front ++ x :: (middle ++ [last])) = front ++ last :: middle := by
  have reassoc : front ++ x :: (middle ++ [last]) = (front ++ x :: middle) ++ [last] := by simp
  rw [swapRemove, reassoc, List.getLast?_concat]
  simp only [List.append_assoc, List.cons_append]
  rw [List.set_append_right _ _ (Nat.le_refl _), Nat.sub_self, List.set_cons_zero,
    ← List.cons_append, ← List.append_assoc, List.dropLast_concat]

theorem swapRemove_split (front : List α) (x : α) (back : List α) :
    (swapRemove front.length (front ++ x :: back)).Perm (front ++ back) := by
  rcases List.eq_nil_or_concat back with rfl | ⟨middle, last, rfl⟩
  · rw [swapRemove_last, List.append_nil]
  · rw [List.concat_eq_append, swapRemove_middle]
    exact List.Perm.append_left _ (List.perm_append_singleton _ _).symm

theorem swapRemove_perm {i : Nat} {xs : List α} (bound : i < xs.length) :
    (xs[i] :: swapRemove i xs).Perm xs := by
  have split : xs = xs.take i ++ xs[i] :: xs.drop (i + 1) := by simp
  have width : (xs.take i).length = i := by simp [Nat.le_of_lt bound]
  have moved := swapRemove_split (xs.take i) xs[i] (xs.drop (i + 1))
  rw [← split, width] at moved
  have restored : (xs[i] :: (xs.take i ++ xs.drop (i + 1))).Perm xs := by
    conv_rhs => rw [split]
    exact List.perm_middle.symm
  exact (moved.cons _).trans restored

theorem swapErase_perm [DecidableEq α] (x : α) (xs : List α) : (swapErase x xs).Perm (xs.erase x) := by
  unfold swapErase
  split
  · rename_i member
    have bound := List.idxOf_lt_length_iff.mpr member
    have removed := swapRemove_perm bound
    rw [List.getElem_idxOf bound] at removed
    exact (removed.trans (List.perm_cons_erase member)).cons_inv
  · rename_i absent
    rw [List.erase_of_not_mem absent]

theorem length_swapRemove {i : Nat} {xs : List α} (bound : i < xs.length) :
    (swapRemove i xs).length + 1 = xs.length := by
  simpa using (swapRemove_perm bound).length_eq

theorem count_swapRemove [DecidableEq α] {i : Nat} {xs : List α} (bound : i < xs.length) (y : α) :
    xs.count y = (swapRemove i xs).count y + if xs[i] = y then 1 else 0 := by
  rw [← (swapRemove_perm bound).count_eq y, List.count_cons]
  simp only [beq_iff_eq]

theorem count_swapErase [DecidableEq α] (x y : α) (xs : List α) :
    (swapErase x xs).count y = xs.count y - if x = y then 1 else 0 := by
  rw [(swapErase_perm x xs).count_eq y, List.count_erase]
  simp only [beq_iff_eq]

theorem mem_of_mem_swapErase [DecidableEq α] {x y : α} {xs : List α} (member : y ∈ swapErase x xs) :
    y ∈ xs :=
  List.mem_of_mem_erase ((swapErase_perm x xs).mem_iff.mp member)

/-- The last of the entries behind `x`, which takes its place. -/
def moved [DecidableEq α] (x : α) (xs : List α) : Option α := (xs.drop (xs.idxOf x + 1)).getLast?

/-- The entries that `moved` passes. -/
def passed [DecidableEq α] (x : α) (xs : List α) : List α := (xs.drop (xs.idxOf x + 1)).dropLast

theorem cons_eq_concat {x : α} {xs : List α} (absent : x ∉ xs) : x :: xs = xs ++ [x] ↔ xs = [] := by
  cases xs with
  | nil => simp
  | cons y ys =>
      refine ⟨fun same => ?_, nofun⟩
      exact absurd (List.cons.inj same).1 (List.ne_of_not_mem_cons absent)

/-- A removal keeps the entries with a key in order exactly if the moved entry passes none with
its own key. -/
theorem filterMap_swapErase [DecidableEq α] {x : α} {xs : List α} (key : α → Option β)
    (distinct : (xs.filterMap key).Nodup) (member : x ∈ xs) :
    (swapErase x xs).filterMap key = (xs.erase x).filterMap key ↔
      ∀ last ∈ moved x xs, (key last).isSome → ∀ y ∈ passed x xs, key y = none := by
  obtain ⟨front, back, rfl, before⟩ := List.eq_append_cons_of_mem member
  have position : (front ++ x :: back).idxOf x = front.length := by
    rw [List.idxOf_append_of_notMem before, List.idxOf_cons_self, Nat.add_zero]
  have rest : (front ++ x :: back).drop (front.length + 1) = back := by simp
  rw [swapErase, if_pos member, moved, passed, position, rest, List.erase_append_right _ before,
    List.erase_cons_head]
  rcases List.eq_nil_or_concat back with rfl | ⟨middle, last, rfl⟩
  · simp [swapRemove_last]
  · rw [List.concat_eq_append] at distinct ⊢
    simp only [List.getLast?_concat, List.dropLast_concat, swapRemove_middle, List.filterMap_append,
      List.filterMap_cons, List.filterMap_nil, List.append_cancel_left_eq, Option.mem_some]
    cases keyed : key last with
    | none => simp [keyed]
    | some k =>
        have unique : ((middle ++ [last]).filterMap key).Nodup :=
          distinct.sublist (((List.sublist_cons_self x _).trans
            (List.sublist_append_right front _)).filterMap key)
        rw [List.filterMap_append, List.filterMap_cons_some keyed, List.filterMap_nil,
          List.nodup_append] at unique
        have fresh : k ∉ middle.filterMap key := fun again =>
          unique.2.2 k again k List.mem_cons_self rfl
        simp only [forall_eq', keyed, Option.isSome_some, forall_const]
        rw [cons_eq_concat fresh, List.filterMap_eq_nil_iff]

theorem getElem_swapRemove_lt {i j : Nat} {xs : List α} (before : j < i) (bound : i < xs.length) :
    (swapRemove i xs)[j]? = xs[j]? := by
  have nonempty : xs ≠ [] := by
    rintro rfl
    simp at bound
  rw [swapRemove, List.getLast?_eq_some_getLast nonempty]
  simp only [List.dropLast_eq_take, List.length_set]
  rw [List.getElem?_take_of_lt (by omega), List.getElem?_set_ne (by omega)]

end Cotamer.SwapVector

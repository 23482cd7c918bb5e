import Mathlib.Data.List.Basic

/-! Memory for objects of one type: a slot is raw or has an object in it. An object is
constructed in a raw slot only, and moved from or destroyed only where one is. -/
namespace Cotamer.Slots

variable {α : Type} {slots : List (Option α)} {items : List α} {moved : α → α} {i j k m n : Nat} {a : α}

/-- `construct_at` -/
def construct (slots : List (Option α)) (i : Nat) (a : α) : Option (List (Option α)) :=
  match slots[i]? with
  | some none => some (slots.set i (some a))
  | _ => none

/-- `destroy_n`, from the first slot. -/
def destroy : Nat → List (Option α) → Option (List (Option α))
  | 0, slots => some slots
  | n + 1, some _ :: slots => (destroy n slots).map (none :: ·)
  | _ + 1, _ => none

/-- `destroy` of a range. -/
def destroyFrom (slots : List (Option α)) (i n : Nat) : Option (List (Option α)) :=
  (destroy n (slots.drop i)).map (slots.take i ++ ·)

/-- `uninitialized_move_n`; `moved` is what is left of an object. -/
def move (moved : α → α) : Nat → List (Option α) → List (Option α) → Option (List (Option α) × List (Option α))
  | 0, slots, target => some (slots, target)
  | n + 1, some a :: slots, none :: target =>
    (move moved n slots target).map fun (slots, target) => (some (moved a) :: slots, some a :: target)
  | _ + 1, _, _ => none

/-- The first objects. -/
def objects : Nat → List (Option α) → Option (List α)
  | 0, _ => some []
  | n + 1, some a :: slots => (objects n slots).map (a :: ·)
  | _ + 1, _ => none

/-- Objects, and then raw slots. -/
def full (items : List α) (k : Nat) : List (Option α) := items.map some ++ List.replicate k none

theorem full_nil (k : Nat) : full ([] : List α) k = List.replicate k none := rfl

theorem full_cons (a : α) (items : List α) (k : Nat) : full (a :: items) k = some a :: full items k := rfl

theorem construct_full (items : List α) (k : Nat) (a : α) :
    construct (full items (k + 1)) items.length a = some (full (items ++ [a]) k) := by
  have place : (full items (k + 1))[items.length]? = some none := by
    simp [full]
  rw [construct, place]
  simp only [full, List.map_append, List.map_cons, List.map_nil]
  rw [List.set_append_right _ _ (by simp)]
  simp [List.replicate_succ]

theorem destroy_full (items : List α) (k : Nat) :
    destroy items.length (full items k) = some (List.replicate (items.length + k) none) := by
  induction items with
  | nil => simp [destroy, full_nil]
  | cons a items ih =>
    rw [full_cons, List.length_cons, destroy, ih, Option.map_some, Nat.add_right_comm, List.replicate_succ]

theorem objects_full (items : List α) (k : Nat) : objects items.length (full items k) = some items := by
  induction items with
  | nil => rfl
  | cons a items ih => rw [full_cons, List.length_cons, objects, ih, Option.map_some]

/-- Objects from one place on are destroyed. -/
theorem destroyFrom_full (few : i ≤ items.length) (k : Nat) :
    destroyFrom (full items k) i (items.length - i) = some (full (items.take i) (items.length - i + k)) := by
  have split : full items k = (items.take i).map some ++ full (items.drop i) k := by
    rw [full, full, ← List.append_assoc, ← List.map_append, List.take_append_drop]
  have length : ((items.take i).map some).length = i := by simp [few]
  have rest := destroy_full (items.drop i) k
  rw [List.length_drop] at rest
  rw [destroyFrom, split, List.drop_left' length, List.take_left' length, rest, Option.map_some, full]

/-- Objects are moved to raw memory. -/
theorem move_full (moved : α → α) (few : items.length ≤ m) (k : Nat) :
    move moved items.length (full items k) (List.replicate m none) =
      some (full (items.map moved) k, full items (m - items.length)) := by
  induction items generalizing m with
  | nil => simp [move, full]
  | cons a items ih =>
    obtain ⟨m, rfl⟩ := Nat.exists_eq_succ_of_ne_zero (Nat.ne_of_gt (Nat.lt_of_lt_of_le (Nat.succ_pos _) few))
    rw [full_cons, List.length_cons, List.replicate_succ, move, ih (Nat.le_of_succ_le_succ few), Option.map_some,
      List.map_cons, full_cons, full_cons, Nat.succ_sub_succ]

end Cotamer.Slots

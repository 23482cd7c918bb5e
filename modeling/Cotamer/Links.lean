import Mathlib.Data.List.Perm.Basic
import Mathlib.Data.List.Nodup

/-! Singly linked lists threaded through one table: `next` gives the link that each
element holds, and every list ends with one and the same link. The elements of the
table are shared out among owners, each of which has a list. -/
namespace Cotamer.Links

variable {α ω : Type*} {next next' : α → α} {a b c x stop : α} {xs ys : List α}

/-- From `a` the links lead through `xs` to `b`. -/
def Path (next : α → α) : α → List α → α → Prop
  | a, [], b => a = b
  | a, x :: xs, b => a = x ∧ Path next (next x) xs b

theorem path_append : Path next a (xs ++ ys) c ↔ ∃ b, Path next a xs b ∧ Path next b ys c := by
  induction xs generalizing a with
  | nil => simp [Path]
  | cons x xs ih => simp [Path, ih, and_assoc]

/-- A path depends on the links of its elements only. -/
theorem Path.congr (path : Path next a xs b) (same : ∀ x ∈ xs, next' x = next x) : Path next' a xs b := by
  induction xs generalizing a with
  | nil => exact path
  | cons x xs ih =>
      refine ⟨path.1, ?_⟩
      rw [same x List.mem_cons_self]
      exact ih path.2 fun y member => same y (List.mem_cons_of_mem x member)

/-- The last link of a path changes. -/
theorem Path.redirect (path : Path next a (xs ++ [x]) b) (same : ∀ y ∈ xs, next' y = next y) :
    Path next' a (xs ++ [x]) (next' x) := by
  obtain ⟨c, front, rfl, _⟩ := path_append.mp path
  exact path_append.mpr ⟨c, front.congr same, rfl, rfl⟩

/-- From `a` the links lead through `xs` to the end. -/
structure Leads (next : α → α) (stop a : α) (xs : List α) : Prop where
  path : Path next a xs stop
  ends : stop ∉ xs

namespace Leads

theorem nil : Leads next stop stop [] := ⟨rfl, List.not_mem_nil⟩

theorem cons (leads : Leads next stop (next x) xs) (elem : x ≠ stop) : Leads next stop x (x :: xs) := by
  refine ⟨⟨rfl, leads.path⟩, ?_⟩
  rw [List.mem_cons, not_or]
  exact ⟨elem.symm, leads.ends⟩

theorem head (leads : Leads next stop a (x :: xs)) : a = x := leads.path.1

theorem tail (leads : Leads next stop a (x :: xs)) : Leads next stop (next x) xs :=
  ⟨leads.path.2, fun member => leads.ends (List.mem_cons_of_mem x member)⟩

theorem empty_iff (leads : Leads next stop a xs) : a = stop ↔ xs = [] := by
  cases xs with
  | nil => exact iff_of_true leads.path rfl
  | cons x xs =>
      rw [leads.head]
      exact iff_of_false (fun same => leads.ends (same ▸ List.mem_cons_self)) (List.cons_ne_nil x xs)

theorem cons_of_ne (leads : Leads next stop a xs) (some : a ≠ stop) :
    ∃ ys, xs = a :: ys ∧ Leads next stop (next a) ys := by
  cases xs with
  | nil => exact absurd leads.path some
  | cons x ys =>
      obtain rfl := leads.head
      exact ⟨ys, rfl, leads.tail⟩

theorem congr (leads : Leads next stop a xs) (same : ∀ x ∈ xs, next' x = next x) : Leads next' stop a xs :=
  ⟨leads.path.congr same, leads.ends⟩

/-- Links leave one way to the end. -/
theorem unique (first : Leads next stop a xs) (second : Leads next stop a ys) : xs = ys := by
  induction xs generalizing a ys with
  | nil => exact (second.empty_iff.mp first.path).symm
  | cons x xs ih =>
      cases ys with
      | nil => exact first.empty_iff.mp second.path
      | cons y ys =>
          obtain rfl := first.head
          obtain rfl := second.head
          rw [ih first.tail second.tail]

/-- A list that ends has no cycle. -/
theorem nodup (leads : Leads next stop a xs) : xs.Nodup := by
  induction xs generalizing a with
  | nil => exact List.nodup_nil
  | cons x xs ih =>
      refine List.nodup_cons.mpr ⟨fun again => ?_, ih leads.tail⟩
      obtain rfl := leads.head
      -- the part from the second occurrence on would be the whole list
      obtain ⟨front, back, rfl⟩ := List.append_of_mem again
      obtain ⟨c, _, rest⟩ := path_append.mp leads.tail.path
      have same : Leads next stop a (a :: back) := by
        refine ⟨⟨rfl, rest.2⟩, fun member => leads.ends ?_⟩
        exact List.mem_cons_of_mem a (List.mem_append_right front member)
      have lengths := congrArg List.length (leads.unique same)
      simp only [List.length_cons, List.length_append] at lengths
      omega

/-- An element joins at the end. -/
theorem concat (leads : Leads next stop a (xs ++ [x])) (same : ∀ z ∈ xs, next' z = next z)
    (joins : next' x = b) (last : next' b = stop) (elem : b ≠ stop) :
    Leads next' stop a (xs ++ [x] ++ [b]) := by
  constructor
  · have front := leads.path.redirect same
    rw [joins] at front
    exact path_append.mpr ⟨b, front, rfl, last⟩
  · rw [List.mem_append, List.mem_singleton, not_or]
    exact ⟨leads.ends, elem.symm⟩

end Leads

/-! The elements `1 … size` of the table, each in the list of one owner. -/

structure Shared (size : Nat) (held : ω → List Nat) : Prop where
  covers : ∀ i, (1 ≤ i ∧ i ≤ size) ↔ ∃ o, i ∈ held o
  single : ∀ i o o', i ∈ held o → i ∈ held o' → o = o'
  nodup : ∀ o, (held o).Nodup

namespace Shared

variable {size i : Nat} {held held' : ω → List Nat} {o o' : ω}

theorem valid (shared : Shared size held) (member : i ∈ held o) : 1 ≤ i ∧ i ≤ size :=
  (shared.covers i).mpr ⟨o, member⟩

theorem owner (shared : Shared size held) (low : 1 ≤ i) (high : i ≤ size) : ∃! o, i ∈ held o := by
  obtain ⟨o, member⟩ := (shared.covers i).mp ⟨low, high⟩
  exact ⟨o, member, fun o' other => shared.single i o' o other member⟩

theorem length_le (shared : Shared size held) : (held o).length ≤ size := by
  have sub : held o ⊆ List.range' 1 size := by
    intro i member
    obtain ⟨low, high⟩ := shared.valid member
    rw [List.mem_range'_1]
    omega
  have bound := (List.subperm_of_subset (shared.nodup o) sub).length_le
  rwa [List.length_range'] at bound

/-- Two owners exchange elements. -/
theorem exchange (shared : Shared size held) (distinct : o ≠ o')
    (both : (held' o ++ held' o').Perm (held o ++ held o')) (others : ∀ p, p ≠ o → p ≠ o' → held' p = held p) :
    Shared size held' := by
  have disjoint : ∀ x ∈ held o, ∀ y ∈ held o', x ≠ y := by
    rintro x mine y theirs rfl
    exact distinct (shared.single x o o' mine theirs)
  have nodup : (held' o ++ held' o').Nodup :=
    both.nodup_iff.mpr (List.nodup_append.mpr ⟨shared.nodup o, shared.nodup o', disjoint⟩)
  obtain ⟨nodupO, nodupO', apart⟩ := List.nodup_append.mp nodup
  have two : ∀ i, (i ∈ held' o ∨ i ∈ held' o') ↔ (i ∈ held o ∨ i ∈ held o') := by
    intro i
    rw [← List.mem_append, ← List.mem_append]
    exact both.mem_iff
  -- the elements of the two, and those of all others
  have split : ∀ i p, i ∈ held' p →
      (p = o ∨ p = o') ∧ (i ∈ held o ∨ i ∈ held o') ∨ p ≠ o ∧ p ≠ o' ∧ i ∈ held p := by
    intro i p member
    by_cases mine : p = o
    · subst mine
      exact .inl ⟨.inl rfl, (two i).mp (.inl member)⟩
    · by_cases theirs : p = o'
      · subst theirs
        exact .inl ⟨.inr rfl, (two i).mp (.inr member)⟩
      · rw [others p mine theirs] at member
        exact .inr ⟨mine, theirs, member⟩
  have among : ∀ i p, i ∈ held p → i ∈ held o ∨ i ∈ held o' → p = o ∨ p = o' := by
    rintro i p member (mine | theirs)
    · exact .inl (shared.single i p o member mine)
    · exact .inr (shared.single i p o' member theirs)
  refine ⟨fun i => ?_, ?_, ?_⟩
  · rw [shared.covers]
    constructor
    · rintro ⟨p, member⟩
      by_cases mine : i ∈ held o ∨ i ∈ held o'
      · rcases (two i).mpr mine with new | new
        · exact ⟨o, new⟩
        · exact ⟨o', new⟩
      · refine ⟨p, ?_⟩
        rw [not_or] at mine
        rw [others p]
        · exact member
        · rintro rfl
          exact mine.1 member
        · rintro rfl
          exact mine.2 member
    · rintro ⟨p, member⟩
      rcases split i p member with ⟨_, old | old⟩ | ⟨_, _, old⟩
      · exact ⟨o, old⟩
      · exact ⟨o', old⟩
      · exact ⟨p, old⟩
  · intro i p p' first second
    rcases split i p first with ⟨mine, old⟩ | ⟨not, not', old⟩
    · rcases split i p' second with ⟨mine', _⟩ | ⟨not, not', old'⟩
      · rcases mine with rfl | rfl <;> rcases mine' with rfl | rfl
        · rfl
        · exact absurd rfl (apart i first i second)
        · exact absurd rfl (apart i second i first)
        · rfl
      · rcases among i p' old' old with same | same
        · exact absurd same not
        · exact absurd same not'
    · rcases split i p' second with ⟨_, old'⟩ | ⟨_, _, old'⟩
      · rcases among i p old old' with same | same
        · exact absurd same not
        · exact absurd same not'
      · exact shared.single i p p' old old'
  · intro p
    by_cases mine : p = o
    · exact mine ▸ nodupO
    · by_cases theirs : p = o'
      · exact theirs ▸ nodupO'
      · rw [others p mine theirs]
        exact shared.nodup p

/-- The table grows by one element. -/
theorem grow (shared : Shared size held) (mine : held' o = held o ++ [size + 1])
    (others : ∀ p, p ≠ o → held' p = held p) : Shared (size + 1) held' := by
  have old : ∀ i p, i ∈ held p → i ≠ size + 1 := by
    rintro i p member rfl
    exact absurd (shared.valid member).2 (Nat.not_succ_le_self size)
  have split : ∀ i p, i ∈ held' p ↔ i ∈ held p ∨ p = o ∧ i = size + 1 := by
    intro i p
    by_cases same : p = o
    · subst same
      rw [mine, List.mem_append, List.mem_singleton]
      simp
    · rw [others p same]
      simp [same]
  refine ⟨fun i => ?_, ?_, ?_⟩
  · simp only [split, exists_or, ← shared.covers]
    constructor
    · rintro ⟨low, high⟩
      by_cases new : i = size + 1
      · exact .inr ⟨o, rfl, new⟩
      · exact .inl ⟨low, by omega⟩
    · rintro (⟨low, high⟩ | ⟨_, _, rfl⟩)
      · exact ⟨low, by omega⟩
      · omega
  · intro i p p' first second
    rw [split] at first second
    rcases first with first | ⟨rfl, new⟩
    · rcases second with second | ⟨_, new⟩
      · exact shared.single i p p' first second
      · exact absurd new (old i p first)
    · rcases second with second | ⟨rfl, _⟩
      · exact absurd new (old i p' second)
      · rfl
  · intro p
    by_cases same : p = o
    · subst same
      rw [mine]
      exact (List.nodup_append.mpr ⟨shared.nodup p, List.pairwise_singleton _ _, by
        rintro x member y single rfl
        exact old x p member (List.mem_singleton.mp single)⟩)
    · rw [others p same]
      exact shared.nodup p

end Shared
end Cotamer.Links

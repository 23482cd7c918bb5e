import Cotamer.Slots
import Cotamer.Transition
import Mathlib

/-! `small_vector`: its first `N` objects are in the vector itself, more are in a block of
its own. Vectors are made, moved and destroyed, and share one heap. What is appended
is not an object of the vector itself: `push_back` would read it after moving it. -/
namespace Cotamer.Containers
open Slots Transition

variable {T : Type}

/-- `u_`: the buffer in the vector, or the pointer to a block. -/
inductive Storage (T : Type) where
  | inbuf (slots : List (Option T))
  | out (b : Nat)
  deriving DecidableEq, Repr

structure SmallVector (T : Type) where
  sz : Nat
  cap : Nat
  u : Storage T
  deriving DecidableEq, Repr

structure Heap (T : Type) where
  blocks : Nat → Option (List (Option T)) := fun _ => none
  next : Nat := 0

namespace Heap

variable (h : Heap T)

def set (b : Nat) (slots : List (Option T)) : Heap T := { h with blocks := Function.update h.blocks b (some slots) }

/-- `allocate` -/
def allocate (n : Nat) : Nat × Heap T :=
  (h.next, { h.set h.next (List.replicate n none) with next := h.next + 1 })

/-- `deallocate` is told how large the block is. -/
def deallocate (b n : Nat) : Option (Heap T) :=
  (h.blocks b).bind fun slots =>
    if slots.length = n then some { h with blocks := Function.update h.blocks b none } else none

end Heap

namespace SmallVector

variable (N : Nat) (h : Heap T) (v : SmallVector T)

/-- What is behind `begin()`. In the buffer there is nothing after it held a pointer. -/
def slots : Option (List (Option T)) :=
  match v.u with
  | .inbuf slots => if v.cap ≤ N then some slots else none
  | .out b => if v.cap ≤ N then some (List.replicate N none) else h.blocks b

def store (slots : List (Option T)) : Heap T × SmallVector T :=
  match v.u with
  | .inbuf _ => (h, { v with u := .inbuf slots })
  | .out b => if v.cap ≤ N then (h, { v with u := .inbuf slots }) else (h.set b slots, v)

/-- The block of the vector. -/
def block : Option Nat :=
  match v.u with
  | .inbuf _ => none
  | .out b => if v.cap ≤ N then none else some b

/-- `deallocate(u_.out, cap_)` when there is a block. -/
def release : Option (Heap T) :=
  match v.block N with
  | none => some h
  | some b => h.deallocate b v.cap

/-- From `begin()` to `end()`. -/
def objects : Option (List T) := (v.slots N h).bind (Slots.objects v.sz)

def empty : SmallVector T := { sz := 0, cap := N, u := .inbuf (List.replicate N none) }

/-- `push_space`; the counts are of 32 bits. -/
def pushSpace (moved : T → T) : Option (Heap T × SmallVector T) :=
  let v := if v.cap = 0 then { v with cap := N } else v
  if v.sz < v.cap then some (h, v)
  else
    let (newptr, h) := h.allocate (v.cap * 2 % 2 ^ 32)
    (v.slots N h).bind fun here => (h.blocks newptr).bind fun there =>
      (move moved v.sz here there).bind fun (here, there) => (destroy v.sz here).bind fun here =>
        let (h, v) := v.store N (h.set newptr there) here
        (v.release N h).map fun h => (h, { v with u := .out newptr, cap := v.cap * 2 % 2 ^ 32 })

/-- `push_back` -/
def push (moved : T → T) (a : T) : Option (Heap T × SmallVector T) :=
  (v.pushSpace N h moved).bind fun (h, v) => (v.slots N h).bind fun slots =>
    (construct slots v.sz a).map fun slots =>
      let (h, v) := v.store N h slots
      (h, { v with sz := (v.sz + 1) % 2 ^ 32 })

/-- `truncate`; `pop_back` and `clear` destroy in the same way. -/
def truncate (k : Nat) : Option (Heap T × SmallVector T) :=
  if k ≤ v.sz then
    (v.slots N h).bind fun slots => (destroyFrom slots k (v.sz - k)).map fun slots =>
      let (h, v) := v.store N h slots
      (h, { v with sz := k })
  else none

/-- `pop_back` -/
def pop : Option (Heap T × SmallVector T) := if v.sz = 0 then none else v.truncate N h (v.sz - 1)

/-- `clear` -/
def clear : Option (Heap T × SmallVector T) := v.truncate N h 0

/-- `clear_capacity`, and the destructor. -/
def clearCapacity : Option (Heap T × SmallVector T) :=
  (v.slots N h).bind fun slots => (destroy v.sz slots).bind fun slots =>
    let (h, v) := v.store N h slots
    (v.release N h).map fun h => (h, { v with sz := 0, cap := 0 })

/-- The move constructor: the new vector, and what is left. -/
def moveConstruct (moved : T → T) : Option (SmallVector T × SmallVector T) :=
  match v.block N with
  | some b => some ({ v with u := .out b }, { v with sz := 0, cap := 0 })
  | none =>
    (v.slots N h).bind fun here => (move moved v.sz here (List.replicate N none)).map fun (here, there) =>
      ({ v with u := .inbuf there }, { v with u := .inbuf here })

end SmallVector

/-- The vectors there are. -/
structure State (T : Type) where
  heap : Heap T := {}
  vectors : Nat → Option (SmallVector T) := fun _ => none

inductive Op (T : Type) where
  | make (i : Nat)
  | moveTo (i j : Nat)            -- `j` is constructed from `i`
  | push (i : Nat) (a : T)
  | pop (i : Nat)
  | truncate (i k : Nat)
  | clear (i : Nat)
  | clearCapacity (i : Nat)
  | destroy (i : Nat)
  deriving DecidableEq, Repr

namespace State

variable (N : Nat) (moved : T → T)

def update (s : State T) (i : Nat) (result : Option (Heap T × SmallVector T)) : Option (State T) :=
  result.map fun (heap, v) => { heap, vectors := Function.update s.vectors i (some v) }

def step (s : State T) : Op T → Option (State T)
  | .make i =>
    match s.vectors i with
    | none => some { s with vectors := Function.update s.vectors i (some (SmallVector.empty N)) }
    | some _ => none
  | .moveTo i j =>
    match s.vectors i, s.vectors j with
    | some v, none =>
      (v.moveConstruct N s.heap moved).map fun (made, left) =>
        { s with vectors := Function.update (Function.update s.vectors i (some left)) j (some made) }
    | _, _ => none
  | .push i a => (s.vectors i).bind fun v => s.update i (v.push N s.heap moved a)
  | .pop i => (s.vectors i).bind fun v => s.update i (v.pop N s.heap)
  | .truncate i k => (s.vectors i).bind fun v => s.update i (v.truncate N s.heap k)
  | .clear i => (s.vectors i).bind fun v => s.update i (v.clear N s.heap)
  | .clearCapacity i => (s.vectors i).bind fun v => s.update i (v.clearCapacity N s.heap)
  | .destroy i =>
    (s.vectors i).bind fun v => (v.clearCapacity N s.heap).map fun (heap, _) =>
      { heap, vectors := Function.update s.vectors i none }

end State

/-! What a vector is for: a list that can be appended to, and how much room it has. -/

structure Items (T : Type) where
  items : List T
  cap : Nat
  deriving DecidableEq, Repr

namespace Items

variable (N : Nat) (moved : T → T)

/-- The room there is after one more object. -/
def grown (x : Items T) : Nat :=
  if x.cap = 0 then N else if x.items.length < x.cap then x.cap else x.cap * 2

def push (x : Items T) (a : T) : Items T := ⟨x.items ++ [a], x.grown N⟩

/-- A vector with a block gives it away; another keeps what its objects leave. -/
def left (x : Items T) : Items T := if N < x.cap then ⟨[], 0⟩ else { x with items := x.items.map moved }

def step (A : Nat → Option (Items T)) : Op T → Option (Nat → Option (Items T))
  | .make i => if A i = none then some (Function.update A i (some ⟨[], N⟩)) else none
  | .moveTo i j =>
    (A i).bind fun x =>
      if A j = none then some (Function.update (Function.update A i (some (x.left N moved))) j (some x)) else none
  | .push i a => (A i).map fun x => Function.update A i (some (x.push N a))
  | .pop i => (A i).bind fun x =>
      if x.items = [] then none else some (Function.update A i (some { x with items := x.items.dropLast }))
  | .truncate i k => (A i).bind fun x =>
      if k ≤ x.items.length then some (Function.update A i (some { x with items := x.items.take k })) else none
  | .clear i => (A i).map fun x => Function.update A i (some { x with items := [] })
  | .clearCapacity i => (A i).map fun _ => Function.update A i (some ⟨[], 0⟩)
  | .destroy i => (A i).map fun _ => Function.update A i none

/-- The capacity fits its 32 bits. -/
def Room (A : Nat → Option (Items T)) : Op T → Prop
  | .push i _ => ∀ x ∈ A i, x.items.length < x.cap ∨ x.cap * 2 < 2 ^ 32
  | _ => True

instance (A : Nat → Option (Items T)) (op : Op T) : Decidable (Room A op) :=
  match op with
  | .push i _ => inferInstanceAs (Decidable (∀ x ∈ A i, x.items.length < x.cap ∨ x.cap * 2 < 2 ^ 32))
  | .make _ | .moveTo _ _ | .pop _ | .truncate _ _ | .clear _ | .clearCapacity _ | .destroy _ => isTrue trivial

end Items

/-- Nothing is used beyond `next`. -/
def Heap.Fresh (h : Heap T) : Prop := ∀ b, h.next ≤ b → h.blocks b = none

namespace SmallVector

variable {N : Nat} {h h' : Heap T} {v v' : SmallVector T} {x x' : Items T}
  {slots slots' : List (Option T)} {o o' o'' : Option Nat}

/-- One owner of a block, before and after, and the blocks of others. -/
structure Change (h h' : Heap T) (o o' : Option Nat) : Prop where
  next : h.next ≤ h'.next
  others : ∀ b, o ≠ some b → o' ≠ some b → h'.blocks b = h.blocks b
  freed : ∀ b, o = some b → o' ≠ some b → h'.blocks b = none
  taken : ∀ b, o' = some b → o = some b ∨ h.next ≤ b ∧ b < h'.next

theorem Change.refl (h : Heap T) (o : Option Nat) : Change h h o o :=
  ⟨Nat.le_refl _, fun _ _ _ => rfl, fun _ same other => absurd same other, fun _ => .inl⟩

theorem slots_congr (same : ∀ b, v.block N = some b → h'.blocks b = h.blocks b) : v.slots N h' = v.slots N h := by
  unfold slots
  split
  · rfl
  next b out =>
    split
    · rfl
    next large => exact same b (by rw [block, out]; exact if_neg large)

/-- The memory of a vector is written back where it was read. -/
theorem store_spec (read : v.slots N h = some slots) (slots' : List (Option T)) :
    ∃ h' u, v.store N h slots' = (h', { v with u }) ∧ ({ v with u } : SmallVector T).slots N h' = some slots' ∧
      ({ v with u } : SmallVector T).block N = v.block N ∧ h'.next = h.next ∧
      ∀ b, v.block N ≠ some b → h'.blocks b = h.blocks b := by
  unfold SmallVector.slots at read
  split at read
  next l inside =>
    obtain ⟨small, _⟩ := Option.ite_none_right_eq_some.mp read
    refine ⟨h, .inbuf slots', by simp [store, inside], if_pos small, by simp [block, inside], rfl, fun _ _ => rfl⟩
  next b outside =>
    by_cases small : v.cap ≤ N
    · refine ⟨h, .inbuf slots', by simp [store, outside, small], if_pos small, ?_, rfl, fun _ _ => rfl⟩
      simp [block, outside, small]
    · refine ⟨h.set b slots', .out b, ?_, ?_, ?_, rfl, fun c other => ?_⟩
      · simp only [store, outside, if_neg small]
        rw [← outside]
      · simp [SmallVector.slots, small, Heap.set]
      · simp [block, outside]
      · have differs : c ≠ b := fun same => other (by rw [block, outside, same]; exact if_neg small)
        exact Function.update_of_ne differs _ _

/-- The vector has the objects, and raw memory up to its capacity. -/
structure Holds (N : Nat) (h : Heap T) (v : SmallVector T) (x : Items T) : Prop where
  size : v.sz = x.items.length
  cap : v.cap = x.cap
  fits : x.items.length ≤ x.cap
  small : x.cap ≤ N → x.cap = 0 ∨ x.cap = N
  range : x.cap < 2 ^ 32
  slots : v.slots N h = some (full x.items (max N x.cap - x.items.length))

theorem Holds.objects (holds : Holds N h v x) : v.objects N h = some x.items := by
  rw [SmallVector.objects, holds.slots, Option.bind_some, holds.size, objects_full]

theorem Holds.congr (holds : Holds N h v x) (same : ∀ b, v.block N = some b → h'.blocks b = h.blocks b) :
    Holds N h' v x :=
  { holds with slots := (slots_congr same).trans holds.slots }

/-- A vector with a block has its objects there. -/
theorem Holds.large (holds : Holds N h v x) (large : N < x.cap) :
    ∃ b, v.u = .out b ∧ v.block N = some b ∧ h.blocks b = some (full x.items (x.cap - x.items.length)) := by
  have slots := holds.slots
  have more : ¬v.cap ≤ N := by
    rw [holds.cap]
    omega
  unfold SmallVector.slots at slots
  split at slots
  · rw [if_neg more] at slots
    contradiction
  next b outside =>
    rw [if_neg more, Nat.max_eq_right (Nat.le_of_lt large)] at slots
    refine ⟨b, outside, ?_, slots⟩
    rw [block, outside]
    exact if_neg more

theorem Holds.block_none (holds : Holds N h v x) (small : x.cap ≤ N) : v.block N = none := by
  unfold block
  split
  · rfl
  · exact if_pos (holds.cap ▸ small)

theorem Holds.block_some (holds : Holds N h v x) (owns : v.block N = some b) :
    N < x.cap ∧ v.u = .out b ∧ h.blocks b = some (full x.items (x.cap - x.items.length)) := by
  have large : N < x.cap := by
    by_contra small
    cases owns.symm.trans (holds.block_none (Nat.le_of_not_lt small))
  obtain ⟨c, outside, owns', blocks⟩ := holds.large large
  cases Option.some.inj (owns.symm.trans owns')
  exact ⟨large, outside, blocks⟩

/-- The block is given back with its size. -/
theorem release_spec (read : v.slots N h = some slots) (length : ∀ b, v.block N = some b → slots.length = v.cap) :
    ∃ h', v.release N h = some h' ∧ h'.next = h.next ∧ (∀ b, v.block N = some b → h'.blocks b = none) ∧
      ∀ b, v.block N ≠ some b → h'.blocks b = h.blocks b := by
  unfold release
  cases owns : v.block N with
  | none => exact ⟨h, rfl, rfl, by rintro _ ⟨⟩, fun _ _ => rfl⟩
  | some b =>
    have there : h.blocks b = some slots := by
      unfold block at owns
      unfold SmallVector.slots at read
      split at owns
      · contradiction
      next c outside =>
        obtain ⟨more, same⟩ := Option.ite_none_left_eq_some.mp owns
        cases Option.some.inj same
        simpa [outside, more] using read
    refine ⟨{ h with blocks := Function.update h.blocks b none }, ?_, rfl, ?_, fun c other => ?_⟩
    · simp [Heap.deallocate, there, length b owns]
    · rintro _ ⟨⟩
      exact Function.update_self ..
    · exact Function.update_of_ne (fun same => other (congrArg some same.symm)) _ _

/-- A new block, none of which has an object. -/
theorem allocate_spec (h : Heap T) (n : Nat) : ∃ h', h.allocate n = (h.next, h') ∧ h'.next = h.next + 1 ∧
    h'.blocks h.next = some (List.replicate n none) ∧ ∀ b, b ≠ h.next → h'.blocks b = h.blocks b :=
  ⟨_, rfl, rfl, Function.update_self .., fun _ other => Function.update_of_ne other _ _⟩

/-- The objects are moved to a block of twice the size. -/
theorem reallocate_spec (moved : T → T) (holds : Holds N h v x) (fresh : h.Fresh) (positive : 0 < N) (some_ : x.cap ≠ 0)
    (whole : x.items.length = x.cap) (room : x.cap * 2 < 2 ^ 32) :
    ∃ h' v', v.pushSpace N h moved = some (h', v') ∧ Change h h' (v.block N) (v'.block N) ∧
      Holds N h' v' ⟨x.items, x.cap * 2⟩ := by
  have least : N ≤ x.cap := by
    by_contra less
    rcases holds.small (by omega) with none | same <;> omega
  have bound : x.cap * 2 % 2 ^ 32 = x.cap * 2 := Nat.mod_eq_of_lt room
  have owned : ∀ {b}, v.block N = some b → b < h.next := by
    intro b owns
    by_contra old
    cases (fresh b (Nat.le_of_not_lt old)).symm.trans (holds.block_some owns).2.2
  have none_left : max N x.cap - x.items.length = 0 := by omega
  obtain ⟨h₁, allocated, next₁, new₁, others₁⟩ := allocate_spec h (x.cap * 2)
  have read : v.slots N h₁ = some (full x.items 0) := by
    rw [slots_congr fun b owns => others₁ b (Nat.ne_of_lt (owned owns)), holds.slots, none_left]
  have moves := move_full moved (by omega : x.items.length ≤ x.cap * 2) 0
  have destroys := destroy_full (x.items.map moved) 0
  rw [List.length_map, Nat.add_zero] at destroys
  -- the new block is filled, the old memory is raw again
  have here : v.slots N (h₁.set h.next (full x.items (x.cap * 2 - x.items.length))) = some (full x.items 0) := by
    rw [← read]
    exact slots_congr fun b owns => Function.update_of_ne (Nat.ne_of_lt (owned owns)) _ _
  obtain ⟨h₂, u, stored, raw, block₂, next₂, others₂⟩ := store_spec here (List.replicate x.items.length none)
  obtain ⟨h₃, released, next₃, gone₃, others₃⟩ := release_spec raw fun b _ => by
    rw [List.length_replicate]
    exact whole.trans holds.cap.symm
  refine ⟨h₃, { v with u := .out h.next, cap := x.cap * 2 }, ?_, ?_, ?_⟩
  · have positive_cap : v.cap ≠ 0 := holds.cap ▸ some_
    have used : ¬v.sz < v.cap := by
      rw [holds.size, holds.cap]
      omega
    simp only [pushSpace, if_neg positive_cap, if_neg used]
    rw [holds.cap, bound, allocated]
    rw [holds.size, holds.cap] at stored released
    simp only [read, new₁, holds.size, moves, destroys, stored, released, bound, Option.bind_some,
      Option.map_some]
  · have owner : ({ v with u := .out h.next, cap := x.cap * 2 } : SmallVector T).block N = some h.next := by
      simp only [block]
      exact if_neg (by omega)
    rw [owner]
    have kept : ∀ b, v.block N ≠ some b → some h.next ≠ some b → h₃.blocks b = h.blocks b := by
      intro b other differs
      have differs : b ≠ h.next := fun same => differs (congrArg some same.symm)
      rw [others₃ b (block₂ ▸ other), others₂ b other]
      exact (Function.update_of_ne differs _ _).trans (others₁ b differs)
    refine ⟨?_, kept, fun b owns _ => gone₃ b (block₂ ▸ owns), ?_⟩
    · rw [next₃, next₂]
      exact Nat.le_trans (Nat.le_succ _) (Nat.le_of_eq next₁.symm)
    · rintro b ⟨⟩
      refine .inr ⟨Nat.le_refl _, ?_⟩
      rw [next₃, next₂]
      exact Nat.lt_of_lt_of_eq (Nat.lt_succ_self _) next₁.symm
  · have apart : v.block N ≠ some h.next := fun owns => Nat.lt_irrefl _ (owned owns)
    have filled : h₃.blocks h.next = some (full x.items (x.cap * 2 - x.items.length)) := by
      rw [others₃ _ (block₂ ▸ apart), others₂ _ apart]
      exact Function.update_self ..
    refine ⟨holds.size, rfl, ?_, fun small => ?_, room, ?_⟩
    · dsimp only
      omega
    · dsimp only at small
      omega
    · simp only [SmallVector.slots]
      rw [if_neg (by omega), filled, Nat.max_eq_right (by omega)]

/-- After `push_space` there is room, and nothing else has changed. -/
theorem pushSpace_spec (moved : T → T) (holds : Holds N h v x) (fresh : h.Fresh) (positive : 0 < N) (short : N ≤ 128)
    (room : x.items.length < x.cap ∨ x.cap * 2 < 2 ^ 32) :
    ∃ h' v', v.pushSpace N h moved = some (h', v') ∧ Change h h' (v.block N) (v'.block N) ∧
      Holds N h' v' ⟨x.items, x.grown N⟩ ∧ x.items.length < x.grown N := by
  have size := holds.size
  have cap := holds.cap
  have fits := holds.fits
  by_cases unused : x.cap = 0
  · have empty : x.items.length = 0 := by omega
    have grown : x.grown N = N := if_pos unused
    refine ⟨h, { v with cap := N }, ?_, ?_, ⟨size, grown.symm, ?_, fun _ => .inr grown, ?_, ?_⟩, ?_⟩
    · simp only [pushSpace, if_pos (cap.trans unused)]
      rw [if_pos (by omega)]
    · have same : ({ v with cap := N } : SmallVector T).block N = v.block N := by
        rw [holds.block_none (by omega)]
        unfold block
        split
        · rfl
        · exact if_pos (Nat.le_refl _)
      rw [same]
      exact .refl h _
    · dsimp only
      omega
    · dsimp only
      omega
    · have slots := holds.slots
      unfold SmallVector.slots at slots ⊢
      rw [unused, Nat.max_eq_left (Nat.zero_le _)] at slots
      dsimp only
      rw [grown, Nat.max_self, ← slots]
      split <;> simp [cap.trans unused]
    · omega
  · by_cases few : x.items.length < x.cap
    · have grown : x.grown N = x.cap := by
        rw [Items.grown, if_neg unused, if_pos few]
      rw [grown]
      refine ⟨h, v, ?_, .refl h _, holds, few⟩
      simp only [pushSpace, if_neg (cap ▸ unused)]
      rw [if_pos (by omega)]
    · have grown : x.grown N = x.cap * 2 := by
        rw [Items.grown, if_neg unused, if_neg few]
      obtain ⟨h', v', pushed, change, holds'⟩ := reallocate_spec moved holds fresh positive unused (by omega)
        (room.resolve_left few)
      rw [grown]
      exact ⟨h', v', pushed, change, holds', by omega⟩

/-- The memory that the vector has afterwards is written. -/
theorem Change.store {h'' : Heap T} (change : Change h h' o o') (next : h''.next = h'.next)
    (others : ∀ b, o' ≠ some b → h''.blocks b = h'.blocks b) : Change h h'' o o' :=
  ⟨next ▸ change.next, fun b other other' => (others b other').trans (change.others b other other'),
    fun b owns other => (others b other).trans (change.freed b owns other), fun b owns => next ▸ change.taken b owns⟩

theorem push_spec (moved : T → T) (holds : Holds N h v x) (fresh : h.Fresh) (positive : 0 < N) (short : N ≤ 128)
    (room : x.items.length < x.cap ∨ x.cap * 2 < 2 ^ 32) (a : T) :
    ∃ h' v', v.push N h moved a = some (h', v') ∧ Change h h' (v.block N) (v'.block N) ∧
      Holds N h' v' (x.push N a) := by
  obtain ⟨h₁, v₁, spaced, change, holds₁, few⟩ := pushSpace_spec moved holds fresh positive short room
  have left : max N (x.grown N) - x.items.length = (max N (x.grown N) - (x.items.length + 1)) + 1 := by omega
  have read := holds₁.slots
  dsimp only at read
  rw [left] at read
  obtain ⟨h₂, u, stored, slots, block₂, next₂, others₂⟩ := store_spec read
    (full (x.items ++ [a]) (max N (x.grown N) - (x.items.length + 1)))
  have size : (v₁.sz + 1) % 2 ^ 32 = x.items.length + 1 := by
    have range := holds₁.range
    rw [holds₁.size]
    dsimp only at range ⊢
    omega
  refine ⟨h₂, { v₁ with u, sz := (v₁.sz + 1) % 2 ^ 32 }, ?_, ?_, ?_, holds₁.cap, ?_, holds₁.small, holds₁.range, ?_⟩
  · have built := construct_full x.items (max N (x.grown N) - (x.items.length + 1)) a
    simp only [push, spaced, Option.bind_some, read]
    rw [holds₁.size]
    simp only [built, Option.map_some, stored, holds₁.size]
  · have owner : ({ v₁ with u, sz := (v₁.sz + 1) % 2 ^ 32 } : SmallVector T).block N = v₁.block N := block₂
    rw [owner]
    exact change.store next₂ others₂
  · simp only [Items.push, size, List.length_append, List.length_singleton]
  · simp only [Items.push, List.length_append, List.length_singleton]
    omega
  · simp only [Items.push, List.length_append, List.length_singleton]
    exact slots

theorem truncate_spec (holds : Holds N h v x) (few : k ≤ x.items.length) :
    ∃ h' v', v.truncate N h k = some (h', v') ∧ Change h h' (v.block N) (v'.block N) ∧
      Holds N h' v' { x with items := x.items.take k } := by
  have fits := holds.fits
  have destroys := destroyFrom_full few (max N x.cap - x.items.length)
  obtain ⟨h₁, u, stored, slots, block₁, next₁, others₁⟩ := store_spec holds.slots
    (full (x.items.take k) (x.items.length - k + (max N x.cap - x.items.length)))
  have length : (x.items.take k).length = k := List.length_take_of_le few
  refine ⟨h₁, { v with u, sz := k }, ?_, ?_, length.symm, holds.cap, ?_, holds.small, holds.range, ?_⟩
  · simp only [truncate, holds.size, if_pos few, holds.slots, destroys, stored, Option.bind_some, Option.map_some]
  · have owner : ({ v with u, sz := k } : SmallVector T).block N = v.block N := block₁
    rw [owner]
    exact (Change.refl h _).store next₁ others₁
  · dsimp only
    omega
  · have left : max N x.cap - (x.items.take k).length = x.items.length - k + (max N x.cap - x.items.length) := by
      omega
    dsimp only
    rw [left]
    exact slots

theorem clearCapacity_spec (holds : Holds N h v x) :
    ∃ h' v', v.clearCapacity N h = some (h', v') ∧ Change h h' (v.block N) (v'.block N) ∧ Holds N h' v' ⟨[], 0⟩ ∧
      v'.block N = none := by
  have fits := holds.fits
  have destroys := destroy_full x.items (max N x.cap - x.items.length)
  obtain ⟨h₁, u, stored, raw, block₁, next₁, others₁⟩ := store_spec holds.slots
    (List.replicate (x.items.length + (max N x.cap - x.items.length)) none)
  obtain ⟨h₂, released, next₂, gone₂, others₂⟩ := release_spec raw fun b owns => by
    have large := (holds.block_some (block₁ ▸ owns)).1
    have cap := holds.cap
    rw [List.length_replicate]
    dsimp only
    omega
  have owner : ({ v with u, sz := 0, cap := 0 } : SmallVector T).block N = none := by
    unfold block
    split
    · rfl
    · exact if_pos (Nat.zero_le N)
  refine ⟨h₂, { v with u, sz := 0, cap := 0 }, ?_, ?_, ⟨rfl, rfl, Nat.le_refl _, fun _ => .inl rfl, Nat.two_pow_pos 32, ?_⟩, owner⟩
  · rw [holds.size] at stored released
    simp only [clearCapacity, holds.slots, holds.size, destroys, stored, released, Option.bind_some, Option.map_some]
  · rw [owner]
    refine ⟨Nat.le_of_eq (next₂.trans next₁).symm, fun b other _ => ?_, fun b owns _ => gone₂ b (block₁ ▸ owns), by rintro _ ⟨⟩⟩
    rw [others₂ b (block₁ ▸ other), others₁ b other]
  · -- without a block the buffer is raw, and a pointer that is left is not read
    have slots := raw
    unfold SmallVector.slots at slots ⊢
    simp only [Nat.zero_le, if_true, Nat.max_zero, List.length_nil, Nat.sub_zero, full_nil]
    split
    next l =>
      dsimp only at slots
      obtain ⟨small, same⟩ := Option.ite_none_right_eq_some.mp slots
      rw [same]
      rw [holds.cap] at small
      exact congrArg (fun n => some (List.replicate n none)) (by omega)
    next => rfl

/-- The new vector has the objects. -/
theorem moveConstruct_spec (moved : T → T) (holds : Holds N h v x) :
    ∃ made left, v.moveConstruct N h moved = some (made, left) ∧ Holds N h made x ∧
      Holds N h left (x.left N moved) ∧ made.block N = v.block N ∧ left.block N = none := by
  have fits := holds.fits
  by_cases large : N < x.cap
  · obtain ⟨b, outside, owns, blocks⟩ := holds.large large
    have left : x.left N moved = ⟨[], 0⟩ := if_pos large
    have owner : ({ v with sz := 0, cap := 0 } : SmallVector T).block N = none := by
      unfold block
      split
      · rfl
      · exact if_pos (Nat.zero_le N)
    refine ⟨{ v with u := .out b }, { v with sz := 0, cap := 0 }, ?_, ?_, ?_, ?_, owner⟩
    · simp only [moveConstruct, owns]
    · rw [← outside]
      exact holds
    · rw [left]
      refine ⟨rfl, rfl, Nat.le_refl _, fun _ => .inl rfl, Nat.two_pow_pos 32, ?_⟩
      simp only [SmallVector.slots, outside, Nat.zero_le, if_true, Nat.max_zero, List.length_nil, Nat.sub_zero, full_nil]
    · rw [← outside]
  · have small : x.cap ≤ N := Nat.le_of_not_lt large
    have left : x.left N moved = { x with items := x.items.map moved } := if_neg large
    have owns := holds.block_none small
    have room : max N x.cap = N := Nat.max_eq_left small
    have moves := move_full moved (Nat.le_trans fits small) (N - x.items.length)
    have read := holds.slots
    rw [room] at read
    refine ⟨{ v with u := .inbuf (full x.items (N - x.items.length)) },
      { v with u := .inbuf (full (x.items.map moved) (N - x.items.length)) }, ?_,
      ⟨holds.size, holds.cap, fits, holds.small, holds.range, ?_⟩, ?_, ?_, rfl⟩
    · simp only [moveConstruct, owns, read, holds.size, moves, Option.bind_some, Option.map_some]
    · rw [room]
      exact if_pos (holds.cap ▸ small)
    · rw [left]
      refine ⟨?_, holds.cap, ?_, holds.small, holds.range, ?_⟩
      · rw [holds.size, List.length_map]
      · rw [List.length_map]
        exact fits
      · dsimp only
        rw [room, List.length_map]
        exact if_pos (holds.cap ▸ small)
    · exact owns.symm

end SmallVector

namespace State

variable {N : Nat} {s t : State T} {A B : Nat → Option (Items T)} {moved : T → T}
  {mx : Option (Items T)} {v : SmallVector T} {x : Items T} {h' : Heap T}
  {op : Op T} {ops : List (Op T)}

/-- The block that one vector has. -/
def owner (N : Nat) (s : State T) (i : Nat) : Option Nat := (s.vectors i).bind (·.block N)

/-- The vectors have their objects, no two have one block, and no block is without a vector. -/
structure Sound (N : Nat) (A : Nat → Option (Items T)) (s : State T) : Prop where
  holds : ∀ i, Option.Rel (SmallVector.Holds N s.heap) (s.vectors i) (A i)
  apart : ∀ i j b, s.owner N i = some b → s.owner N j = some b → i = j
  owned : ∀ b, s.heap.blocks b ≠ none → ∃ i, s.owner N i = some b
  fresh : s.heap.Fresh

theorem Sound.initial : Sound N (fun _ => none) ({} : State T) :=
  ⟨fun _ => .none, by simp [owner], fun _ used => absurd rfl used, fun _ _ => rfl⟩

theorem Sound.vector (sound : Sound N A s) (here : A i = some x) :
    ∃ v, s.vectors i = some v ∧ SmallVector.Holds N s.heap v x := by
  have holds := sound.holds i
  rw [here] at holds
  cases found : s.vectors i with
  | none =>
    rw [found] at holds
    cases holds
  | some v =>
    rw [found] at holds
    cases holds with
    | some holds => exact ⟨v, rfl, holds⟩

theorem Sound.absent (sound : Sound N A s) (here : A i = none) : s.vectors i = none := by
  have holds := sound.holds i
  rw [here] at holds
  cases found : s.vectors i with
  | none => rfl
  | some v =>
    rw [found] at holds
    cases holds

theorem Sound.used (sound : Sound N A s) (owns : s.owner N i = some b) : s.heap.blocks b ≠ none := by
  obtain ⟨v, found, has⟩ := Option.bind_eq_some_iff.mp owns
  have holds := sound.holds i
  rw [found] at holds
  generalize A i = mx at holds
  cases holds with
  | some holds =>
    rw [(holds.block_some has).2.2]
    exact Option.some_ne_none _

theorem Sound.before (sound : Sound N A s) (owns : s.owner N i = some b) : b < s.heap.next := by
  by_contra late
  exact sound.used owns (sound.fresh b (Nat.le_of_not_lt late))

/-- One vector changes, or is made or destroyed. -/
theorem Sound.put (sound : Sound N A s) (mv : Option (SmallVector T))
    (change : SmallVector.Change s.heap h' (s.owner N i) (mv.bind (·.block N)))
    (made : Option.Rel (SmallVector.Holds N h') mv mx) :
    Sound N (Function.update A i mx) { heap := h', vectors := Function.update s.vectors i mv } := by
  have here : owner N { heap := h', vectors := Function.update s.vectors i mv } i = mv.bind (·.block N) := by
    simp only [owner, Function.update_self]
  have there : ∀ j, j ≠ i → owner N { heap := h', vectors := Function.update s.vectors i mv } j = s.owner N j := by
    intro j other
    simp only [owner, Function.update_of_ne other]
  -- a block of another vector is neither the old one nor the new one
  have elsewhere : ∀ j b, j ≠ i → s.owner N j = some b →
      s.owner N i ≠ some b ∧ mv.bind (·.block N) ≠ some b := by
    intro j b other owns
    refine ⟨fun same => other (sound.apart j i b owns same), fun taken => ?_⟩
    rcases change.taken b taken with same | fresh
    · exact other (sound.apart j i b owns same)
    · exact absurd (sound.before owns) (Nat.not_lt.mpr fresh.1)
  refine ⟨fun j => ?_, fun j k b left right => ?_, fun b used => ?_, fun b late => ?_⟩
  · by_cases other : j = i
    · subst other
      simpa only [Function.update_self] using made
    · simp only [Function.update_of_ne other]
      have holds := sound.holds j
      cases found : s.vectors j with
      | none =>
        rw [found] at holds
        generalize A j = mx at holds
        cases holds
        exact .none
      | some w =>
        rw [found] at holds
        generalize A j = mx at holds
        cases holds with
        | some holds =>
          refine .some (holds.congr fun b owns => ?_)
          have outside := elsewhere j b other (by rw [owner, found]; exact owns)
          exact change.others b outside.1 outside.2
  · by_cases first : j = i
    · by_cases second : k = i
      · exact first.trans second.symm
      · rw [first, here] at left
        rw [there k second] at right
        exact absurd left (elsewhere k b second right).2
    · rw [there j first] at left
      by_cases second : k = i
      · rw [second, here] at right
        exact absurd right (elsewhere j b first left).2
      · rw [there k second] at right
        exact sound.apart j k b left right
  · by_cases mine : mv.bind (·.block N) = some b
    · exact ⟨i, here.trans mine⟩
    · by_cases old : s.owner N i = some b
      · exact absurd (change.freed b old mine) used
      · rw [change.others b old mine] at used
        obtain ⟨j, owns⟩ := sound.owned b used
        have other : j ≠ i := by
          rintro rfl
          exact old owns
        exact ⟨j, (there j other).trans owns⟩
  · dsimp only at late ⊢
    have old : s.owner N i ≠ some b := fun owns =>
      Nat.not_lt.mpr (Nat.le_trans change.next late) (sound.before owns)
    have new : mv.bind (·.block N) ≠ some b := by
      intro taken
      rcases change.taken b taken with same | fresh
      · exact old same
      · exact Nat.not_lt.mpr late fresh.2
    rw [change.others b old new]
    exact sound.fresh b (Nat.le_trans change.next late)

/-- What a block holds goes to another vector, with the block. -/
theorem Sound.moveTo {made left : SmallVector T} {y : Items T} (sound : Sound N A s) (found : s.vectors i = some v)
    (free : s.vectors j = none) (holds : SmallVector.Holds N s.heap made x)
    (rest : SmallVector.Holds N s.heap left y) (same : made.block N = v.block N) (gone : left.block N = none) :
    Sound N (Function.update (Function.update A i (some y)) j (some x))
      { s with vectors := Function.update (Function.update s.vectors i (some left)) j (some made) } := by
  have differs : i ≠ j := by
    rintro rfl
    cases found.symm.trans free
  -- the block of `i` is the block of `j` afterwards
  have owners : ∀ k, owner N { s with
      vectors := Function.update (Function.update s.vectors i (some left)) j (some made) } k =
      if k = j then s.owner N i else if k = i then none else s.owner N k := by
    intro k
    by_cases target : k = j
    · subst target
      simp only [owner, Function.update_self, if_true, Option.bind_some, same, found]
    · by_cases source : k = i
      · subst source
        simp only [owner, Function.update_of_ne target, Function.update_self, if_neg target, if_true,
          Option.bind_some, gone]
      · simp only [owner, Function.update_of_ne target, Function.update_of_ne source, if_neg target, if_neg source]
  have before : s.owner N j = none := by
    rw [owner, free, Option.bind_none]
  refine ⟨fun k => ?_, fun k l b one two => ?_, fun b used => ?_, sound.fresh⟩
  · by_cases target : k = j
    · subst target
      simpa only [Function.update_self] using .some holds
    · by_cases source : k = i
      · subst source
        simpa only [Function.update_of_ne target, Function.update_self] using .some rest
      · simpa only [Function.update_of_ne target, Function.update_of_ne source] using sound.holds k
  · rw [owners] at one two
    have back : ∀ k, (if k = j then s.owner N i else if k = i then none else s.owner N k) = some b →
        k = j ∧ s.owner N i = some b ∨ k ≠ j ∧ k ≠ i ∧ s.owner N k = some b := by
      intro k owns
      split at owns
      next target => exact .inl ⟨target, owns⟩
      next target =>
        split at owns
        · cases owns
        next source => exact .inr ⟨target, source, owns⟩
    rcases back k one with ⟨rfl, first⟩ | ⟨_, source, first⟩ <;> rcases back l two with ⟨rfl, second⟩ | ⟨_, source', second⟩
    · rfl
    · exact absurd (sound.apart _ _ b second first) source'
    · exact absurd (sound.apart _ _ b first second) source
    · exact sound.apart k l b first second
  · obtain ⟨k, owns⟩ := sound.owned b used
    by_cases source : k = i
    · exact ⟨j, by rw [owners, if_pos rfl, ← source, owns]⟩
    · have target : k ≠ j := by
        rintro rfl
        cases before.symm.trans owns
      exact ⟨k, by rw [owners, if_neg target, if_neg source, owns]⟩

/-- A member changes its vector, and nothing goes wrong. -/
theorem Sound.change {y : Items T} {result : Option (Heap T × SmallVector T)} {v' : SmallVector T}
    (sound : Sound N A s) (found : s.vectors i = some v) (returns : result = some (h', v'))
    (change : SmallVector.Change s.heap h' (v.block N) (v'.block N)) (holds : SmallVector.Holds N h' v' y) :
    ∃ t, s.update i result = some t ∧ Sound N (Function.update A i (some y)) t := by
  refine ⟨_, by rw [update, returns, Option.map_some], sound.put (some v') ?_ (.some holds)⟩
  rw [owner, found, Option.bind_some]
  exact change

theorem Sound.step (sound : Sound N A s) (positive : 0 < N) (short : N ≤ 128) (room : Items.Room A op)
    (moves : Items.step N moved A op = some B) : ∃ t, s.step N moved op = some t ∧ Sound N B t := by
  cases op with
  | make i =>
    obtain ⟨free, same⟩ := Option.ite_none_right_eq_some.mp moves
    cases same
    have absent := sound.absent free
    refine ⟨_, by rw [State.step, absent], sound.put (some (SmallVector.empty N)) ?_ (.some ?_)⟩
    · rw [owner, absent]
      exact .refl _ _
    · refine ⟨rfl, rfl, Nat.zero_le N, fun _ => .inr rfl, by dsimp only; omega, ?_⟩
      simp [SmallVector.slots, SmallVector.empty, full_nil]
  | moveTo i j =>
    obtain ⟨x, here, moves⟩ := Option.bind_eq_some_iff.mp moves
    obtain ⟨free, same⟩ := Option.ite_none_right_eq_some.mp moves
    cases same
    obtain ⟨v, found, holds⟩ := sound.vector here
    have absent := sound.absent free
    obtain ⟨made, left, runs, taken, rest, same, gone⟩ := SmallVector.moveConstruct_spec moved holds
    refine ⟨_, ?_, sound.moveTo found absent taken rest same gone⟩
    simp only [State.step, found, absent, runs, Option.map_some]
  | push i a =>
    obtain ⟨x, here, rfl⟩ := Option.map_eq_some_iff.mp moves
    obtain ⟨v, found, holds⟩ := sound.vector here
    obtain ⟨h', v', runs, change, after⟩ := SmallVector.push_spec moved holds sound.fresh positive short
      (room x here) a
    simp only [State.step, found, Option.bind_some]
    exact sound.change found runs change after
  | pop i =>
    obtain ⟨x, here, moves⟩ := Option.bind_eq_some_iff.mp moves
    obtain ⟨some_, same⟩ := Option.ite_none_left_eq_some.mp moves
    cases same
    obtain ⟨v, found, holds⟩ := sound.vector here
    obtain ⟨h', v', runs, change, after⟩ := SmallVector.truncate_spec (k := x.items.length - 1) holds (Nat.sub_le _ _)
    have nonempty : v.sz ≠ 0 := by
      rw [holds.size]
      exact fun none => some_ (List.length_eq_zero_iff.mp none)
    simp only [State.step, found, Option.bind_some]
    rw [List.dropLast_eq_take]
    refine sound.change found ?_ change after
    rw [SmallVector.pop, if_neg nonempty, holds.size]
    exact runs
  | truncate i k =>
    obtain ⟨x, here, moves⟩ := Option.bind_eq_some_iff.mp moves
    obtain ⟨few, same⟩ := Option.ite_none_right_eq_some.mp moves
    cases same
    obtain ⟨v, found, holds⟩ := sound.vector here
    obtain ⟨h', v', runs, change, after⟩ := SmallVector.truncate_spec holds few
    simp only [State.step, found, Option.bind_some]
    exact sound.change found runs change after
  | clear i =>
    obtain ⟨x, here, rfl⟩ := Option.map_eq_some_iff.mp moves
    obtain ⟨v, found, holds⟩ := sound.vector here
    obtain ⟨h', v', runs, change, after⟩ := SmallVector.truncate_spec holds (Nat.zero_le _)
    simp only [State.step, found, Option.bind_some]
    exact sound.change found runs change after
  | clearCapacity i =>
    obtain ⟨x, here, rfl⟩ := Option.map_eq_some_iff.mp moves
    obtain ⟨v, found, holds⟩ := sound.vector here
    obtain ⟨h', v', runs, change, after, _⟩ := SmallVector.clearCapacity_spec holds
    simp only [State.step, found, Option.bind_some]
    exact sound.change found runs change after
  | destroy i =>
    obtain ⟨x, here, rfl⟩ := Option.map_eq_some_iff.mp moves
    obtain ⟨v, found, holds⟩ := sound.vector here
    obtain ⟨h', v', runs, change, _, gone⟩ := SmallVector.clearCapacity_spec holds
    refine ⟨{ heap := h', vectors := Function.update s.vectors i none }, ?_, sound.put none ?_ .none⟩
    · simp only [State.step, found, runs, Option.bind_some, Option.map_some]
    · rw [owner, found, Option.bind_some, Option.bind_none, ← gone]
      exact change

theorem Sound.contents (sound : Sound N A s) (i : Nat) :
    (s.vectors i).map (fun v => (v.objects N s.heap, v.cap)) = (A i).map fun x => (some x.items, x.cap) := by
  cases here : A i with
  | none => rw [sound.absent here, Option.map_none, Option.map_none]
  | some x =>
    obtain ⟨v, found, holds⟩ := sound.vector here
    rw [found, Option.map_some, Option.map_some, holds.objects, holds.cap]

end State

variable {N : Nat} {A : Nat → Option (Items T)} {moved : T → T} {ops : List (Op T)}

/-- Vectors are used as lists can be, and have the same objects. No object is constructed
over another or destroyed twice, no block is read after it was given back, and a block
that nobody has was given back. -/
theorem small_vector_refines (positive : 0 < N) (short : N ≤ 128)
    (path : Reaches (Items.step N moved) (fun _ => none) ops A)
    (room : Meets (Items.step N moved) Items.Room (fun _ => none) ops) :
    ∃ s, Reaches (State.step N moved) {} ops s ∧
      (∀ i, (s.vectors i).map (fun v => (v.objects N s.heap, v.cap)) = (A i).map fun x => (some x.items, x.cap)) ∧
      (∀ b, s.heap.blocks b ≠ none → ∃ i, s.owner N i = some b) ∧
      ∀ i j b, s.owner N i = some b → s.owner N j = some b → i = j := by
  have simulated : ∀ s, State.Sound N (fun _ => none) s → ∃ t, Reaches (State.step N moved) s ops t ∧ State.Sound N A t := by
    generalize (fun _ : Nat => (none : Option (Items T))) = start at path room
    induction path with
    | refl A => exact fun s sound => ⟨s, .refl s, sound⟩
    | next moves _ ih =>
      intro s sound
      obtain ⟨t, runs, sound⟩ := sound.step positive short room.1 moves
      obtain ⟨u, rest, sound⟩ := ih (room.2 _ moves) t sound
      exact ⟨u, .next runs rest, sound⟩
  obtain ⟨s, runs, sound⟩ := simulated {} .initial
  exact ⟨s, runs, sound.contents, sound.owned, sound.apart⟩

theorem small_vector_refines_moved : ∃ s, Reaches (State.step 2 id)
      {} [.make 0, .push 0 1, .push 0 2, .push 0 3, .moveTo 0 1, .push 0 4, .pop 1] s ∧
    (s.vectors 0).map (fun v => (v.objects 2 s.heap, v.cap)) = some (some [4], 2) ∧
    (s.vectors 1).map (fun v => (v.objects 2 s.heap, v.cap)) = some (some [1, 2], 4) := by
  obtain ⟨A, path, first, second⟩ : ∃ A, run (Items.step 2 id) (fun _ => none)
      [.make 0, .push 0 1, .push 0 2, .push 0 3, .moveTo 0 1, .push 0 4, .pop 1] = some A ∧
        A 0 = some ⟨[4], 2⟩ ∧ A 1 = some ⟨[1, 2], 4⟩ := ⟨_, rfl, rfl, rfl⟩
  obtain ⟨s, runs, contents, _⟩ := small_vector_refines (by decide) (by decide) (run_iff_reaches.mp path) (by decide)
  refine ⟨s, runs, ?_, ?_⟩
  · rw [contents 0, first, Option.map_some]
  · rw [contents 1, second, Option.map_some]

end Cotamer.Containers

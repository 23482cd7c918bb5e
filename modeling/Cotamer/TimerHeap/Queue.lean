import Cotamer.TimerHeap.Sifts
import Cotamer.Transition
import Mathlib.Algebra.Order.Group.Multiset
import Mathlib.Tactic.Abel

/-! The heap as a stable priority queue. The entries carry the number of their
insertion, which the code of the heap never looks at; it has the number modulo
2^32 only. -/
namespace Cotamer.TimerHeap
open Transition

variable {α : Type}

/-- `expand`: the capacity after a reallocation. -/
def expand (capacity : Nat) : Nat := if capacity = 0 then 31 else (capacity * 4 + 3) % 2 ^ 32

/-- `clear` -/
def clear (h : TimerHeap α) : TimerHeap α := { h with es := #[] }

/-- A value handed to `emplace`, with its deadline and the number of the insertion. -/
structure Entry (α : Type) where
  seq : Nat
  time : Int
  value : α
  deriving DecidableEq, Repr

/-- A heap with its past. `expired` are the entries whose value is empty. -/
structure History (α : Type) where
  heap : TimerHeap (Entry α) := {}
  capacity : Nat := 0
  expired : List Nat := []
  inserted : List (Entry α) := []
  popped : List (Entry α) := []
  cleared : List (Entry α) := []
  culled : List (Entry α) := []
  deriving Repr

inductive Op (α : Type) where
  | emplace (time : Int) (value : α)
  | pop
  | cull
  | clear
  | expire (seq : Nat)
  deriving DecidableEq, Repr

namespace History

def empty (s : History α) (e : Entry α) : Bool := s.expired.contains e.seq

def step (s : History α) : Op α → Option (History α)
  | .emplace time value =>
    let e : Entry α := ⟨s.inserted.length + 1, time, value⟩
    let r := s.heap.emplace s.empty time e
    some { s with
      heap := r.1
      capacity := if r.1.es.size - 1 = s.capacity then expand s.capacity else s.capacity
      inserted := s.inserted ++ [e]
      culled := r.2 ++ s.culled }
  | .pop =>
    match s.heap.top? with
    | some e => some { s with heap := s.heap.pop, popped := e :: s.popped }
    | none => none
  | .cull =>
    let r := s.heap.cull s.empty
    some { s with heap := r.1, culled := r.2 ++ s.culled }
  | .clear => some { s with heap := s.heap.clear, cleared := s.heap.values ++ s.cleared }
  | .expire seq => some { s with expired := seq :: s.expired }

/-- Held entries with the same deadline are fewer than 2^31 insertions apart. -/
def Near (s : History α) : Prop :=
  ∀ a ∈ s.heap.values, ∀ b ∈ s.heap.values, a.time = b.time → a.seq < b.seq + 2 ^ 31

instance [DecidableEq α] (s : History α) : Decidable s.Near := inferInstanceAs (Decidable (∀ _ ∈ _, _))

/-- Entries are removed only while no position of a child wraps, and inserted only while
there is a larger array. -/
def Bounded (s : History α) : Op α → Prop
  | .emplace .. => s.heap.es.size < 2 ^ 32 - 1 ∧ (s.heap.Stale s.empty → s.heap.Indexed)
  | .pop => s.heap.Indexed
  | .cull => (∃ e ∈ s.heap.top?, s.empty e = true) → s.heap.Indexed
  | .clear | .expire _ => True

instance decidableBounded (s : History α) : ∀ op, Decidable (s.Bounded op)
  | .emplace .. => inferInstanceAs (Decidable (_ ∧ (_ → _)))
  | .pop => inferInstanceAs (Decidable s.heap.Indexed)
  | .cull => inferInstanceAs (Decidable ((∃ e ∈ s.heap.top?, _) → _))
  | .clear | .expire _ => isTrue trivial

variable {s t : History α} {op : Op α} {ops : List (Op α)} {x y : Element (Entry α)} {e : Entry α}

/-- The entry of an element agrees with what the heap looks at. -/
def Tagged (x : Element (Entry α)) : Prop := x.when = x.value.time ∧ x.order = .ofNat 32 x.value.seq

/-- Deadlines, the order that every heap keeps. -/
def byTime (x y : Element (Entry α)) : Prop := x.when ≤ y.when

/-- Deadlines, then insertions. -/
def byAge (x y : Element (Entry α)) : Prop :=
  x.when < y.when ∨ x.when = y.when ∧ x.value.seq ≤ y.value.seq

instance : IsPreorder (Element (Entry α)) byTime where
  refl _ := Int.le_refl _
  trans _ _ _ := Int.le_trans

instance : IsPreorder (Element (Entry α)) byAge where
  refl _ := .inr ⟨rfl, Nat.le_refl _⟩
  trans x y z first second := by
    unfold byAge at *
    omega

theorem byTime_agrees (es : Array (Element (Entry α))) : Agrees byTime es := by
  intro x _ y _
  unfold byTime Element.lt
  simp only [Bool.or_eq_true, Bool.and_eq_true, decide_eq_true_eq, beq_iff_eq, Bool.or_eq_false_iff,
    decide_eq_false_iff_not]
  omega

/-- Near each other, the counters compare like the insertions. -/
theorem circularLt_near {m n : Nat} (left : m < n + 2 ^ 31) (right : n < m + 2 ^ 31) :
    circularLt (.ofNat 32 m) (.ofNat 32 n) = decide (m < n) := by
  rw [circularLt, BitVec.msb_eq_decide, BitVec.toNat_sub, Bool.eq_iff_iff]
  simp only [BitVec.toNat_ofNat, Bool.and_eq_true, bne_iff_ne, ne_eq, decide_eq_true_eq,
    ← BitVec.toNat_inj]
  omega

theorem byAge_agrees {es : Array (Element (Entry α))} (tagged : ∀ x ∈ es, Tagged x)
    (near : ∀ x ∈ es, ∀ y ∈ es, x.value.time = y.value.time → x.value.seq < y.value.seq + 2 ^ 31) :
    Agrees byAge es := by
  intro x x_mem y y_mem
  obtain ⟨x_time, x_order⟩ := tagged x x_mem
  obtain ⟨y_time, y_order⟩ := tagged y y_mem
  unfold byAge Element.lt
  by_cases same : x.when = y.when
  · have times : x.value.time = y.value.time := by rw [← x_time, same, y_time]
    rw [x_order, y_order, circularLt_near (near x x_mem y y_mem times) (near y y_mem x x_mem times.symm)]
    simp [same]
    omega
  · simp [same]
    omega

end History

section Removals
variable (empty : α → Bool)

/-- Culling removes empty entries. -/
theorem cullTop_removed (fuel : Nat) (h : TimerHeap α) :
    ∀ v ∈ (cullTop empty fuel h).2, empty v = true := by
  induction fuel generalizing h with
  | zero => exact List.forall_mem_nil _
  | succ fuel ih =>
      unfold cullTop
      split
      · exact List.forall_mem_nil _
      · split
        · rename_i v _ dead
          exact List.forall_mem_cons.mpr ⟨dead, ih h.pop⟩
        · exact List.forall_mem_nil _

theorem cullRandom_removed (fuel : Nat) (h : TimerHeap α) :
    ∀ v ∈ (cullRandom empty fuel h).2, empty v = true := by
  induction fuel generalizing h with
  | zero => exact List.forall_mem_nil _
  | succ fuel ih =>
      unfold cullRandom
      split
      · exact List.forall_mem_nil _
      · dsimp only
        generalize nextRand h.cullRand = rand
        generalize h.cullRand.toNat % h.es.size = pos
        split
        · exact List.forall_mem_nil _
        · split
          · rename_i dead
            exact List.forall_mem_cons.mpr ⟨dead, ih _⟩
          · exact List.forall_mem_nil _

theorem values_length (h : TimerHeap α) : h.values.length = h.es.size := by
  rw [values, List.length_map, Array.length_toList]

/-- What `emplace` leaves: old entries, and the new one with the next counter. -/
theorem emplace_spec (h : TimerHeap α) (time : Int) (v : α) :
    (∀ x ∈ (h.emplace empty time v).1.es, x ∈ h.es ∨ x = ⟨time, h.order + 1, v⟩) ∧
    (∀ w ∈ (h.emplace empty time v).2, empty w = true) ∧
    (h.emplace empty time v).1.order = h.order + 1 ∧
    (h.emplace empty time v).1.es.size ≤ h.es.size + 1 := by
  have removed := cullRandom_removed empty h.es.size h
  have : IsPreorder (Element α) fun _ _ => True :=
    { refl := fun _ => trivial, trans := fun _ _ _ _ _ => trivial }
  obtain ⟨_, sub, _, order⟩ : Shrunk (fun _ _ => True) h (cullRandom empty h.es.size h).1 :=
    cullRandom_shrunk empty h.es.size h
  refine ⟨fun x member => ?_, removed, ?_, ?_⟩
  · unfold emplace at member
    dsimp only at member
    rw [mem_siftUp, Array.mem_push, order] at member
    exact member.imp (sub x) id
  · unfold emplace
    dsimp only
    rw [order]
  · have kept := (emplace_values empty h time v).length_eq
    rw [List.length_cons, List.length_append, values_length, values_length] at kept
    omega

end Removals

namespace History

variable {s t : History α} {op : Op α} {ops : List (Op α)} {x y : Element (Entry α)} {e : Entry α}

/-- The capacities that `expand` makes. -/
def capacities : List Nat :=
  [0, 31, 127, 511, 2047, 8191, 32767, 131071, 524287, 2097151, 8388607, 33554431, 134217727,
    536870911, 2147483647, 4294967295]

theorem expand_capacity : ∀ c ∈ capacities, expand c ∈ capacities ∧ (c < 2 ^ 32 - 1 → c < expand c) := by
  decide

/-- What holds in every run. -/
structure Sound (s : History α) : Prop where
  tagged : ∀ x ∈ s.heap.es, Tagged x
  counter : s.heap.order = .ofNat 32 s.inserted.length
  numbered : s.inserted.map Entry.seq = List.range' 1 s.inserted.length
  conserved : s.inserted.Perm (s.heap.values ++ (s.popped ++ (s.cleared ++ s.culled)))
  empties : ∀ e ∈ s.culled, e.seq ∈ s.expired

/-- What holds in the runs that are bounded. -/
structure Kept (s : History α) : Prop extends Sound s where
  capacity : s.capacity ∈ capacities
  room : s.heap.es.size ≤ s.capacity
  times : Ordered byTime s.heap.es

theorem empty_expired (gone : s.empty e = true) : e.seq ∈ s.expired := by
  simpa [empty] using gone

/-- Where the entries are, in terms of multisets. -/
theorem conserved_iff : s.inserted.Perm (s.heap.values ++ (s.popped ++ (s.cleared ++ s.culled))) ↔
    (s.inserted : Multiset (Entry α)) =
      (s.heap.values : Multiset (Entry α)) + s.popped + s.cleared + s.culled := by
  rw [← Multiset.coe_eq_coe, ← Multiset.coe_add, ← Multiset.coe_add, ← Multiset.coe_add, add_assoc,
    add_assoc]

theorem emplace_sound (sound : s.Sound) (moved : step s (.emplace time v) = some t) : t.Sound := by
  cases Option.some.inj moved
  obtain ⟨entries, removed, order, _⟩ :=
    emplace_spec s.empty s.heap time ⟨s.inserted.length + 1, time, v⟩
  have next : s.heap.order + 1 = .ofNat 32 (s.inserted.length + 1) :=
    (congrArg (· + 1) sound.counter).trans (BitVec.ofNat_add s.inserted.length 1).symm
  constructor
  · intro x member
    rcases entries x member with old | rfl
    · exact sound.tagged x old
    · exact ⟨rfl, next⟩
  · simp only [List.length_append, List.length_singleton]
    rw [order, next]
  · simp only [List.map_append, List.length_append, List.length_singleton, List.map_singleton]
    rw [sound.numbered, List.range'_concat, Nat.one_mul, Nat.add_comm 1]
  · have held := Multiset.coe_eq_coe.mpr (emplace_values s.empty s.heap time ⟨s.inserted.length + 1, time, v⟩)
    have before := conserved_iff.mp sound.conserved
    rw [conserved_iff]
    simp only [← Multiset.coe_add, ← Multiset.cons_coe, ← Multiset.singleton_add] at held ⊢
    rw [before]
    simp only [Multiset.coe_nil, add_zero]
    generalize (s.heap.values : Multiset (Entry α)) = old at held ⊢
    rw [add_comm, ← add_assoc, ← add_assoc, ← add_assoc, held]
    abel
  · intro e member
    rcases List.mem_append.mp member with new | old
    · exact empty_expired (removed e new)
    · exact sound.empties e old

theorem pop_sound (sound : s.Sound) (moved : step s .pop = some t) : t.Sound := by
  simp only [step] at moved
  split at moved
  · rename_i e top
    cases Option.some.inj moved
    obtain ⟨x, here, rfl⟩ := Option.map_eq_some_iff.mp top
    have bound := (Array.getElem?_eq_some_iff.mp here).1
    have shrunk : Shrunk byTime s.heap _ := hardCull_shrunk s.heap bound
    have held := pop_values s.heap top
    constructor
    · exact fun x member => sound.tagged x (shrunk.sub x member)
    · exact shrunk.order.trans sound.counter
    · exact sound.numbered
    · have before := conserved_iff.mp sound.conserved
      rw [conserved_iff]
      rw [← Multiset.coe_eq_coe] at held
      simp only [← Multiset.cons_coe, ← Multiset.singleton_add] at held ⊢
      rw [before, held]
      abel
    · exact sound.empties
  · contradiction

theorem cull_sound (sound : s.Sound) (moved : step s .cull = some t) : t.Sound := by
  cases Option.some.inj moved
  have removed := cullTop_removed s.empty s.heap.es.size s.heap
  have shrunk : Shrunk byTime s.heap _ := cullTop_shrunk s.empty s.heap.es.size s.heap
  have held := cullTop_values s.empty s.heap.es.size s.heap
  constructor
  · exact fun x member => sound.tagged x (shrunk.sub x member)
  · exact shrunk.order.trans sound.counter
  · exact sound.numbered
  · have before := conserved_iff.mp sound.conserved
    rw [conserved_iff]
    rw [← Multiset.coe_eq_coe] at held
    simp only [← Multiset.coe_add] at held ⊢
    rw [before, held, cull]
    abel
  · intro e member
    rcases List.mem_append.mp member with new | old
    · exact empty_expired (removed e new)
    · exact sound.empties e old

theorem step_sound (sound : s.Sound) (moved : step s op = some t) : t.Sound := by
  cases op with
  | emplace time v => exact emplace_sound sound moved
  | pop => exact pop_sound sound moved
  | cull => exact cull_sound sound moved
  | clear =>
      cases Option.some.inj moved
      constructor
      · exact fun x member => absurd member (Array.not_mem_empty x)
      · exact sound.counter
      · exact sound.numbered
      · have before := conserved_iff.mp sound.conserved
        have none : (s.heap.clear.values : Multiset (Entry α)) = 0 := rfl
        rw [conserved_iff]
        simp only [← Multiset.coe_add, none]
        rw [before]
        abel
      · exact sound.empties
  | expire seq =>
      cases Option.some.inj moved
      exact ⟨sound.tagged, sound.counter, sound.numbered, sound.conserved,
        fun e member => List.mem_cons_of_mem _ (sound.empties e member)⟩

theorem initial_sound : ({} : History α).Sound where
  tagged x member := absurd member (Array.not_mem_empty x)
  counter := rfl
  numbered := rfl
  conserved := List.Perm.refl _
  empties := nofun

theorem empty_ordered (le : Element (Entry α) → Element (Entry α) → Prop) : Ordered le #[] := by
  intro i x y _ _ inside
  rw [Array.getElem?_empty] at inside
  contradiction

/-- A bounded step keeps every order that the comparison agrees with before and after. -/
theorem step_ordered {le : Element (Entry α) → Element (Entry α) → Prop} [IsPreorder _ le]
    (agrees : Agrees le s.heap.es) (agrees' : Agrees le t.heap.es) (bounded : s.Bounded op)
    (ordered : Ordered le s.heap.es) (moved : step s op = some t) : Ordered le t.heap.es := by
  cases op with
  | emplace time v =>
      cases Option.some.inj moved
      exact emplace_ordered agrees agrees' bounded.2 ordered
  | pop =>
      simp only [step] at moved
      split at moved
      · rename_i e top
        cases Option.some.inj moved
        obtain ⟨x, here, _⟩ := Option.map_eq_some_iff.mp top
        have inside := (Array.getElem?_eq_some_iff.mp here).1
        exact (hardCull_shrunk s.heap inside).ordered bounded ordered agrees
      · contradiction
  | cull =>
      cases Option.some.inj moved
      by_cases dead : ∃ e ∈ s.heap.top?, s.empty e = true
      · exact (cullTop_shrunk s.empty s.heap.es.size s.heap).ordered (bounded dead) ordered agrees
      · show Ordered le (cull s.empty s.heap).1.es
        rwa [cull, cullTop_fresh s.empty s.heap.es.size s.heap dead]
  | clear =>
      cases Option.some.inj moved
      exact empty_ordered le
  | expire seq =>
      cases Option.some.inj moved
      exact ordered

/-- The array is large enough after every bounded step. -/
theorem step_room (kept : s.Kept) (bounded : s.Bounded op) (moved : step s op = some t) :
    t.capacity ∈ capacities ∧ t.heap.es.size ≤ t.capacity := by
  have capacity := kept.capacity
  have room := kept.room
  cases op with
  | emplace time v =>
      cases Option.some.inj moved
      obtain ⟨_, _, _, size⟩ := emplace_spec s.empty s.heap time ⟨s.inserted.length + 1, time, v⟩
      obtain ⟨again, larger⟩ := expand_capacity _ capacity
      have below := bounded.1
      simp only
      split
      · have larger := larger (by omega)
        exact ⟨again, by omega⟩
      · exact ⟨capacity, by omega⟩
  | pop =>
      simp only [step] at moved
      split at moved
      · rename_i e top
        cases Option.some.inj moved
        have less := (pop_values s.heap top).length_eq
        rw [List.length_cons, values_length, values_length] at less
        exact ⟨capacity, by simp only; omega⟩
      · contradiction
  | cull =>
      cases Option.some.inj moved
      have less := (cullTop_values s.empty s.heap.es.size s.heap).length_eq
      rw [List.length_append, values_length, values_length] at less
      exact ⟨capacity, by simp only [cull]; omega⟩
  | clear =>
      cases Option.some.inj moved
      exact ⟨capacity, Nat.zero_le _⟩
  | expire seq =>
      cases Option.some.inj moved
      exact ⟨capacity, room⟩

theorem step_kept (kept : s.Kept) (bounded : s.Bounded op) (moved : step s op = some t) : t.Kept where
  toSound := step_sound kept.toSound moved
  capacity := (step_room kept bounded moved).1
  room := (step_room kept bounded moved).2
  times := step_ordered (byTime_agrees _) (byTime_agrees _) bounded kept.times moved

theorem initial_kept : ({} : History α).Kept where
  toSound := initial_sound
  capacity := List.mem_cons_self
  room := Nat.le_refl 0
  times := empty_ordered byTime

theorem mem_values {h : TimerHeap (Entry α)} (member : x ∈ h.es) : x.value ∈ h.values :=
  List.mem_map_of_mem (Array.mem_toList_iff.mpr member)

theorem Sound.agrees (sound : s.Sound) (near : s.Near) : Agrees byAge s.heap.es :=
  byAge_agrees sound.tagged fun _ first _ second => near _ (mem_values first) _ (mem_values second)

/-- As long as equal deadlines are near each other, the heap is ordered by age. -/
theorem step_aged (both : s.Kept ∧ Ordered byAge s.heap.es) (near : s.Near) (near' : t.Near)
    (bounded : s.Bounded op) (moved : step s op = some t) : t.Kept ∧ Ordered byAge t.heap.es := by
  obtain ⟨kept, aged⟩ := both
  have kept' := step_kept kept bounded moved
  exact ⟨kept', step_ordered (kept.agrees near) (kept'.agrees near') bounded aged moved⟩

theorem value_at (member : e ∈ s.heap.values) : ∃ (x : Element (Entry α)) (i : Nat),
    s.heap.es[i]? = some x ∧ x ∈ s.heap.es ∧ x.value = e := by
  obtain ⟨x, inside, same⟩ := List.mem_map.mp member
  have here := Array.mem_toList_iff.mp inside
  obtain ⟨i, at_i⟩ := Array.getElem?_of_mem here
  exact ⟨x, i, at_i, here, same⟩

/-- The time at the top is the least deadline. -/
theorem topTime_least (kept : s.Kept) (time : Int) :
    s.heap.topTime? = some time ↔
      (∃ e ∈ s.heap.values, e.time = time) ∧ ∀ e ∈ s.heap.values, time ≤ e.time := by
  have least : ∀ x, s.heap.es[0]? = some x → ∀ e ∈ s.heap.values, x.when ≤ e.time := by
    intro x top e member
    obtain ⟨y, i, at_i, inside, rfl⟩ := value_at member
    have le : x.when ≤ y.when := top_le kept.times top at_i
    rwa [(kept.tagged y inside).1] at le
  constructor
  · intro top
    obtain ⟨x, here, rfl⟩ := Option.map_eq_some_iff.mp top
    have inside := Array.mem_of_getElem? here
    exact ⟨⟨x.value, mem_values inside, (kept.tagged x inside).1.symm⟩, least x here⟩
  · rintro ⟨⟨e, member, rfl⟩, below⟩
    obtain ⟨y, i, at_i, inside, rfl⟩ := value_at member
    have bound := (Array.getElem?_eq_some_iff.mp at_i).1
    obtain ⟨x, here⟩ : ∃ x, s.heap.es[0]? = some x :=
      ⟨_, Array.getElem?_eq_getElem (Nat.lt_of_le_of_lt (Nat.zero_le i) bound)⟩
    have top := Array.mem_of_getElem? here
    have lower := below x.value (mem_values top)
    have upper := least x here y.value member
    rw [(kept.tagged x top).1] at upper
    rw [topTime?, here, Option.map_some, (kept.tagged x top).1, Int.le_antisymm upper lower]

/-- The heap holds what was inserted and neither popped, cleared nor removed while empty; its
top time is the least deadline, and its top the first inserted entry with that deadline as
long as entries with the same deadline are near each other: in every bounded run. -/
theorem stable_priority_queue (path : Reaches step {} ops s) (bounded : Meets step Bounded {} ops) :
    s.inserted.map Entry.seq = List.range' 1 s.inserted.length ∧
    s.inserted.Perm (s.heap.values ++ (s.popped ++ (s.cleared ++ s.culled))) ∧
    (∀ e ∈ s.culled, e.seq ∈ s.expired) ∧
    s.heap.es.size ≤ s.capacity ∧
    (∀ time, s.heap.topTime? = some time ↔
      (∃ e ∈ s.heap.values, e.time = time) ∧ ∀ e ∈ s.heap.values, time ≤ e.time) ∧
    (∀ e ∈ s.heap.top?, e ∈ s.heap.values ∧ s.heap.topTime? = some e.time) ∧
    (Always step Near {} ops → ∀ e ∈ s.heap.top?, ∀ other ∈ s.heap.values,
      other.time = e.time → e.seq ≤ other.seq) := by
  have kept : s.Kept := path.guarded step_kept bounded initial_kept
  refine ⟨kept.numbered, kept.conserved, kept.empties, kept.room, topTime_least kept, ?_, ?_⟩
  · intro e top
    obtain ⟨x, here, rfl⟩ := Option.map_eq_some_iff.mp top
    have inside := Array.mem_of_getElem? here
    refine ⟨mem_values inside, ?_⟩
    rw [topTime?, here, Option.map_some, (kept.tagged x inside).1]
  · intro near e top other member same
    have aged : Ordered byAge s.heap.es :=
      (path.guardedWithin step_aged bounded near ⟨initial_kept, empty_ordered byAge⟩).2
    obtain ⟨x, here, rfl⟩ := Option.map_eq_some_iff.mp top
    obtain ⟨y, i, at_i, inside, rfl⟩ := value_at member
    rcases top_le aged here at_i with less | ⟨_, older⟩
    · rw [(kept.tagged x (Array.mem_of_getElem? here)).1, (kept.tagged y inside).1, same] at less
      exact absurd less (Int.lt_irrefl _)
    · exact older

/-- Two timers with the same deadline, one before them that has become empty, and one after. -/
theorem stable_priority_queue_mixed :
    let ops : List (Op Nat) := [.emplace 5 10, .emplace 7 11, .emplace 3 12, .emplace 5 13, .expire 3,
      .cull, .pop]
    ∃ s, Reaches step {} ops s ∧ s.heap.top? = some ⟨4, 5, 13⟩ ∧ s.popped = [⟨1, 5, 10⟩] ∧
      s.culled = [⟨3, 3, 12⟩] ∧ s.heap.topTime? = some 5 ∧
      (∀ e ∈ s.heap.values, 5 ≤ e.time) ∧
      ∀ other ∈ s.heap.values, other.time = 5 → 4 ≤ other.seq := by
  intro ops
  have path : Reaches step {} ops _ := run_iff_reaches.mp rfl
  obtain ⟨_, _, _, _, least, _, oldest⟩ := stable_priority_queue path (by decide)
  refine ⟨_, path, by decide, by decide, by decide, by decide, ((least 5).mp (by decide)).2, ?_⟩
  exact oldest (by decide) ⟨4, 5, 13⟩ (by decide)

/-! A heap from which entries are removed while it is too large. -/

section Crowd

/-- Timers with the deadlines from 1 to `n`. -/
def climb (n : Nat) : List (Op Unit) := (List.range n).map fun (i : Nat) => .emplace (i + 1) ()

/-- The entry that `climb` puts at a position. -/
def rung (i : Nat) : Element (Entry Unit) := ⟨i + 1, .ofNat 32 (i + 1), ⟨i + 1, i + 1, ()⟩⟩

theorem rung_lt (i j : Nat) : (rung i).lt (rung j) = decide (i < j) := by
  rw [Element.lt, rung, rung, Bool.eq_iff_iff]
  simp only [Bool.or_eq_true, Bool.and_eq_true, decide_eq_true_eq, beq_iff_eq]
  constructor
  · rintro (less | ⟨same, less⟩)
    · omega
    · obtain rfl : i = j := by omega
      simp [circularLt] at less
  · intro less
    exact .inl (by omega)

variable {es : Array (Element (Entry Unit))} {f : Nat → Nat}

/-- The positions below `n` hold these rungs. -/
structure Places (es : Array (Element (Entry Unit))) (n : Nat) (f : Nat → Nat) : Prop where
  size : es.size = n
  held : ∀ i < n, es[i]? = some (rung (f i))

theorem Places.before (places : Places es n f) (first : i < n)
    (second : j < n) : TimerHeap.before es i j = decide (f i < f j) := by
  rw [before_some (places.held i first) (places.held j second), rung_lt]

structure Climbed (n : Nat) (s : History Unit) : Prop where
  places : Places s.heap.es n id
  order : s.heap.order = .ofNat 32 n
  inserted : s.inserted.length = n
  expired : s.expired = []

theorem climbed_emplace {s : History Unit} (climbed : Climbed n s) :
    ∃ t, step s (.emplace (n + 1) ()) = some t ∧ Climbed (n + 1) t := by
  obtain ⟨⟨size, held⟩, order, inserted, expired⟩ := climbed
  refine ⟨_, rfl, ?_⟩
  have lives : s.empty = fun _ => false := by
    funext e
    simp [empty, expired]
  have fresh : ¬s.heap.Stale s.empty := by
    rintro ⟨_, x, _, dead⟩
    rw [lives] at dead
    contradiction
  have es := cullRandom_fresh s.empty s.heap.es.size s.heap fresh
  have shrunk : Shrunk byTime s.heap (cullRandom s.empty s.heap.es.size s.heap).1 := cullRandom_shrunk ..
  have counter := shrunk.order
  have pushed : Places (s.heap.es.push (rung n)) (n + 1) id := by
    refine ⟨by rw [Array.size_push, size], fun i bound => ?_⟩
    rw [Array.getElem?_push, size]
    split
    · subst i
      rfl
    · exact held i (by omega)
  have next : s.heap.order + 1 = .ofNat 32 (n + 1) := by
    rw [order]
    exact (BitVec.ofNat_add n 1).symm
  have stays : siftUp (n + 1) n (s.heap.es.push (rung n)) = s.heap.es.push (rung n) := by
    rw [siftUp]
    refine if_neg fun higher => ?_
    obtain ⟨positive, less⟩ := higher
    have above := parent_lt (Nat.pos_of_ne_zero positive)
    rw [pushed.before (Nat.lt_succ_self n) (by omega)] at less
    exact absurd (of_decide_eq_true less) (by simp only [id]; omega)
  have after : (s.heap.emplace s.empty (n + 1) ⟨s.inserted.length + 1, n + 1, ()⟩).1.es =
      s.heap.es.push (rung n) := by
    unfold emplace
    dsimp only
    rw [es, counter, next, inserted]
    show siftUp (s.heap.es.push (rung n)).size ((s.heap.es.push (rung n)).size - 1) _ = _
    rw [Array.size_push, size]
    exact stays
  constructor
  · dsimp only
    rw [after]
    exact pushed
  · unfold emplace
    dsimp only
    rw [counter, next]
  · dsimp only
    rw [List.length_append, inserted, List.length_singleton]
  · exact expired

/-- More timers than there are positions whose children do not wrap, and one goes off. -/
def crowd : List (Op Unit) := climb (2 ^ 30 + 2) ++ [.pop]

theorem climbed (n : Nat) : ∃ s, Reaches step {} (climb n) s ∧ Climbed n s := by
  induction n with
  | zero => exact ⟨{}, .refl _, ⟨rfl, fun i bound => absurd bound (Nat.not_lt_zero i)⟩, rfl, rfl, rfl⟩
  | succ n ih =>
      obtain ⟨s, path, climbed⟩ := ih
      obtain ⟨t, moved, climbed'⟩ := climbed_emplace climbed
      refine ⟨t, ?_, climbed'⟩
      rw [climb, List.range_succ, List.map_append]
      exact path.trans (.next moved (.refl t))

/-- The number of entries in the heap once the first one is removed. -/
def rest : Nat := 2 ^ 30 + 1

theorem foldl_first (ts : List Nat) (rest : ∀ t ∈ ts, TimerHeap.before es t c = false) :
    ts.foldl (fun best t => if TimerHeap.before es t best then t else best) c = c := by
  induction ts with
  | nil => rfl
  | cons t ts ih =>
      obtain ⟨here, rest⟩ := List.forall_mem_cons.mp rest
      rw [List.foldl_cons, here]
      exact ih rest

/-- A first child that comes before its siblings. -/
theorem smallest_first (child : heapFirstChild pos = c) (there : c < heapLastChild es.size pos)
    (first : TimerHeap.before es c pos = true)
    (rest : ∀ t, c < t → t < heapLastChild es.size pos → TimerHeap.before es t c = false) :
    smallest es pos = c := by
  obtain ⟨n, count⟩ : ∃ n, heapLastChild es.size pos - c = n + 1 :=
    ⟨heapLastChild es.size pos - c - 1, by omega⟩
  rw [smallest, child, count, List.range'_succ, List.foldl_cons, if_pos first]
  refine foldl_first _ fun t member => ?_
  have range := List.mem_range'_1.mp member
  exact rest t (by omega) (by omega)

/-- A step of the sift. -/
theorem Places.down (places : Places es n f) (here : pos < n) (there : c < n)
    (least : smallest es pos = c) (other : c ≠ pos) :
    ∃ es', (∀ fuel, siftDown (fuel + 1) pos es = siftDown fuel c es') ∧
      Places es' n fun i => if i = pos then f c else if i = c then f pos else f i := by
  refine ⟨es.swapIfInBounds pos c, fun fuel => ?_, ?_, fun i bound => ?_⟩
  · rw [siftDown, least, if_neg other]
  · rw [Array.size_swapIfInBounds, places.size]
  · rw [getElem?_swap (places.size ▸ here) (places.size ▸ there), places.held c there, places.held pos here,
      places.held i bound]
    split
    · rfl
    · split <;> rfl

/-- The sift on its way down the powers of 4. -/
structure Falling (k : Nat) (f : Nat → Nat) : Prop where
  here : f (4 ^ k) = rest
  below : ∀ i, 4 ^ k < i → f i = i
  top : f 0 = 1
  left : 4 ≤ f 1
  second : f 2 = 2
  third : f 3 = 3

theorem falling (k : Nat) (small : k ≤ 15) (places : Places es rest f) (start : Falling 0 f) :
    ∃ es' f', (∀ fuel, siftDown (fuel + k) 1 es = siftDown fuel (4 ^ k) es') ∧ Places es' rest f' ∧
      Falling k f' := by
  induction k with
  | zero => exact ⟨es, f, fun _ => rfl, places, start⟩
  | succ k ih =>
      obtain ⟨es', f', sifts, places', falls⟩ := ih (by omega)
      have power : 4 ^ (k + 1) = 4 ^ k * 4 := Nat.pow_succ 4 k
      have positive : 0 < 4 ^ k := Nat.pow_pos (by decide)
      have high : 4 ^ (k + 1) ≤ 2 ^ 30 := Nat.pow_le_pow_right (n := 4) (by decide) small
      have inside : 4 ^ (k + 1) < rest := Nat.lt_succ_of_le high
      have child : heapFirstChild (4 ^ k) = 4 ^ (k + 1) := by
        rw [heapFirstChild, if_neg (by omega), arity]
        omega
      have last : heapLastChild es'.size (4 ^ k) = min (4 ^ (k + 1) + 4) rest := by
        rw [heapLastChild, places'.size, arity, power]
        omega
      have least : smallest es' (4 ^ k) = 4 ^ (k + 1) := by
        apply smallest_first child
        · rw [last]
          omega
        · rw [places'.before inside (by omega), falls.here, falls.below _ (by omega)]
          exact decide_eq_true inside
        · intro t after bound
          rw [last] at bound
          rw [places'.before (by omega) inside, falls.below t (by omega), falls.below _ (by omega)]
          exact decide_eq_false (by omega)
      obtain ⟨es'', sift, places''⟩ := places'.down (by omega) inside least (by omega)
      refine ⟨es'', _, fun fuel => ?_, places'', ?_⟩
      · rw [← sift fuel, ← sifts (fuel + 1)]
        congr 1
        omega
      · have four : 4 ≤ 4 ^ (k + 1) := by omega
        constructor
        · simp only [if_neg (show 4 ^ (k + 1) ≠ 4 ^ k by omega), if_true, falls.here]
        · intro i after
          simp only [if_neg (show i ≠ 4 ^ k by omega), if_neg (show i ≠ 4 ^ (k + 1) by omega)]
          exact falls.below i (by omega)
        · simp only [if_neg (show 0 ≠ 4 ^ k by omega), if_neg (show 0 ≠ 4 ^ (k + 1) by omega), falls.top]
        · by_cases first : 1 = 4 ^ k
          · simp only [if_pos first]
            rw [falls.below _ (by omega)]
            exact four
          · simp only [if_neg first, if_neg (show 1 ≠ 4 ^ (k + 1) by omega)]
            exact falls.left
        · have other : 2 ≠ 4 ^ k := by
            intro same
            cases k <;> omega
          simp only [if_neg other, if_neg (show 2 ≠ 4 ^ (k + 1) by omega), falls.second]
        · have other : 3 ≠ 4 ^ k := by
            intro same
            cases k <;> omega
          simp only [if_neg other, if_neg (show 3 ≠ 4 ^ (k + 1) by omega), falls.third]

theorem smallest_mem (es : Array (Element (Entry Unit))) (pos : Nat) : smallest es pos = pos ∨
    smallest es pos ∈
      List.range' (heapFirstChild pos) (heapLastChild es.size pos - heapFirstChild pos) := by
  rw [smallest]
  generalize List.range' _ _ = ts
  suffices ∀ best, ts.foldl (fun best t => if TimerHeap.before es t best then t else best) best = best ∨
      ts.foldl (fun best t => if TimerHeap.before es t best then t else best) best ∈ ts from this pos
  induction ts with
  | nil => exact fun _ => .inl rfl
  | cons t ts ih =>
      intro best
      rw [List.foldl_cons]
      split
      · rcases ih t with same | later
        · rw [same]
          exact .inr List.mem_cons_self
        · exact .inr (List.mem_cons_of_mem t later)
      · exact (ih best).imp id (List.mem_cons_of_mem t)

/-- No position between 2 * 4 ^ j and 3 * 4 ^ j is 4 ^ 15. -/
theorem between_powers : ¬(2 * 4 ^ j ≤ 2 ^ 30 ∧ 2 ^ 30 < 3 * 4 ^ j) := by
  rintro ⟨low, high⟩
  rcases Nat.lt_or_ge j 15 with less | more
  · have := Nat.pow_le_pow_right (n := 4) (by decide) (Nat.le_of_lt_succ less)
    omega
  · have := Nat.pow_le_pow_right (n := 4) (by decide) more
    omega

/-- What is sifted down from position 2 stays below it. -/
theorem siftDown_below (fuel : Nat) (size : es.size = rest) (bound : pos < rest)
    (below : 2 * 4 ^ j ≤ pos ∧ pos < 3 * 4 ^ j) (fixed : i = 0 ∨ i = 2 ^ 30) :
    (siftDown fuel pos es)[i]? = es[i]? := by
  induction fuel generalizing pos j es with
  | zero => rfl
  | succ fuel ih =>
      have power : 4 ^ (j + 1) = 4 ^ j * 4 := Nat.pow_succ 4 j
      have positive : 0 < 4 ^ j := Nat.pow_pos (by decide)
      have apart : pos ≠ 2 ^ 30 := by
        rintro rfl
        exact between_powers below
      have inner : pos < 2 ^ 30 := Nat.lt_of_le_of_ne (Nat.le_of_lt_succ bound) apart
      rw [siftDown]
      split
      · rfl
      · rename_i other
        have child := (smallest_mem es pos).resolve_left other
        rw [List.mem_range'_1, heapFirstChild, if_neg (by omega), heapLastChild, size, arity] at child
        generalize smallest es pos = c at *
        have there : c < rest := by omega
        rw [ih (j := j + 1) (by rw [Array.size_swapIfInBounds, size]) there (by omega),
          getElem?_swap (by omega) (by omega), if_neg (by omega), if_neg]
        rintro rfl
        rcases fixed with rfl | rfl
        · omega
        · have after : 2 * 4 ^ (j + 1) ≤ 2 ^ 30 ∧ 2 ^ 30 < 3 * 4 ^ (j + 1) := by omega
          exact between_powers after

/-- The children of the top, and those that position 2 ^ 30 has instead of its own. -/
theorem crowd_children (places : Places es rest f) :
    heapLastChild es.size 0 = 4 ∧ heapLastChild es.size (2 ^ 30) = 4 := by
  rw [places.size]
  decide

/-- From position 2 ^ 30 the sift is back at the top. -/
theorem Falling.back (falls : Falling 15 f) (places : Places es rest f) : smallest es (2 ^ 30) = 0 := by
  have zero : 0 < rest := by decide
  have high : 2 ^ 30 < rest := by decide
  have power : (4 : Nat) ^ 15 = 2 ^ 30 := by decide
  have here : f (2 ^ 30) = rest := power ▸ falls.here
  apply smallest_first (by decide)
  · rw [(crowd_children places).2]
    decide
  · rw [places.before zero high, here, falls.top]
    exact decide_eq_true (by decide)
  · intro t after bound
    rw [(crowd_children places).2] at bound
    have three : t = 1 ∨ t = 2 ∨ t = 3 := by omega
    have left := falls.left
    rw [places.before (by omega) zero, falls.top]
    refine decide_eq_false ?_
    rcases three with rfl | rfl | rfl
    · omega
    · rw [falls.second]
      decide
    · rw [falls.third]
      decide

/-- From there it goes on to position 2. -/
theorem Falling.again (falls : Falling 15 f)
    (places : Places es rest fun i => if i = 2 ^ 30 then f 0 else if i = 0 then f (2 ^ 30) else f i) :
    smallest es 0 = 2 := by
  have two : 2 < rest := by decide
  have power : (4 : Nat) ^ 15 = 2 ^ 30 := by decide
  have here : f (2 ^ 30) = rest := power ▸ falls.here
  have left := falls.left
  have top : TimerHeap.before es 2 0 = true := by
    rw [places.before two (by decide)]
    simp only [if_neg (show 2 ≠ 2 ^ 30 by decide), if_neg (show 0 ≠ 2 ^ 30 by decide), reduceIte, here,
      falls.second]
    decide
  have sibling : TimerHeap.before es 2 1 = true := by
    rw [places.before two (by decide)]
    simp only [if_neg (show 2 ≠ 2 ^ 30 by decide), if_neg (show 1 ≠ 2 ^ 30 by decide),
      if_neg (show 2 ≠ 0 by decide), if_neg (show 1 ≠ 0 by decide), falls.second]
    exact decide_eq_true (by omega)
  have third : TimerHeap.before es 3 2 = false := by
    rw [places.before (by decide) two]
    simp only [if_neg (show 2 ≠ 2 ^ 30 by decide), if_neg (show 3 ≠ 2 ^ 30 by decide),
      if_neg (show 2 ≠ 0 by decide), if_neg (show 3 ≠ 0 by decide), falls.second, falls.third]
    decide
  rw [smallest, (crowd_children places).1]
  show List.foldl _ 0 [1, 2, 3] = 2
  simp only [List.foldl_cons, List.foldl_nil]
  by_cases less : TimerHeap.before es 1 0 = true
  · simp [less, sibling, third]
  · simp [less, top, third]

/-- The sift from the top goes down to position 2 ^ 30, whose child is the top again. -/
theorem crowd_sift (places : Places es rest fun i => if i = 0 then rest else i) :
    (siftDown es.size 0 es)[0]? = some (rung 2) ∧ (siftDown es.size 0 es)[2 ^ 30]? = some (rung 1) := by
  have zero : 0 < rest := by decide
  have two : 2 < rest := by decide
  have high : 2 ^ 30 < rest := by decide
  obtain ⟨fuel, enough⟩ : ∃ fuel, es.size = fuel + 2 + 15 + 1 := ⟨es.size - 18, by
    rw [places.size]
    decide⟩
  -- from the top to position 1
  have first : smallest es 0 = 1 := by
    refine smallest_first (c := 1) rfl ?_ ?_ ?_
    · rw [(crowd_children places).1]
      decide
    · rw [places.before (by decide) zero]
      exact decide_eq_true (by decide)
    · intro t after bound
      rw [(crowd_children places).1] at bound
      rw [places.before (by omega) (by decide)]
      refine decide_eq_false ?_
      simp only [if_neg (show t ≠ 0 by omega), if_neg (show 1 ≠ 0 by decide)]
      omega
  obtain ⟨es₁, sift₁, places₁⟩ := places.down zero (by decide) first (by decide)
  -- through the powers of 4
  obtain ⟨es₂, f₂, sift₂, places₂, falls⟩ := falling 15 (Nat.le_refl 15) places₁ (by
    constructor
    · rfl
    · intro i after
      have after : 1 < i := after
      simp only [if_neg (show i ≠ 0 by omega), if_neg (show i ≠ 1 by omega)]
    · rfl
    · decide
    · rfl
    · rfl)
  have power : (4 : Nat) ^ 15 = 2 ^ 30 := by decide
  rw [power] at sift₂
  obtain ⟨es₃, sift₃, places₃⟩ := places₂.down high zero (falls.back places₂) (by decide)
  obtain ⟨es₄, sift₄, places₄⟩ := places₃.down zero two (falls.again places₃) (by decide)
  have whole : siftDown es.size 0 es = siftDown fuel 2 es₄ := by
    rw [enough, sift₁, sift₂, sift₃, sift₄]
  have stays := fun i fixed => siftDown_below (i := i) (j := 0) fuel places₄.size two (by decide) fixed
  rw [whole, stays 0 (.inl rfl), stays (2 ^ 30) (.inr rfl), places₄.held 0 zero, places₄.held (2 ^ 30) high]
  constructor
  · simp only [if_neg (show 2 ≠ 2 ^ 30 by decide), if_neg (show 2 ≠ 0 by decide), if_true, falls.second]
  · simp only [if_neg (show 2 ^ 30 ≠ 0 by decide), if_neg (show 2 ^ 30 ≠ 2 by decide), if_true, falls.top]

/-- The least entry is passed over: its new position has the top as a child. -/
theorem crowd_loses_least : ∃ s, Reaches step {} crowd s ∧ s.heap.topTime? = some 3 ∧
    ⟨2, 2, ()⟩ ∈ s.heap.values := by
  obtain ⟨s, path, climbed⟩ := climbed (rest + 1)
  obtain ⟨size, held⟩ := climbed.places
  have top : s.heap.top? = some (rung 0).value := by
    rw [top?, held 0 (Nat.succ_pos rest)]
    rfl
  have moved : step s .pop = some { s with heap := s.heap.pop, popped := (rung 0).value :: s.popped } := by
    simp only [step, top]
  have replaced : Places (s.heap.es.swapIfInBounds (s.heap.es.size - 1) 0).pop rest
      fun i => if i = 0 then rest else i := by
    refine ⟨?_, fun i bound => ?_⟩
    · rw [Array.size_pop, Array.size_swapIfInBounds, size, Nat.add_sub_cancel]
    · rw [getElem?_replaced (by rw [size, rest]; decide), size, Nat.add_sub_cancel,
        if_neg (Nat.ne_of_lt bound)]
      split
      · exact held rest (Nat.lt_succ_self rest)
      · exact held i (Nat.lt_succ_of_lt bound)
  have sifted : s.heap.pop.es = siftDown (s.heap.es.swapIfInBounds (s.heap.es.size - 1) 0).pop.size 0
      (s.heap.es.swapIfInBounds (s.heap.es.size - 1) 0).pop := by
    rw [pop, hardCull, if_neg (by rw [size, rest]; decide)]
    simp
  obtain ⟨first, second⟩ := crowd_sift replaced
  rw [← sifted] at first second
  refine ⟨_, path.trans (.next moved (.refl _)), ?_, ?_⟩
  · rw [topTime?, first]
    rfl
  · exact mem_values (x := rung 1) (Array.mem_of_getElem? second)

end Crowd

end History
end Cotamer.TimerHeap

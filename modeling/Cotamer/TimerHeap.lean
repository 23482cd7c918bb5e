import Mathlib.Algebra.Group.Nat.Defs
import Mathlib.Data.List.Basic
import Mathlib.Data.List.Perm.Basic

/-! The timer heap: a heap of arity 4 in an array. Entries with the same
deadline are ordered by a wrapping insertion counter. Positions are unsigned
32-bit numbers, so that those of children can wrap. Every operation reports
the values it destroys. -/
namespace Cotamer

structure TimerHeap.Element (α : Type) where
  when : Int
  order : BitVec 32
  value : α
  deriving DecidableEq, Repr

/-- `es_`, with `size_` its length, and the counters `order_` and `cull_rand_`. -/
structure TimerHeap (α : Type) where
  es : Array (TimerHeap.Element α) := #[]
  order : BitVec 32 := 0
  cullRand : BitVec 32 := 8173
  deriving Repr

namespace TimerHeap
variable {α : Type}

/-- `circular_int::operator<` -/
def circularLt (a b : BitVec 32) : Bool := a != b && (a - b).msb

def Element.lt (x y : Element α) : Bool :=
  x.when < y.when || x.when == y.when && circularLt x.order y.order

/-- `es_[i] < es_[j]` -/
def before (es : Array (Element α)) (i j : Nat) : Bool :=
  match es[i]?, es[j]? with
  | some x, some y => x.lt y
  | _, _ => false

def arity : Nat := 4
def heapParent (i : Nat) : Nat := i / arity
def heapFirstChild (i : Nat) : Nat := (i * arity + if i = 0 then 1 else 0) % 2 ^ 32
def heapLastChild (size i : Nat) : Nat := min ((i * arity + arity) % 2 ^ 32) size

/-- Move the entry at `pos` up; `fuel` is at least its depth. -/
def siftUp : Nat → Nat → Array (Element α) → Array (Element α)
  | 0, _, es => es
  | fuel + 1, pos, es =>
    if pos ≠ 0 ∧ before es pos (heapParent pos) then
      siftUp fuel (heapParent pos) (es.swapIfInBounds pos (heapParent pos))
    else es

/-- The least of the entry at `pos` and its children. -/
def smallest (es : Array (Element α)) (pos : Nat) : Nat :=
  (List.range' (heapFirstChild pos) (heapLastChild es.size pos - heapFirstChild pos)).foldl
    (fun best t => if before es t best then t else best) pos

/-- Move the entry at `pos` down. In a heap whose positions have no children
that wrap, `fuel` is at least the height below the entry. -/
def siftDown : Nat → Nat → Array (Element α) → Array (Element α)
  | 0, _, es => es
  | fuel + 1, pos, es =>
    if smallest es pos = pos then es
    else siftDown fuel (smallest es pos) (es.swapIfInBounds pos (smallest es pos))

/-- `hard_cull`: the last entry takes the place of the one removed. -/
def hardCull (h : TimerHeap α) (pos : Nat) : TimerHeap α :=
  if pos + 1 = h.es.size then { h with es := h.es.pop }
  else
    let es := (h.es.swapIfInBounds (h.es.size - 1) pos).pop
    if pos = 0 ∨ !before es pos (heapParent pos) then { h with es := siftDown es.size pos es }
    else { h with es := siftUp es.size pos es }

def isEmpty (h : TimerHeap α) : Bool := h.es.size == 0
def topTime? (h : TimerHeap α) : Option Int := h.es[0]?.map Element.when
def top? (h : TimerHeap α) : Option α := h.es[0]?.map Element.value
def pop (h : TimerHeap α) : TimerHeap α := h.hardCull 0

/-- The values held, in the order of the array. -/
def values (h : TimerHeap α) : List α := h.es.toList.map Element.value

section Empty
variable (empty : α → Bool)

/-- `cull`: remove empty entries from the top. -/
def cullTop : Nat → TimerHeap α → TimerHeap α × List α
  | 0, h => (h, [])
  | fuel + 1, h =>
    match h.top? with
    | none => (h, [])
    | some v =>
      if empty v then
        let r := cullTop fuel h.pop
        (r.1, v :: r.2)
      else (h, [])

def cull (h : TimerHeap α) : TimerHeap α × List α := cullTop empty h.es.size h

/-- The step of the random generator `cull_rand_`. -/
def nextRand (rand : BitVec 32) : BitVec 32 := rand * 1664525#32 + 1013904223#32

/-- The first loop of `emplace`: while the heap is largish, look at a random
entry and remove it if it is empty. -/
def cullRandom : Nat → TimerHeap α → TimerHeap α × List α
  | 0, h => (h, [])
  | fuel + 1, h =>
    if h.es.size < 32 then (h, [])
    else
      let pos := h.cullRand.toNat % h.es.size
      let h := { h with cullRand := nextRand h.cullRand }
      match h.es[pos]? with
      | none => (h, [])
      | some x =>
        if empty x.value then
          let r := cullRandom fuel (h.hardCull pos)
          (r.1, x.value :: r.2)
        else (h, [])

def emplace (h : TimerHeap α) (when : Int) (value : α) : TimerHeap α × List α :=
  let r := cullRandom empty h.es.size h
  let es := r.1.es.push ⟨when, r.1.order + 1, value⟩
  ({ r.1 with es := siftUp es.size (es.size - 1) es, order := r.1.order + 1 }, r.2)

end Empty

/-! No operation loses or duplicates a value. -/

theorem swapIfInBounds_perm (es : Array (Element α)) (i j : Nat) :
    (es.swapIfInBounds i j).toList.Perm es.toList := by
  unfold Array.swapIfInBounds
  split
  · split
    · exact (Array.swap_perm _ _).toList
    · exact List.Perm.refl _
  · exact List.Perm.refl _

theorem siftUp_perm (fuel pos : Nat) (es : Array (Element α)) :
    (siftUp fuel pos es).toList.Perm es.toList := by
  induction fuel generalizing pos es with
  | zero => exact List.Perm.refl _
  | succ fuel ih =>
      unfold siftUp
      split
      · exact (ih _ _).trans (swapIfInBounds_perm _ _ _)
      · exact List.Perm.refl _

theorem siftDown_perm (fuel pos : Nat) (es : Array (Element α)) :
    (siftDown fuel pos es).toList.Perm es.toList := by
  induction fuel generalizing pos es with
  | zero => exact List.Perm.refl _
  | succ fuel ih =>
      unfold siftDown
      split
      · exact List.Perm.refl _
      · exact (ih _ _).trans (swapIfInBounds_perm _ _ _)

theorem pop_perm (es : Array (Element α)) (bound : pos + 1 = es.size) :
    es.toList.Perm (es[pos] :: es.pop.toList) := by
  have length : es.toList.length = pos + 1 := by simp [bound]
  have nonempty : es.toList ≠ [] := List.ne_nil_of_length_eq_add_one length
  have whole : es.pop.toList ++ [es[pos]] = es.toList := by
    rw [Array.toList_pop, ← List.dropLast_append_getLast nonempty]
    simp [List.getLast_eq_getElem, ← bound]
  rw [← whole]
  exact List.perm_append_singleton _ _

theorem swap_last (es : Array (Element α)) (pos : Nat) (bound : pos < es.size) :
    es.toList.Perm (es[pos] :: (es.swapIfInBounds (es.size - 1) pos).pop.toList) := by
  have last : es.size - 1 < es.size := by omega
  have whole : es.size - 1 + 1 = (es.swapIfInBounds (es.size - 1) pos).size := by
    simp
    omega
  have popped := pop_perm (es.swapIfInBounds (es.size - 1) pos) whole
  have inside : es.size - 1 < (es.swapIfInBounds (es.size - 1) pos).size := by
    simp
    omega
  have back : (es.swapIfInBounds (es.size - 1) pos)[es.size - 1] = es[pos] := by
    simp [Array.swapIfInBounds, last, bound]
  rw [back] at popped
  exact (swapIfInBounds_perm es _ _).symm.trans popped

theorem hardCull_perm (h : TimerHeap α) (pos : Nat) (bound : pos < h.es.size) :
    h.es.toList.Perm (h.es[pos] :: (h.hardCull pos).es.toList) := by
  unfold hardCull
  split
  · rename_i last
    exact pop_perm h.es last
  · have swapped := swap_last h.es pos bound
    simp only
    split
    · exact swapped.trans ((siftDown_perm _ _ _).symm.cons _)
    · exact swapped.trans ((siftUp_perm _ _ _).symm.cons _)

theorem hardCull_values (h : TimerHeap α) (pos : Nat) (bound : pos < h.es.size) :
    h.values.Perm (h.es[pos].value :: (h.hardCull pos).values) :=
  (hardCull_perm h pos bound).map Element.value

theorem pop_values (h : TimerHeap α) (top : h.top? = some v) :
    h.values.Perm (v :: h.pop.values) := by
  obtain ⟨x, here, rfl⟩ := Option.map_eq_some_iff.mp top
  obtain ⟨bound, rfl⟩ := Array.getElem?_eq_some_iff.mp here
  exact hardCull_values h 0 bound

theorem cullTop_values (empty : α → Bool) (fuel : Nat) (h : TimerHeap α) :
    h.values.Perm ((cullTop empty fuel h).2 ++ (cullTop empty fuel h).1.values) := by
  induction fuel generalizing h with
  | zero => exact List.Perm.refl _
  | succ fuel ih =>
      unfold cullTop
      split
      · exact List.Perm.refl _
      · rename_i v top
        split
        · exact (pop_values h top).trans ((ih h.pop).cons v)
        · exact List.Perm.refl _

theorem values_rand (h : TimerHeap α) (rand : BitVec 32) :
    ({ h with cullRand := rand } : TimerHeap α).values = h.values := by
  rfl

theorem cullRandom_values (empty : α → Bool) (fuel : Nat) (h : TimerHeap α) :
    h.values.Perm ((cullRandom empty fuel h).2 ++ (cullRandom empty fuel h).1.values) := by
  induction fuel generalizing h with
  | zero => exact List.Perm.refl _
  | succ fuel ih =>
      unfold cullRandom
      split
      · exact List.Perm.refl _
      · dsimp only
        generalize nextRand h.cullRand = rand
        generalize h.cullRand.toNat % h.es.size = pos
        split
        · exact List.Perm.refl _
        · rename_i x here
          obtain ⟨bound, rfl⟩ := Array.getElem?_eq_some_iff.mp here
          split
          · have removed := hardCull_values { h with cullRand := rand } pos bound
            have rest := ih (({ h with cullRand := rand } : TimerHeap α).hardCull pos)
            rw [values_rand] at removed
            simp only [List.cons_append]
            exact removed.trans (rest.cons _)
          · exact List.Perm.refl _

theorem emplace_values (empty : α → Bool) (h : TimerHeap α) (when : Int) (v : α) :
    (v :: h.values).Perm ((h.emplace empty when v).2 ++ (h.emplace empty when v).1.values) := by
  have culled := cullRandom_values empty h.es.size h
  unfold emplace
  simp only [values]
  refine ((culled.cons v).trans List.perm_middle.symm).trans (List.Perm.append_left _ ?_)
  refine .trans ?_ ((siftUp_perm _ _ _).symm.map Element.value)
  rw [Array.toList_push, List.map_append]
  exact (List.perm_append_singleton v _).symm

end TimerHeap
end Cotamer

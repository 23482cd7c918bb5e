import Cotamer.Transition

/-! `iovec` arrays as the addresses they cover, and the cursor that is advanced through one while a
transfer goes on, in the caller's array or in a copy of what is left of it. -/
namespace Cotamer.Io

/-- `iovec` -/
structure Iovec where
  base : Nat
  len : Nat
  deriving DecidableEq, Repr

/-- The addresses of the buffers, in order. -/
def addresses (iov : List Iovec) : List Nat := iov.flatMap fun v => List.range' v.base v.len

/-- The caller's array and `iovcopy`. -/
structure Memory where
  caller : List Iovec
  copy : List Iovec := []
  deriving DecidableEq, Repr

/-- `iovec*` -/
inductive Pointer where
  | caller (i : Nat)
  | copy (i : Nat)
  deriving DecidableEq, Repr

/-- A pointer and the number of entries from there on. -/
structure Cursor where
  iov : Pointer
  cnt : Nat
  deriving DecidableEq, Repr

def Pointer.next : Pointer → Pointer
  | .caller i => .caller (i + 1)
  | .copy i => .copy (i + 1)

def Pointer.inCopy : Pointer → Bool
  | .caller _ => false
  | .copy _ => true

namespace Memory

def get? (m : Memory) : Pointer → Option Iovec
  | .caller i => m.caller[i]?
  | .copy i => m.copy[i]?

/-- `std::span` -/
def span (m : Memory) (c : Cursor) : List Iovec :=
  match c.iov with
  | .caller i => (m.caller.drop i).take c.cnt
  | .copy i => (m.copy.drop i).take c.cnt

def modify (m : Memory) (f : Iovec → Iovec) : Pointer → Memory
  | .caller i => { m with caller := m.caller.modify i f }
  | .copy i => { m with copy := m.copy.modify i f }

/-- The loop of `update_iovec` and `msghdr_done`: the entries that `r` bytes fill are passed. -/
def skip (m : Memory) : Nat → Pointer → Nat → Cursor × Nat
  | 0, iov, r => (⟨iov, 0⟩, r)
  | cnt + 1, iov, r =>
    match m.get? iov with
    | none => (⟨iov, cnt + 1⟩, r)
    | some v => if v.len ≤ r then m.skip cnt iov.next (r - v.len) else (⟨iov, cnt + 1⟩, r)

def updateIovec (m : Memory) (c : Cursor) (r : Nat) : Memory × Cursor :=
  let (c, r) := m.skip c.cnt c.iov r
  if r = 0 then (m, c)
  else
    let (m, c) := if m.copy.isEmpty then ({ m with copy := m.span c }, ⟨.copy 0, c.cnt⟩) else (m, c)
    (m.modify (fun v => ⟨v.base + r, v.len - r⟩) c.iov, c)

def msghdrDone (m : Memory) (c : Cursor) (r : Nat) : Bool := (m.skip c.cnt c.iov r).1.cnt == 0

end Memory

/-- What is left of a list of entries when `r` bytes are passed, whole entries only. -/
def left : List Iovec → Nat → List Iovec × Nat
  | [], r => ([], r)
  | v :: vs, r => if v.len ≤ r then left vs (r - v.len) else (v :: vs, r)

/-- All entries are there. -/
def Memory.Valid (m : Memory) (c : Cursor) : Prop := (m.span c).length = c.cnt

/-- Once there is a copy the cursor is in it. -/
def Memory.Placed (m : Memory) (c : Cursor) : Prop := c.iov.inCopy = !m.copy.isEmpty

variable {m : Memory} {c : Cursor} {iov : Pointer} {cnt r : Nat} {l : List Iovec} {v : Iovec}

theorem addresses_cons (v : Iovec) (l : List Iovec) :
    addresses (v :: l) = List.range' v.base v.len ++ addresses l := List.flatMap_cons

/-- Fewer bytes than there are stop in front of an entry that has more of them. -/
theorem left_addresses (bound : r ≤ (addresses l).length) :
    (addresses (left l r).1).drop (left l r).2 = (addresses l).drop r ∧
      match (left l r).1 with
      | [] => (left l r).2 = 0
      | v :: _ => (left l r).2 < v.len := by
  induction l generalizing r with
  | nil =>
      have none : r = 0 := Nat.le_zero.mp bound
      simp [left, none]
  | cons v l ih =>
      rw [left]
      split
      · rename_i whole
        rw [addresses_cons, List.length_append, List.length_range'] at bound
        obtain ⟨same, stops⟩ := ih (r := r - v.len) (by omega)
        have passed : (List.range' v.base v.len).drop r = [] := by
          apply List.drop_eq_nil_of_le
          rwa [List.length_range']
        refine ⟨?_, stops⟩
        rw [same, addresses_cons, List.drop_append, passed, List.length_range', List.nil_append]
      · exact ⟨rfl, by omega⟩

theorem span_cons (valid : m.Valid ⟨iov, cnt + 1⟩) : ∃ v, m.get? iov = some v ∧
    m.span ⟨iov, cnt + 1⟩ = v :: m.span ⟨iov.next, cnt⟩ ∧ m.Valid ⟨iov.next, cnt⟩ := by
  have split : ∀ (xs : List Iovec) (i : Nat), ((xs.drop i).take (cnt + 1)).length = cnt + 1 →
      ∃ v, xs[i]? = some v ∧ (xs.drop i).take (cnt + 1) = v :: (xs.drop (i + 1)).take cnt ∧
        ((xs.drop (i + 1)).take cnt).length = cnt := by
    intro xs i full
    have bound : i < xs.length := by
      rw [List.length_take, List.length_drop] at full
      omega
    have head := List.drop_eq_getElem_cons bound
    rw [head, List.take_succ_cons, List.length_cons, Nat.add_right_cancel_iff] at full
    exact ⟨xs[i], List.getElem?_eq_getElem bound, by rw [head, List.take_succ_cons], full⟩
  cases iov with
  | caller i => exact split m.caller i valid
  | copy i => exact split m.copy i valid

theorem skip_left (valid : m.Valid ⟨iov, cnt⟩) :
    (m.span (m.skip cnt iov r).1, (m.skip cnt iov r).2) = left (m.span ⟨iov, cnt⟩) r ∧
      m.Valid (m.skip cnt iov r).1 ∧ (m.skip cnt iov r).1.iov.inCopy = iov.inCopy := by
  induction cnt generalizing iov r with
  | zero =>
      have none : m.span ⟨iov, 0⟩ = [] := List.length_eq_zero_iff.mp valid
      rw [Memory.skip, none]
      exact ⟨rfl, valid, rfl⟩
  | succ cnt ih =>
      obtain ⟨v, found, split, rest⟩ := span_cons valid
      rw [Memory.skip, found, split, left]
      simp only
      split
      · obtain ⟨same, valid, place⟩ := @ih iov.next (r - v.len) rest
        refine ⟨same, valid, place.trans ?_⟩
        cases iov <;> rfl
      · rw [split]
        exact ⟨rfl, valid, rfl⟩

/-- `msghdr_done` says whether all bytes have been passed. -/
theorem msghdrDone_iff (valid : m.Valid c) (bound : r ≤ (addresses (m.span c)).length) :
    m.msghdrDone c r = true ↔ r = (addresses (m.span c)).length := by
  obtain ⟨same, skipped, _⟩ := skip_left (r := r) valid
  obtain ⟨rest, stops⟩ := left_addresses bound
  rw [← same] at rest stops
  have length := congrArg List.length rest
  simp only [List.length_drop] at length
  rw [Memory.msghdrDone, beq_iff_eq, ← skipped]
  cases listed : m.span (m.skip c.cnt c.iov r).1 with
  | nil =>
      rw [listed, addresses, List.flatMap_nil, List.length_nil] at length
      exact iff_of_true rfl (by omega)
  | cons v l =>
      simp only [listed] at stops
      rw [listed, addresses_cons, List.length_append, List.length_range'] at length
      exact iff_of_false (by simp) (by omega)

theorem updateIovec_cnt (m : Memory) (c : Cursor) (r : Nat) :
    (m.updateIovec c r).2.cnt = (m.skip c.cnt c.iov r).1.cnt := by
  simp only [Memory.updateIovec]
  split
  · rfl
  · split <;> rfl

theorem span_modify (m : Memory) (f : Iovec → Iovec) (c : Cursor) :
    (m.modify f c.iov).span c = (m.span c).modifyHead f := by
  have shift : ∀ (xs : List Iovec) (i n : Nat),
      ((xs.modify i f).drop i).take n = ((xs.drop i).take n).modifyHead f := by
    intro xs i n
    induction i generalizing xs with
    | zero => cases xs <;> cases n <;> rfl
    | succ i ih =>
        cases xs with
        | nil => simp
        | cons x xs => simpa using ih xs
  obtain ⟨iov, cnt⟩ := c
  cases iov with
  | caller i => exact shift m.caller i cnt
  | copy i => exact shift m.copy i cnt

/-- The bytes of an entry behind its first `r`. -/
theorem addresses_part (part : r ≤ v.len) (l : List Iovec) :
    addresses (⟨v.base + r, v.len - r⟩ :: l) = (addresses (v :: l)).drop r := by
  rw [addresses_cons, addresses_cons, List.drop_append_of_le_length (by rwa [List.length_range']),
    List.drop_range', Nat.mul_one]

/-- `update_iovec` passes `r` bytes, and writes to the copy only. -/
theorem updateIovec_spec (valid : m.Valid c) (placed : m.Placed c)
    (bound : r ≤ (addresses (m.span c)).length) :
    (m.updateIovec c r).1.caller = m.caller ∧
      (m.updateIovec c r).1.Valid (m.updateIovec c r).2 ∧
      (m.updateIovec c r).1.Placed (m.updateIovec c r).2 ∧
      addresses ((m.updateIovec c r).1.span (m.updateIovec c r).2) = (addresses (m.span c)).drop r := by
  obtain ⟨same, skipped, place⟩ := skip_left (r := r) valid
  obtain ⟨rest, stops⟩ := left_addresses bound
  rw [← same] at rest stops
  simp only [Memory.updateIovec]
  generalize m.skip c.cnt c.iov r = s at rest stops skipped place ⊢
  obtain ⟨d, k⟩ := s
  simp only at rest stops skipped place ⊢
  split
  · rename_i whole
    subst whole
    exact ⟨rfl, skipped, place.trans placed, rest⟩
  · rename_i part
    obtain ⟨v, l, listed, cut⟩ : ∃ v l, m.span d = v :: l ∧ k < v.len := by
      cases listed : m.span d with
      | nil =>
          rw [listed] at stops
          exact absurd stops part
      | cons v l =>
          rw [listed] at stops
          exact ⟨v, l, rfl, stops⟩
    rw [listed] at rest
    have advanced : ∀ (n : Memory) (e : Cursor), n.span e = v :: l → n.Valid e →
        (n.modify (fun v => ⟨v.base + k, v.len - k⟩) e.iov).Valid e ∧
          addresses ((n.modify (fun v => ⟨v.base + k, v.len - k⟩) e.iov).span e) =
            (addresses (m.span c)).drop r := by
      intro n e here all
      have head : (n.modify (fun v => ⟨v.base + k, v.len - k⟩) e.iov).span e =
          ⟨v.base + k, v.len - k⟩ :: l := by
        rw [span_modify, here, List.modifyHead_cons]
      refine ⟨?_, ?_⟩
      · rw [Memory.Valid, head, ← all, here]
        rfl
      · rw [head, addresses_part (Nat.le_of_lt cut), rest]
    cases copied : m.copy with
    | nil =>
        simp only [List.isEmpty_nil, if_true]
        have whole : (m.span d).take d.cnt = m.span d := List.take_of_length_le (Nat.le_of_eq skipped)
        have here : Memory.span { m with copy := m.span d } ⟨.copy 0, d.cnt⟩ = v :: l := whole.trans listed
        have all : Memory.Valid { m with copy := m.span d } ⟨.copy 0, d.cnt⟩ := by
          rw [Memory.Valid, here, ← listed]
          exact skipped
        obtain ⟨valid, same⟩ := advanced _ _ here all
        refine ⟨rfl, valid, ?_, same⟩
        rw [listed]
        rfl
    | cons w ws =>
        simp only [List.isEmpty_cons, Bool.false_eq_true, if_false]
        obtain ⟨valid, same⟩ := advanced m d listed skipped
        have inCopy : d.iov.inCopy = true := by rw [place, placed, copied, List.isEmpty_cons, Bool.not_false]
        cases iov : d.iov with
        | caller i =>
            rw [iov] at inCopy
            contradiction
        | copy i =>
            rw [iov] at valid same
            refine ⟨rfl, valid, ?_, same⟩
            rw [Memory.Placed, inCopy]
            cases i <;> simp [Memory.modify, copied]

end Cotamer.Io

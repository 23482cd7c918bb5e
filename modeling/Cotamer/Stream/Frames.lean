import Mathlib

/-! Messages with their length in front, as four bytes. -/
namespace Cotamer.Stream

/-- The bytes of a 32-bit number in memory, least significant first. -/
def word (n : Nat) : List UInt8 :=
  [UInt8.ofNat n, UInt8.ofNat (n / 2 ^ 8), UInt8.ofNat (n / 2 ^ 16), UInt8.ofNat (n / 2 ^ 24)]

/-- The number that four bytes in memory are. -/
def number : List UInt8 → Nat
  | [a, b, c, d] => a.toNat + 2 ^ 8 * b.toNat + 2 ^ 16 * c.toNat + 2 ^ 24 * d.toNat
  | _ => 0

@[simp] theorem length_word (n : Nat) : (word n).length = 4 := rfl

theorem number_word (small : n < 2 ^ 32) : number (word n) = n := by
  simp only [number, word, UInt8.toNat_ofNat']
  omega

/-- A message on the wire. -/
def frame (m : List UInt8) : List UInt8 := word m.length ++ m

def frames (ms : List (List UInt8)) : List UInt8 := ms.flatMap frame

@[simp] theorem frames_nil : frames [] = [] := rfl

@[simp] theorem frames_cons (m : List UInt8) (ms : List (List UInt8)) :
    frames (m :: ms) = frame m ++ frames ms := rfl

theorem frames_append (ms ms' : List (List UInt8)) : frames (ms ++ ms') = frames ms ++ frames ms' :=
  List.flatMap_append

variable {data rest : List UInt8} {m : List UInt8} {ms : List (List UInt8)}

/-- What starts a row of frames starts with the length of the first message. -/
theorem first_header (row : data ++ rest = frames ms) (short : ∀ m ∈ ms, m.length < 2 ^ 32)
    (header : 4 ≤ data.length) : ∃ m ms', ms = m :: ms' ∧ number (data.take 4) = m.length := by
  cases ms with
  | nil =>
      have empty := (List.append_eq_nil_iff.mp row).1
      simp [empty] at header
  | cons m ms' =>
      have first : data.take 4 = word m.length := by
        have heads := congrArg (List.take 4) row
        rwa [List.take_append_of_le_length header, frames_cons, frame, List.append_assoc,
          List.take_left' (length_word _)] at heads
      refine ⟨m, ms', rfl, ?_⟩
      rw [first, number_word (short m List.mem_cons_self)]

/-- What starts a row of frames and is as long as the first has all of it. -/
theorem first_frame (row : data ++ rest = frames (m :: ms)) (full : m.length + 4 ≤ data.length) :
    (data.drop 4).take m.length = m ∧ data.drop (m.length + 4) ++ rest = frames ms := by
  have enough : m.length ≤ (data.drop 4).length := by
    rw [List.length_drop]
    omega
  have after : data.drop 4 ++ rest = m ++ frames ms := by
    have tails := congrArg (List.drop 4) row
    rwa [List.drop_append_of_le_length (by omega), frames_cons, frame, List.append_assoc,
      List.drop_left' (length_word _)] at tails
  constructor
  · have heads := congrArg (List.take m.length) after
    rw [List.take_append_of_le_length enough] at heads
    simpa using heads
  · have tails := congrArg (List.drop m.length) after
    rw [List.drop_append_of_le_length enough, List.drop_drop] at tails
    rw [Nat.add_comm m.length]
    simpa using tails

end Cotamer.Stream

import Mathlib.Data.List.Basic
import Mathlib.Tactic.IntervalCases

/-! Chunked transfer coding: a size in hexadecimal, CRLF, so many bytes, CRLF,
and so on until a chunk of size zero. The numerals are read back in the base of the
coding, whatever base they were written in. -/
namespace Cotamer.Chunked

abbrev cr : UInt8 := 13
abbrev lf : UInt8 := 10

/-- The value of a hexadecimal digit, of either case. -/
def hexDigit (b : UInt8) : Option Nat :=
  if 48 ≤ b ∧ b ≤ 57 then some (b.toNat - 48)
  else if 97 ≤ b ∧ b ≤ 102 then some (b.toNat - 87)
  else if 65 ≤ b ∧ b ≤ 70 then some (b.toNat - 55)
  else none

def sizeFrom (size : Nat) : List UInt8 → Nat × List UInt8
  | [] => (size, [])
  | b :: rest =>
    match hexDigit b with
    | some d => sizeFrom (16 * size + d) rest
    | none => (size, b :: rest)

/-- A chunk size has at least one digit. -/
def size : List UInt8 → Option (Nat × List UInt8)
  | [] => none
  | b :: rest => (hexDigit b).map fun d => sizeFrom d rest

def crlf : List UInt8 → Option (List UInt8)
  | b :: c :: rest => if b = cr ∧ c = lf then some rest else none
  | _ => none

/-- The body and what is left of the input; every chunk takes some of the fuel. -/
def decodeFrom : Nat → List UInt8 → Option (List UInt8 × List UInt8)
  | 0, _ => none
  | fuel + 1, input =>
    (size input).bind fun (n, rest) => (crlf rest).bind fun rest =>
      if n = 0 then (crlf rest).map fun left => ([], left)
      else if rest.length < n then none
      else (crlf (rest.drop n)).bind fun after =>
        (decodeFrom fuel after).map fun (body, left) => (rest.take n ++ body, left)

/-- A chunk is never empty, so the length of the input is enough fuel. -/
def decode (input : List UInt8) : Option (List UInt8 × List UInt8) := decodeFrom input.length input

def digit (d : Nat) : UInt8 := UInt8.ofNat (48 + d)

/-- The decimal numeral of a number. -/
def decimal (n : Nat) : List UInt8 := if n < 10 then [digit n] else decimal (n / 10) ++ [digit (n % 10)]

/-- The number that the decimal numeral of a number is when it is read in hexadecimal. -/
def misread (n : Nat) : Nat := if n < 10 then n else 16 * misread (n / 10) + n % 10

variable {n m fuel : Nat} {rest input body left s : List UInt8}

theorem hexDigit_digit (small : n < 10) : hexDigit (digit n) = some n := by
  interval_cases n <;> rfl

theorem crlf_append (rest : List UInt8) : crlf (cr :: lf :: rest) = some rest := rfl

theorem sizeFrom_digit (small : m < 10) (n : Nat) (rest : List UInt8) :
    sizeFrom n (digit m :: rest) = sizeFrom (16 * n + m) rest := by
  rw [sizeFrom, hexDigit_digit small]

/-- A numeral is read one digit after the other. -/
theorem size_decimal (n : Nat) (rest : List UInt8) :
    size (decimal n ++ rest) = some (sizeFrom (misread n) rest) := by
  induction n using Nat.strong_induction_on generalizing rest with
  | _ n ih =>
      rw [decimal, misread]
      by_cases small : n < 10
      · rw [if_pos small, if_pos small, List.singleton_append, size, hexDigit_digit small]
        rfl
      · rw [if_neg small, if_neg small, List.append_assoc, List.singleton_append, ih (n / 10) (by omega)]
        rw [sizeFrom_digit (Nat.mod_lt n (by decide))]

theorem le_misread (n : Nat) : n ≤ misread n := by
  induction n using Nat.strong_induction_on with
  | _ n ih =>
      rw [misread]
      split
      · exact Nat.le_refl n
      · have less := ih (n / 10) (by omega)
        omega

/-- Only a numeral of one digit means the same in both bases. -/
theorem misread_eq_iff : misread n = n ↔ n < 10 := by
  constructor
  · intro same
    by_contra large
    rw [misread, if_neg large] at same
    have less := le_misread (n / 10)
    omega
  · intro small
    rw [misread, if_pos small]

/-- The head of a chunk. -/
theorem decodeFrom_head (fuel n : Nat) (rest : List UInt8) :
    decodeFrom (fuel + 1) (decimal n ++ cr :: lf :: rest) =
      if misread n = 0 then (crlf rest).map fun left => ([], left)
      else if rest.length < misread n then none
      else (crlf (rest.drop (misread n))).bind fun after =>
        (decodeFrom fuel after).map fun (body, left) => (rest.take (misread n) ++ body, left) := by
  rw [decodeFrom, size_decimal]
  rfl

/-- A chunk whose size is read as it was meant. -/
theorem decodeFrom_chunk (fuel : Nat) (small : 0 < s.length ∧ s.length < 10) (rest : List UInt8) :
    decodeFrom (fuel + 1) (decimal s.length ++ cr :: lf :: (s ++ cr :: lf :: rest)) =
      (decodeFrom fuel rest).map fun (body, left) => (s ++ body, left) := by
  rw [decodeFrom_head, misread_eq_iff.mpr small.2, if_neg (by omega),
    if_neg (by rw [List.length_append]; omega), List.drop_left, List.take_left, crlf_append]
  rfl

/-- The chunk that ends a body. -/
theorem decodeFrom_zero (fuel : Nat) (rest : List UInt8) :
    decodeFrom (fuel + 1) (decimal 0 ++ cr :: lf :: cr :: lf :: rest) = some ([], rest) := by
  rw [decodeFrom_head, if_pos (by rw [misread]; rfl), crlf_append]
  rfl

/-- A chunk whose size is read too large takes the CRLF after it into the body. -/
theorem decodeFrom_long (long : 10 ≤ s.length) (decoded : decodeFrom fuel
    (decimal s.length ++ cr :: lf :: (s ++ cr :: lf :: rest)) = some (body, left)) : cr ∈ body := by
  cases fuel with
  | zero => contradiction
  | succ fuel =>
      have larger : s.length < misread s.length :=
        Nat.lt_of_le_of_ne (le_misread _) fun same => absurd (misread_eq_iff.mp same.symm) (by omega)
      rw [decodeFrom_head, if_neg (by omega)] at decoded
      split at decoded
      · contradiction
      · obtain ⟨after, _, decoded⟩ := Option.bind_eq_some_iff.mp decoded
        obtain ⟨⟨more, left'⟩, _, eq⟩ := Option.map_eq_some_iff.mp decoded
        cases eq
        apply List.mem_append_left
        rw [List.take_append, List.mem_append]
        obtain ⟨k, positive⟩ : ∃ k, misread s.length - s.length = k + 1 := ⟨_, (Nat.succ_pred (by omega)).symm⟩
        rw [positive, List.take_succ_cons]
        exact .inr (List.mem_cons_self ..)

end Cotamer.Chunked

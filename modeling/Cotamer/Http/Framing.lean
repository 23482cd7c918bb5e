import Cotamer.Http.Message

/-! What a receiver makes of the bytes of a connection: the framing rules of
HTTP/1.1 for responses. A body has the length its Content-Length says, and without
one it lasts until the connection is closed. -/
namespace Cotamer.Http
open Chunked

/-- The bytes before the first CRLF, and those after it. -/
def line : Bytes → Option (Bytes × Bytes)
  | [] => none
  | b :: rest =>
    if b = cr ∧ rest.head? = some lf then some ([], rest.drop 1)
    else (line rest).map fun (l, more) => (b :: l, more)

/-- `token` characters -/
def isTchar (c : UInt8) : Bool :=
  (48 ≤ c && c ≤ 57) || (65 ≤ c && c ≤ 90) || (97 ≤ c && c ≤ 122) ||
    (ascii "!#$%&'*+-.^_\x60|~").contains c

/-- The bytes of field values and reasons: all but control characters, with the tab. -/
def isText (c : UInt8) : Bool := c == tab || (32 ≤ c && c != 127)

/-- A field line: a token, a colon, and the value without the blanks around it. -/
def field (l : Bytes) : Option (Bytes × Bytes) :=
  let name := l.takeWhile (· != colon)
  if name ≠ [] ∧ name.all isTchar ∧ name.length < l.length then
    some (name, trimHws (l.drop (name.length + 1)))
  else none

/-- The field lines up to the empty line. -/
def fieldsFrom : Nat → Bytes → Option (List (Bytes × Bytes) × Bytes)
  | 0, _ => none
  | fuel + 1, input =>
    (line input).bind fun (l, rest) =>
      if l = [] then some ([], rest)
      else (field l).bind fun h => (fieldsFrom fuel rest).map fun (hs, left) => (h :: hs, left)

def isDigit (c : UInt8) : Bool := 48 ≤ c && c ≤ 57

def number (s : Bytes) : Option Nat :=
  if s ≠ [] ∧ s.all isDigit then some (s.foldl (fun n c => 10 * n + (c.toNat - 48)) 0) else none

/-- The code of a status line. -/
def statusLine (l : Bytes) : Option Nat :=
  let version := ascii "HTTP/1.1 "
  if l.take version.length = version then number ((l.drop version.length).takeWhile (· != space))
  else none

/-- What is received as one response. -/
structure Received where
  status : Nat
  fields : List (Bytes × Bytes)
  body : Bytes
  deriving DecidableEq, Repr

/-- Status codes of responses that never have a body. -/
def bodyless (status : Nat) : Bool := status < 200 || status == 204 || status == 304

/-- The body of a response and what follows it. -/
def frame (status : Nat) (fields : List (Bytes × Bytes)) (input : Bytes) : Option (Bytes × Bytes) :=
  if bodyless status then some ([], input)
  else match fields.find? fun h => ieq h.1 (ascii "content-length") with
    | none => some (input, [])
    | some h => (number h.2).bind fun n =>
        if input.length < n then none else some (input.take n, input.drop n)

def response (input : Bytes) : Option (Received × Bytes) :=
  (line input).bind fun (l, rest) => (statusLine l).bind fun status =>
    (fieldsFrom (rest.length + 1) rest).bind fun (fields, rest) =>
      (frame status fields rest).map fun (body, left) => (⟨status, fields, body⟩, left)

/-- The responses on a connection; each takes some of the fuel. -/
def responsesFrom : Nat → Bytes → Option (List Received)
  | 0, _ => none
  | fuel + 1, input =>
    if input = [] then some []
    else (response input).bind fun (r, rest) => (responsesFrom fuel rest).map fun rs => r :: rs

def responses (input : Bytes) : Option (List Received) := responsesFrom (input.length + 1) input

variable {l name value rest more : Bytes} {hs : List (Bytes × Bytes)} {fuel n : Nat}

theorem line_append (clean : cr ∉ l) (rest : Bytes) : line (l ++ cr :: lf :: rest) = some (l, rest) := by
  induction l with
  | nil => rfl
  | cons b l ih =>
      rw [List.mem_cons, not_or] at clean
      obtain ⟨other, clean⟩ := clean
      rw [List.cons_append, line, if_neg fun both => other both.1.symm, ih clean]
      rfl

theorem isTchar_ne (token : isTchar c = true) : c ≠ colon ∧ c ≠ cr := by
  constructor <;> (rintro rfl; revert token; decide)

theorem isText_ne (c : UInt8) (text : isText c = true) : c ≠ cr ∧ c ≠ lf := by
  constructor <;> (rintro rfl; revert text; decide)

/-- A field as it may be sent: a token, and a value without line ends or blanks around it. -/
structure Proper (h : Bytes × Bytes) : Prop where
  nonempty : h.1 ≠ []
  token : ∀ c ∈ h.1, isTchar c = true
  oneLine : cr ∉ h.2 ∧ lf ∉ h.2
  trimmed : trimHws h.2 = h.2

theorem trimHws_space (value : Bytes) : trimHws (space :: value) = trimHws value := rfl

/-- A field is read back from its line. -/
theorem field_headerLine {h : Bytes × Bytes} (proper : Proper h) :
    field (h.1 ++ [colon, space] ++ h.2) = some h := by
  have stop : (h.1 ++ [colon, space] ++ h.2).takeWhile (· != colon) = h.1 := by
    rw [List.append_assoc, List.takeWhile_append_of_pos]
    · simp
    · exact fun c member => by simpa using (isTchar_ne (proper.token c member)).1
  have value : (h.1 ++ [colon, space] ++ h.2).drop (h.1.length + 1) = space :: h.2 := by
    rw [List.append_assoc, List.drop_append]
    simp
  have all : h.1.all isTchar = true := List.all_eq_true.mpr proper.token
  have longer : h.1.length < (h.1 ++ [colon, space] ++ h.2).length := by
    simp only [List.length_append, List.length_cons]
    omega
  rw [field, stop, if_pos ⟨proper.nonempty, all, longer⟩, value, trimHws_space, proper.trimmed]

theorem proper_oneLine {h : Bytes × Bytes} (proper : Proper h) : cr ∉ h.1 ++ [colon, space] ++ h.2 := by
  intro member
  rcases List.mem_append.mp member with front | back
  · rcases List.mem_append.mp front with name | separator
    · exact (isTchar_ne (proper.token cr name)).2 rfl
    · revert separator
      decide
  · exact proper.oneLine.1 back

/-- The fields are read back from a header block. -/
theorem fieldsFrom_serialize (proper : ∀ h ∈ hs, Proper h) (enough : hs.length < fuel) (rest : Bytes) :
    fieldsFrom fuel (serialize hs ++ cr :: lf :: rest) = some (hs, rest) := by
  induction hs generalizing fuel with
  | nil =>
      obtain ⟨fuel, rfl⟩ := Nat.exists_eq_succ_of_ne_zero (Nat.ne_of_gt enough)
      rfl
  | cons h hs ih =>
      obtain ⟨fuel, rfl⟩ := Nat.exists_eq_succ_of_ne_zero (Nat.ne_of_gt (Nat.zero_lt_of_lt enough))
      obtain ⟨here, later⟩ := List.forall_mem_cons.mp proper
      have split : serialize (h :: hs) ++ cr :: lf :: rest =
          h.1 ++ [colon, space] ++ h.2 ++ cr :: lf :: (serialize hs ++ cr :: lf :: rest) := by
        simp [serialize, headerLine]
      have some : h.1 ++ [colon, space] ++ h.2 ≠ [] := by simp
      rw [split, fieldsFrom, line_append (proper_oneLine here), Option.bind_some]
      simp only [if_neg some, field_headerLine here, Option.bind_some,
        ih later (Nat.lt_of_succ_lt_succ enough), Option.map_some]

theorem length_serialize (hs : List (Bytes × Bytes)) : hs.length ≤ (serialize hs).length := by
  induction hs with
  | nil => exact Nat.le_refl 0
  | cons h hs ih =>
      simp only [serialize, List.map_cons, List.flatten_cons, List.length_append, headerLine,
        List.length_cons, List.length_nil] at ih ⊢
      omega

theorem isDigit_digit (small : n < 10) : isDigit (digit n) = true ∧ (digit n).toNat = 48 + n := by
  interval_cases n <;> exact ⟨rfl, rfl⟩

theorem decimal_digits (n : Nat) : decimal n ≠ [] ∧ (decimal n).all isDigit = true ∧
    (decimal n).foldl (fun n c => 10 * n + (c.toNat - 48)) 0 = n := by
  induction n using Nat.strongRecOn with
  | ind n ih =>
      rw [decimal]
      split
      · rename_i small
        obtain ⟨isDigit, value⟩ := isDigit_digit small
        simp [isDigit, value]
      · rename_i large
        obtain ⟨_, all, whole⟩ := ih (n / 10) (by omega)
        obtain ⟨isDigit, value⟩ := isDigit_digit (Nat.mod_lt n (by decide : 0 < 10))
        refine ⟨by simp, by simp [all, isDigit], ?_⟩
        rw [List.foldl_append, whole, List.foldl_cons, List.foldl_nil, value]
        omega

theorem length_decimal_le (k n : Nat) : (decimal n).length ≤ k + 1 ↔ n < 10 ^ (k + 1) := by
  induction k generalizing n with
  | zero =>
      rw [decimal]
      split
      · rename_i small
        exact iff_of_true (Nat.le_refl 1) small
      · rename_i large
        have some := List.length_pos_iff.mpr (decimal_digits (n / 10)).1
        rw [List.length_append, List.length_singleton]
        omega
  | succ k ih =>
      rw [decimal]
      split
      · rename_i small
        refine iff_of_true (by rw [List.length_singleton]; omega) (Nat.lt_of_lt_of_le small ?_)
        exact Nat.le_self_pow (Nat.succ_ne_zero _) 10
      · rw [List.length_append, List.length_singleton, Nat.add_le_add_iff_right, ih,
          Nat.div_lt_iff_lt_mul (by decide), ← Nat.pow_succ]

theorem length_decimal_three (n : Nat) : (decimal n).length = 3 ↔ 100 ≤ n ∧ n < 1000 := by
  have three := length_decimal_le 2 n
  have two := length_decimal_le 1 n
  omega

/-- A number is read back from its numeral. -/
theorem number_decimal (n : Nat) : number (decimal n) = some n := by
  obtain ⟨some, all, whole⟩ := decimal_digits n
  rw [number, if_pos ⟨some, all⟩, whole]

end Cotamer.Http

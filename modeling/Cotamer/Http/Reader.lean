import Cotamer.Http.Target

/-! What a receiver of HTTP/1.1 finds in the bytes of a connection: messages one after the other,
each a start line, field lines, and the body that the fields delimit. -/
namespace Cotamer.Http
open Chunked

/-! Start lines. -/

def httpVersion (s : Bytes) : Option (Nat × Nat) :=
  match s.drop 5 with
  | [major, dot, minor] =>
    if s.take 5 = ascii "HTTP/" ∧ isDigit major ∧ dot = 46 ∧ isDigit minor then
      some (major.toNat - 48, minor.toNat - 48)
    else none
  | _ => none

structure RequestLine where
  method : Bytes
  target : Bytes
  version : Nat × Nat
  deriving DecidableEq, Repr

def requestLine (l : Bytes) : Option RequestLine :=
  (cut space l).bind fun (method, l) => (cut space l).bind fun (target, v) =>
    (httpVersion v).bind fun version =>
      if method ≠ [] ∧ method.all isTchar ∧ requestTarget method target then some ⟨method, target, version⟩
      else none

structure ReplyLine where
  version : Nat × Nat
  code : Bytes                         -- its three digits
  reason : Bytes
  deriving DecidableEq, Repr

def replyLine (l : Bytes) : Option ReplyLine :=
  (cut space l).bind fun (v, l) => (httpVersion v).bind fun version =>
    (cut space l).bind fun (code, reason) =>
      if code.length = 3 ∧ code.all isDigit ∧ reason.all isText then some ⟨version, code, reason⟩ else none

/-- What a receiver expects: requests, or replies to requests other than `HEAD` and `CONNECT`. -/
structure Kind (α : Type) where
  line : Bytes → Option α
  version : α → Nat × Nat
  status : α → Option Nat

def requestKind : Kind RequestLine := ⟨requestLine, RequestLine.version, fun _ => none⟩
def replyKind : Kind ReplyLine := ⟨replyLine, ReplyLine.version, fun l => number l.code⟩

/-- A start line and the fields of the message. -/
structure Head (α : Type) where
  first : α
  fields : List (Bytes × Bytes)
  deriving DecidableEq, Repr

/-- The head at the front of `input`, and what follows it. -/
def readHead (first : Bytes → Option α) (input : Bytes) : Option (Head α × Bytes) :=
  (line input).bind fun (l, rest) => (first l).bind fun a =>
    (fieldsFrom (rest.length + 1) rest).bind fun (fields, rest) =>
      if fields.all fun h => h.2.all isText then some (⟨a, fields⟩, rest) else none

/-! Bodies. -/

inductive BodyLength where
  | exactly (n : Nat)
  | chunked
  | untilClosed
  deriving DecidableEq, Repr

def fieldValues (name : String) (fields : List (Bytes × Bytes)) : List Bytes :=
  (fields.filter fun h => ieq h.1 (ascii name)).map Prod.snd

/-- The last of the transfer codings is `chunked`. -/
def endsChunked (fields : List (Bytes × Bytes)) : Bool :=
  let codings := (fieldValues "transfer-encoding" fields).flatMap fun v => (v.splitOn 44).map trimHws
  (codings.filter (· ≠ [])).getLast?.any fun coding => ieq coding (ascii "chunked")

/-- How the body is delimited. Fields that disagree are refused, and so is a coding before version 1.1. -/
def bodyLength (status : Option Nat) (version : Nat × Nat) (fields : List (Bytes × Bytes)) : Option BodyLength :=
  if status.any bodyless then some (.exactly 0)
  else match fieldValues "transfer-encoding" fields, fieldValues "content-length" fields with
    | [], [] => some (if status = none then .exactly 0 else .untilClosed)
    | [], [n] => (number n).map .exactly
    | [], _ => none
    | _, [] =>
      if version.1 = 0 ∨ version = (1, 0) then none
      else if endsChunked fields then some .chunked
      else if status = none then none else some .untilClosed
    | _, _ => none

/-- The size in the line before a chunk, which may have extensions. -/
def chunkSize (l : Bytes) : Option Nat :=
  let digits := l.takeWhile isHexDigit
  let extensions := l.drop digits.length
  if digits ≠ [] ∧ (extensions = [] ∨ (extensions.dropWhile isHws).head? = some 59) ∧ extensions.all isText then
    some (digits.foldl (fun n c => 16 * n + (hexDigit c).getD 0) 0)
  else none

/-- The chunks up to the last one, and the trailer fields after it. -/
def chunksFrom : Nat → Bytes → Option (Bytes × Bytes)
  | 0, _ => none
  | fuel + 1, input =>
    (line input).bind fun (l, rest) => (chunkSize l).bind fun n =>
      if n = 0 then
        (fieldsFrom (rest.length + 1) rest).bind fun (trailers, left) =>
          if trailers.all fun h => h.2.all isText then some ([], left) else none
      else if rest.length < n then none
      else (crlf (rest.drop n)).bind fun after =>
        (chunksFrom fuel after).map fun (body, left) => (rest.take n ++ body, left)

/-- A body, and what follows it. -/
def readBody (input : Bytes) : BodyLength → Option (Bytes × Bytes)
  | .exactly n => if input.length < n then none else some (input.take n, input.drop n)
  | .chunked => chunksFrom input.length input
  | .untilClosed => some (input, [])

/-! Messages. -/

def readMessage (kind : Kind α) (input : Bytes) : Option ((Head α × Bytes) × Bytes) :=
  (readHead kind.line input).bind fun (head, rest) =>
    (bodyLength (kind.status head.first) (kind.version head.first) head.fields).bind fun length =>
      (readBody rest length).map fun (body, left) => ((head, body), left)

/-- All messages of a connection that is closed in the end; each takes some of the fuel. -/
def readMessagesFrom (kind : Kind α) : Nat → Bytes → Option (List (Head α × Bytes))
  | 0, _ => none
  | fuel + 1, input =>
    if input = [] then some []
    else (readMessage kind input).bind fun (m, rest) => (readMessagesFrom kind fuel rest).map (m :: ·)

def readMessages (kind : Kind α) (input : Bytes) : Option (List (Head α × Bytes)) :=
  readMessagesFrom kind (input.length + 1) input

/-- Bytes after the fields of a message are all of its body, and decode to `body`. -/
def Delimits (status : Option Nat) (version : Nat × Nat) (fields : List (Bytes × Bytes)) (sent body : Bytes) :
    Prop :=
  if status.any bodyless then sent = [] ∧ body = []
  else if fieldValues "transfer-encoding" fields = [] then
    body = sent ∧ match fieldValues "content-length" fields with
      | [] => status = none → sent = []
      | [n] => number n = some sent.length
      | _ => False
  else
    fieldValues "content-length" fields = [] ∧ version.1 ≠ 0 ∧ version ≠ (1, 0) ∧
      if endsChunked fields then chunksFrom sent.length sent = some (body, [])
      else status ≠ none ∧ body = sent

/-- A field that can be read back: its name is a token, and its value has no control characters. -/
structure Readable (h : Bytes × Bytes) : Prop where
  nonempty : h.1 ≠ []
  token : ∀ c ∈ h.1, isTchar c = true
  text : ∀ c ∈ h.2, isText c = true

theorem readable_iff (h : Bytes × Bytes) : Readable h ↔
    h.1 ≠ [] ∧ (∀ c ∈ h.1, isTchar c = true) ∧ ∀ c ∈ h.2, isText c = true :=
  ⟨fun clean => ⟨clean.nonempty, clean.token, clean.text⟩, fun ⟨filled, token, text⟩ => ⟨filled, token, text⟩⟩

instance (h : Bytes × Bytes) : Decidable (Readable h) :=
  have : Decidable (∀ c ∈ h.1, isTchar c = true) := List.decidableBAll _ _
  have : Decidable (∀ c ∈ h.2, isText c = true) := List.decidableBAll _ _
  decidable_of_iff _ (readable_iff h).symm

variable {α : Type} {kind : Kind α} {head : Head α} {first : Bytes → Option α} {a : α}
  {l input rest sent body : Bytes} {h : Bytes × Bytes} {hs fields : List (Bytes × Bytes)} {fuel : Nat}
  {status : Option Nat} {version : Nat × Nat}

/-! Heads. -/

theorem cut_append {d : UInt8} (absent : d ∉ l) (rest : Bytes) : cut d (l ++ d :: rest) = some (l, rest) := by
  have stop : (l ++ d :: rest).takeWhile (· != d) = l := by
    rw [List.takeWhile_append_of_pos]
    · simp
    · exact fun c member => by simpa using fun same : c = d => absent (same ▸ member)
  rw [cut, stop, if_pos (by simp)]
  simp

theorem httpVersion_text {major minor : Nat} (small : major < 10 ∧ minor < 10) :
    httpVersion (ascii "HTTP/" ++ (decimal major ++ 46 :: decimal minor)) = some (major, minor) := by
  have front : (ascii "HTTP/").length = 5 := by decide
  obtain ⟨x, major_eq⟩ := isDigit_digit small.1
  obtain ⟨y, minor_eq⟩ := isDigit_digit small.2
  rw [httpVersion, ← front, List.drop_left, List.take_left, decimal, if_pos small.1, decimal.eq_def minor,
    if_pos small.2]
  simp only [List.singleton_append, x, y, and_self, if_true, major_eq, minor_eq, Nat.add_sub_cancel_left]

theorem httpVersion_digits (read : httpVersion l = some version) : version.1 < 10 ∧ version.2 < 10 := by
  unfold httpVersion at read
  split at read
  · obtain ⟨⟨_, major, _, minor⟩, same⟩ := Option.ite_none_right_eq_some.mp read
    cases same
    simp only [isDigit, Bool.and_eq_true, decide_eq_true_eq, UInt8.le_iff_toNat_le] at major minor
    have nine : (57 : UInt8).toNat = 57 := rfl
    dsimp only
    omega
  · contradiction

theorem Readable.proper (clean : Readable h) (trimmed : trimHws h.2 = h.2) : Proper h where
  nonempty := clean.nonempty
  token := clean.token
  oneLine := ⟨fun member => (isText_ne cr (clean.text cr member)).1 rfl,
    fun member => (isText_ne lf (clean.text lf member)).2 rfl⟩
  trimmed := trimmed

/-- Every field that is read has a token for its name. -/
theorem fieldsFrom_tokens (read : fieldsFrom fuel input = some (hs, rest)) :
    ∀ h ∈ hs, h.1 ≠ [] ∧ ∀ c ∈ h.1, isTchar c = true := by
  induction fuel generalizing input hs with
  | zero => contradiction
  | succ fuel ih =>
      rw [fieldsFrom] at read
      obtain ⟨⟨l, more⟩, _, read⟩ := Option.bind_eq_some_iff.mp read
      simp only at read
      split at read
      · cases read
        simp
      · obtain ⟨h, one, read⟩ := Option.bind_eq_some_iff.mp read
        obtain ⟨⟨later, left⟩, others, same⟩ := Option.map_eq_some_iff.mp read
        cases same
        refine List.forall_mem_cons.mpr ⟨?_, ih others⟩
        simp only [field, Option.ite_none_right_eq_some] at one
        obtain ⟨⟨some, all, _⟩, same⟩ := one
        cases same
        exact ⟨some, List.all_eq_true.mp all⟩

/-- Every field that is read is readable. -/
theorem readHead_readable (read : readHead first input = some (⟨a, hs⟩, rest)) :
    (∃ l, first l = some a) ∧ ∀ h ∈ hs, Readable h := by
  obtain ⟨⟨l, more⟩, _, read⟩ := Option.bind_eq_some_iff.mp read
  obtain ⟨b, start, read⟩ := Option.bind_eq_some_iff.mp read
  obtain ⟨⟨fields, left⟩, listed, read⟩ := Option.bind_eq_some_iff.mp read
  simp only [Option.ite_none_right_eq_some] at read
  obtain ⟨text, same⟩ := read
  cases same
  refine ⟨⟨l, start⟩, fun h member => ?_⟩
  obtain ⟨some, token⟩ := fieldsFrom_tokens listed h member
  exact ⟨some, token, List.all_eq_true.mp (List.all_eq_true.mp text h member)⟩

/-- A head is read back from a start line and clean fields. -/
theorem readHead_serialize (oneLine : cr ∉ l) (start : first l = some a) (clean : ∀ h ∈ hs, Readable h)
    (trimmed : ∀ h ∈ hs, trimHws h.2 = h.2) :
    readHead first (l ++ cr :: lf :: (serialize hs ++ cr :: lf :: body)) = some (⟨a, hs⟩, body) := by
  have proper : ∀ h ∈ hs, Proper h := fun h member => (clean h member).proper (trimmed h member)
  have enough : hs.length < (serialize hs ++ cr :: lf :: body).length + 1 := by
    have fewer := length_serialize hs
    rw [List.length_append]
    omega
  have text : (hs.all fun h => h.2.all isText) = true :=
    List.all_eq_true.mpr fun h member => List.all_eq_true.mpr (clean h member).text
  rw [readHead, line_append oneLine, Option.bind_some]
  simp only [start, Option.bind_some, fieldsFrom_serialize proper enough, text, if_true]

theorem requestLine_clean {r : RequestLine} (read : requestLine l = some r) :
    requestTarget r.method r.target = true ∧ r.version.1 < 10 ∧ r.version.2 < 10 := by
  obtain ⟨⟨method, l⟩, _, read⟩ := Option.bind_eq_some_iff.mp read
  obtain ⟨⟨target, v⟩, _, read⟩ := Option.bind_eq_some_iff.mp read
  obtain ⟨version, digits, read⟩ := Option.bind_eq_some_iff.mp read
  obtain ⟨⟨_, _, target⟩, same⟩ := Option.ite_none_right_eq_some.mp read
  cases same
  exact ⟨target, httpVersion_digits digits⟩

theorem replyLine_clean {r : ReplyLine} (read : replyLine l = some r) :
    (r.version.1 < 10 ∧ r.version.2 < 10) ∧ r.code.length = 3 ∧ ∀ c ∈ r.reason, isText c = true := by
  obtain ⟨⟨v, l⟩, _, read⟩ := Option.bind_eq_some_iff.mp read
  obtain ⟨version, digits, read⟩ := Option.bind_eq_some_iff.mp read
  obtain ⟨⟨code, reason⟩, _, read⟩ := Option.bind_eq_some_iff.mp read
  obtain ⟨⟨three, _, text⟩, same⟩ := Option.ite_none_right_eq_some.mp read
  cases same
  exact ⟨httpVersion_digits digits, three, List.all_eq_true.mp text⟩

/-! Whole messages. -/

theorem readBody_exactly (n : Nat) :
    readBody sent (.exactly n) = some (body, []) ↔ n = sent.length ∧ body = sent := by
  rw [readBody]
  constructor
  · intro read
    obtain ⟨enough, same⟩ := Option.ite_none_left_eq_some.mp read
    obtain ⟨taken, none⟩ := Prod.mk.inj (Option.some.inj same)
    have all : n = sent.length := Nat.le_antisymm (Nat.le_of_not_lt enough) (List.drop_eq_nil_iff.mp none)
    rw [all, List.take_length] at taken
    exact ⟨all, taken.symm⟩
  · rintro ⟨rfl, rfl⟩
    rw [if_neg (Nat.lt_irrefl _), List.take_length, List.drop_length]

/-- The body of a message is all that is left exactly if the fields delimit it so. -/
theorem bodyLength_iff : (bodyLength status version fields).bind (readBody sent) = some (body, []) ↔
    Delimits status version fields sent body := by
  have closed : readBody sent .untilClosed = some (body, []) ↔ body = sent := by
    simp [readBody, eq_comm]
  unfold bodyLength Delimits
  by_cases without : status.any bodyless = true
  · rw [if_pos without, if_pos without, Option.bind_some, readBody_exactly, eq_comm, List.length_eq_zero_iff]
    exact and_congr_right fun none => by rw [none]
  · rw [if_neg without, if_neg without]
    cases codings : fieldValues "transfer-encoding" fields with
    | nil =>
        rw [if_pos rfl]
        cases lengths : fieldValues "content-length" fields with
        | nil =>
            by_cases request : status = none
            · simp [request, readBody_exactly, eq_comm (a := 0), and_comm]
            · simp [request, closed]
        | cons n more =>
            cases more with
            | nil =>
                cases numeral : number n with
                | none => simp [numeral]
                | some k => simp [numeral, readBody_exactly, and_comm]
            | cons _ _ => simp
    | cons coding more =>
        rw [if_neg (List.cons_ne_nil _ _)]
        cases lengths : fieldValues "content-length" fields with
        | nil =>
            by_cases old : version.1 = 0 ∨ version = (1, 0)
            · simp only [if_pos old, Option.bind_none]
              refine iff_of_false nofun fun ⟨_, zero, one, _⟩ => old.elim zero one
            · simp only [if_neg old]
              rw [not_or] at old
              by_cases chunked : endsChunked fields = true
              · simp [chunked, old, readBody]
              · by_cases request : status = none
                · simp [chunked, request]
                · simp [chunked, request, old, closed]
        | cons _ _ => simp

instance : Decidable (Delimits status version fields sent body) := decidable_of_iff _ bodyLength_iff

/-- There is nothing but one message exactly if its body is all that follows its head. -/
theorem readMessages_one : readMessages kind input = some [(head, body)] ↔
    ∃ rest, readHead kind.line input = some (head, rest) ∧
      Delimits (kind.status head.first) (kind.version head.first) head.fields rest body := by
  simp only [← bodyLength_iff]
  rw [readMessages, readMessagesFrom]
  cases input with
  | nil =>
      rw [if_pos rfl]
      refine iff_of_false (fun none => nomatch Option.some.inj none) ?_
      rintro ⟨rest, read, _⟩
      contradiction
  | cons c input =>
      have last : ∀ {rest}, readMessagesFrom kind (c :: input).length rest = some [] ↔ rest = [] := by
        intro rest
        rw [List.length_cons, readMessagesFrom]
        split
        · rename_i none
          exact iff_of_true rfl none
        · rename_i some
          refine iff_of_false (fun read => ?_) some
          obtain ⟨_, _, read⟩ := Option.bind_eq_some_iff.mp read
          obtain ⟨_, _, same⟩ := Option.map_eq_some_iff.mp read
          contradiction
      rw [if_neg (List.cons_ne_nil _ _), readMessage]
      constructor
      · intro read
        obtain ⟨⟨m, left⟩, one, read⟩ := Option.bind_eq_some_iff.mp read
        obtain ⟨others, none, same⟩ := Option.map_eq_some_iff.mp read
        obtain ⟨rfl, rfl⟩ := List.cons.inj same
        obtain rfl := last.mp none
        obtain ⟨⟨head', rest⟩, first, one⟩ := Option.bind_eq_some_iff.mp one
        obtain ⟨length, delimited, one⟩ := Option.bind_eq_some_iff.mp one
        obtain ⟨⟨body', left⟩, framed, same⟩ := Option.map_eq_some_iff.mp one
        cases same
        exact ⟨rest, first, by rw [delimited, Option.bind_some, framed]⟩
      · rintro ⟨rest, first, delimited⟩
        obtain ⟨length, known, framed⟩ := Option.bind_eq_some_iff.mp delimited
        simp only [first, Option.bind_some, known, framed, Option.map_some, last.mpr rfl]

end Cotamer.Http

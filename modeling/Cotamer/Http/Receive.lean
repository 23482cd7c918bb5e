import Cotamer.Http.Message

/-! `http_parser::receive`: the callbacks that build a message from what the
parser finds, and the loop that feeds the parser. `llhttp` itself is a parameter. -/
namespace Cotamer.Http
open Chunked Spans

abbrev Errno := UInt8

def HPE_OK : Errno := 0
def HPE_CLOSED_CONNECTION : Errno := 5
def HPE_PAUSED : Errno := 21
def HPE_PAUSED_UPGRADE : Errno := 22

/-- The fields of `llhttp_t` that are copied to messages. -/
structure Status where
  major : UInt8
  minor : UInt8
  statusCode : UInt16
  method : UInt8
  error : Errno
  upgrade : Bool
  deriving DecidableEq, Repr

/-- What a span callback is about; the status line comes with the fields of the
parser at that time. -/
inductive Span where
  | url
  | status (hp : Status)
  | headerField
  | headerValue
  | body
  deriving DecidableEq, Repr

/-- The callbacks in `settings`. -/
inductive Call where
  | messageBegin
  | span (k : Span) (s : Bytes)
  | headerFieldComplete
  | headerValueComplete
  | headersComplete (hp : Status) (contentLength : UInt64)
  | chunkHeader (contentLength : UInt64)
  | messageComplete
  deriving DecidableEq, Repr

/-- What `std::string::reserve` throws (or `std::bad_alloc`). -/
inductive Thrown where
  | lengthError
  deriving DecidableEq, Repr

inductive ReceiveState where
  | unknown
  | headerName
  | headerValue
  | done
  deriving DecidableEq, Repr

/-- `message_data` -/
structure MessageData where
  hm : Message := {}
  state : ReceiveState := .unknown
  name1 : BitVec 32 := 0
  name2 : BitVec 32 := 0
  value1 : BitVec 32 := 0
  deriving DecidableEq, Repr

def copyStatus (hp : Status) (hm : Message) : Message :=
  { hm with
    major := hp.major, minor := hp.minor, statusCode := hp.statusCode, method := hp.method
    error := hp.error, upgrade := hp.upgrade }

namespace MessageData

/-- `copy_parser_status` -/
def copyParserStatus (md : MessageData) (hp : Status) : MessageData :=
  { md with hm := copyStatus hp md.hm }

def onMessageBegin (md : MessageData) : MessageData := { md with hm := md.hm.clear, state := .unknown }

def onUrl (md : MessageData) (s : Bytes) : MessageData :=
  { md with hm := { md.hm with url := md.hm.url ++ s }, state := .unknown }

def onStatus (md : MessageData) (hp : Status) (s : Bytes) : MessageData :=
  let md := if md.hm.major = 0 then md.copyParserStatus hp else md
  { md with hm := { md.hm with statusMessage := md.hm.statusMessage ++ s }, state := .unknown }

def appendHeaders (md : MessageData) (s : Bytes) : MessageData :=
  { md with hm := { md.hm with headers := md.hm.headers ++ s } }

/-- The length of the header text as an `unsigned`. -/
def offset (md : MessageData) : BitVec 32 := .ofNat 32 md.hm.headers.length

def onHeaderField (md : MessageData) (s : Bytes) : MessageData :=
  let md := if md.state = .headerName then md else { md with name1 := md.offset, state := .headerName }
  md.appendHeaders s

def onHeaderFieldComplete (md : MessageData) : MessageData :=
  let md := if md.state = .headerName then md else { md with name1 := md.offset }
  let md := { md with name2 := md.offset }
  let md := md.appendHeaders [colon, space]
  { md with value1 := md.name2 + 2, state := .headerValue }

def onHeaderValue (md : MessageData) (s : Bytes) : MessageData := md.appendHeaders s

/-- The loop that strips trailing blanks, from the end `v2`. -/
def stripFrom (headers : Bytes) (value1 : Nat) : Nat → Nat
  | 0 => 0
  | v2 + 1 => if value1 < v2 + 1 ∧ (headers[v2]?.any isHws) then stripFrom headers value1 v2 else v2 + 1

def onHeaderValueComplete (md : MessageData) : MessageData :=
  let md := if md.state = .headerValue then
      let v2 := stripFrom md.hm.headers md.value1.toNat md.hm.headers.length
      { md with
        hm := { md.hm with hpairs := md.hm.hpairs ++ [⟨md.name1, md.name2, md.value1, .ofNat 32 v2⟩] } }
    else md
  { md.appendHeaders [cr, lf] with state := .unknown }

def onBody (md : MessageData) (s : Bytes) : MessageData :=
  { md with hm := { md.hm with body := md.hm.body ++ s } }

def onSpan (md : MessageData) (s : Bytes) : Span → MessageData
  | .url => md.onUrl s
  | .status hp => md.onStatus hp s
  | .headerField => md.onHeaderField s
  | .headerValue => md.onHeaderValue s
  | .body => md.onBody s

/-- `body_.reserve`, called only if the capacity is less; no capacity is more than `room`. -/
def reserve (room : Nat) (md : MessageData) (contentLength : UInt64) : Except Thrown MessageData :=
  if (md.hm.body.length + contentLength.toNat) % 2 ^ 64 ≤ room then .ok md else .error .lengthError

def handle (room : Nat) (md : MessageData) : Call → Except Thrown MessageData
  | .messageBegin => .ok md.onMessageBegin
  | .span k s => .ok (md.onSpan s k)
  | .headerFieldComplete => .ok md.onHeaderFieldComplete
  | .headerValueComplete => .ok md.onHeaderValueComplete
  | .headersComplete hp contentLength => (md.copyParserStatus hp).reserve room contentLength
  | .chunkHeader contentLength => md.reserve room contentLength
  | .messageComplete => .ok { md with state := .done }

def handleAll (room : Nat) (md : MessageData) (calls : List Call) : Except Thrown MessageData :=
  calls.foldlM (handle room) md

end MessageData

/-- What the callbacks return: only `on_message_complete` asks for a pause. -/
def Call.result : Call → Errno
  | .messageComplete => HPE_PAUSED
  | _ => HPE_OK

/-- One `llhttp_execute`: the callbacks it made, the parser after it, and on an
error how far it got. -/
structure Outcome (σ : Type) where
  calls : List Call
  parser : σ
  err : Errno
  errorPos : Nat
  deriving DecidableEq, Repr

/-- The functions of `llhttp` that `receive` uses, and the longest that a string can become. -/
structure Parser (σ : Type) where
  execute : σ → Bytes → Outcome σ
  unwound : σ → Bytes → σ             -- left by an exception out of a callback
  room : Nat
  resume : σ → σ
  resumeAfterUpgrade : σ → σ
  setError : σ → Errno → σ
  status : σ → Status

/-- The parser, `receive_buffer_`, and what `recv` will return. -/
structure Connection (σ : Type) where
  parser : σ
  buffer : Bytes := []
  input : List Bytes := []
  deriving DecidableEq, Repr

variable {σ : Type} (P : Parser σ)

/-- The bytes to parse next; `recv` fails or returns no bytes at the end. -/
def Connection.next (c : Connection σ) : Option (Bytes × List Bytes) :=
  if c.buffer.isEmpty then
    match c.input with
    | [] => none
    | piece :: input => if piece.isEmpty then none else some (piece, input)
  else some (c.buffer, c.input)

/-- After the loop. -/
def conclude (md : MessageData) (c : Connection σ) : Message × Connection σ :=
  if md.state ≠ .done ∧ md.hm.error = HPE_OK then
    ({ md.hm with error := HPE_CLOSED_CONNECTION },
      { c with parser := P.setError c.parser HPE_CLOSED_CONNECTION })
  else (md.hm, c)

/-- The loop of `receive`, for `fuel` rounds at most. -/
def receiveFrom : Nat → MessageData → Connection σ → Option (Except Thrown Message × Connection σ)
  | 0, _, _ => none
  | fuel + 1, md, c =>
    match c.next with
    | none => some ((conclude P md c).map .ok id)
    | some (buf, input) =>
      let r := P.execute c.parser buf
      match md.handleAll P.room r.calls with
      | .error e => some (.error e, ⟨P.unwound c.parser buf, c.buffer, input⟩)
      | .ok md =>
        let consumed := if r.err = HPE_OK then buf.length else r.errorPos
        let buffer := if consumed = buf.length then [] else buf.drop consumed
        let stopped := r.err = HPE_PAUSED_UPGRADE ∨ r.err = HPE_PAUSED
        let parser := if r.err = HPE_PAUSED_UPGRADE then P.resumeAfterUpgrade r.parser
          else if r.err = HPE_PAUSED then P.resume r.parser else r.parser
        let md := if stopped then { md with state := .done } else md
        if r.err ≠ HPE_OK ∨ md.state = .done then
          some ((conclude P (md.copyParserStatus (P.status parser)) ⟨parser, buffer, input⟩).map .ok id)
        else receiveFrom fuel md ⟨parser, buffer, input⟩

/-- `receive`, once the ticket has been granted. Every round but the first and
the last reads a piece. -/
def receive (c : Connection σ) : Option (Except Thrown Message × Connection σ) :=
  receiveFrom P (c.input.length + 2) { hm := { statusCode := 0 } } c

/-- As many `receive` calls in a row. -/
def receives : Nat → Connection σ → Option (List (Except Thrown Message) × Connection σ)
  | 0, c => some ([], c)
  | count + 1, c => do
    let (m, c) ← receive P c
    let (ms, c) ← receives count c
    return (m :: ms, c)

variable {P}

/-- A round in which a callback throws. -/
theorem receiveFrom_thrown {c : Connection σ} {buf : Bytes} {input : List Bytes} {md : MessageData} {e : Thrown}
    (next : c.next = some (buf, input))
    (thrown : md.handleAll P.room (P.execute c.parser buf).calls = .error e) (fuel : Nat) :
    receiveFrom P (fuel + 1) md c = some (.error e, ⟨P.unwound c.parser buf, c.buffer, input⟩) := by
  simp only [receiveFrom, next, thrown]

end Cotamer.Http

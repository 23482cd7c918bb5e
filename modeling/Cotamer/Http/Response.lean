import Cotamer.Http.Framing
import Cotamer.Http.Headers

/-! `send_response`, and what its peer makes of responses sent one after the other. -/
namespace Cotamer.Http
open Chunked

/-- `default_status_codes` -/
def defaultStatusCodes : List (UInt16 × String) :=
  [(100, "Continue"), (101, "Switching Protocols"), (102, "Processing"), (103, "Early Hints"),
   (110, "Early Hints"), (111, "Early Hints"), (112, "Early Hints"), (113, "Early Hints"),
   (200, "OK"), (201, "Created"), (202, "Accepted"), (203, "Non-Authoritative Information"),
   (204, "No Content"), (205, "Reset Content"), (206, "Partial Content"), (207, "Multi-Status"),
   (208, "Already Reported"), (226, "IM Used"), (300, "Multiple Choices"),
   (301, "Moved Permanently"), (302, "Found"), (303, "See Other"), (304, "Not Modified"),
   (305, "Use Proxy"), (307, "Temporary Redirect"), (308, "Permanent Redirect"),
   (400, "Bad Request"), (401, "Unauthorized"), (402, "Payment Required"), (403, "Forbidden"),
   (404, "Not Found"), (405, "Method Not Allowed"), (406, "Not Acceptable"),
   (407, "Proxy Authentication Required"), (408, "Request Timeout"), (409, "Conflict"),
   (410, "Gone"), (411, "Length Required"), (412, "Precondition Failed"),
   (413, "Content Too Large"), (414, "URI Too Long"), (415, "Unsupported Media Type"),
   (416, "Range Not Satisfiable"), (417, "Expectation Failed"), (418, "I'm a teapot"),
   (421, "Misdirected Request"), (422, "Unprocessable Content"), (423, "Locked"),
   (424, "Failed Dependency"), (425, "Too Early"), (426, "Upgrade Required"),
   (428, "Precondition Required"), (429, "Too Many Requests"),
   (431, "Request Header Fields Too Large"), (451, "Unavailable For Legal Reasons"),
   (500, "Internal Server Error"), (501, "Not Implemented"), (502, "Bad Gateway"),
   (503, "Service Unavailable"), (504, "Gateway Timeout"), (505, "HTTP Version Not Supported"),
   (506, "Variant Also Negotiates"), (507, "Insufficient Storage"), (508, "Loop Detected"),
   (509, "Bandwidth Limit Exceeded"), (510, "Not Extended"),
   (511, "Network Authentication Required")]

/-- `llhttp_status_name`, a text of one line. -/
structure StatusNames where
  name : UInt16 → Bytes
  oneLine : ∀ code, cr ∉ name code

/-- `default_status_message`: the first entry that is not below the code, if it is for it. -/
def defaultStatusMessage (names : StatusNames) (code : UInt16) : Bytes :=
  if code = 200 then ascii "OK"
  else match defaultStatusCodes.find? fun e => code ≤ e.1 with
    | some e => if e.1 = code then ascii e.2 else names.name code
    | none => names.name code

/-- The bytes `send_response` writes. -/
def sendResponse (names : StatusNames) (m : Message) : Bytes :=
  let statusMessage :=
    if m.statusMessage = [] then defaultStatusMessage names m.statusCode else m.statusMessage
  let codeline := ascii "HTTP/" ++ decimal m.major.toNat ++ ascii "." ++ decimal m.minor.toNat ++
    ascii " " ++ decimal m.statusCode.toNat ++ ascii " " ++ statusMessage ++ [cr, lf]
  let m := if m.hasBody && !m.hasHeader (ascii "content-length") &&
      !m.hasHeader (ascii "transfer-encoding")
    then m.addHeader (ascii "Content-Length") (decimal m.body.length) else m
  codeline ++ m.headers ++ [cr, lf] ++ m.body

/-- Names that the framing of a message depends on. -/
def framing (name : Bytes) : Bool :=
  ieq name (ascii "content-length") || ieq name (ascii "transfer-encoding")

/-- A response that may be sent: its fields are proper and none is about framing, and its
status admits a body. -/
structure Response where
  message : Message
  fields : List (Bytes × Bytes)
  version : message.major = 1 ∧ message.minor = 1
  status : message.statusCode < 1000 ∧ bodyless message.statusCode.toNat = false
  statusText : cr ∉ message.statusMessage
  text : message.headers = serialize fields
  proper : ∀ h ∈ fields, Proper h
  unframed : ∀ h ∈ fields, framing h.1 = false
  unseen : message.hasHeader (ascii "content-length") = false ∧
    message.hasHeader (ascii "transfer-encoding") = false

namespace Response

/-- A message whose index is in step with its text. -/
def ofMessage (m : Message) (inStep : m.InStep) (version : m.major = 1 ∧ m.minor = 1)
    (status : m.statusCode < 1000 ∧ bodyless m.statusCode.toNat = false)
    (statusText : cr ∉ m.statusMessage) (proper : ∀ h ∈ m.headerList, Proper h)
    (unframed : ∀ h ∈ m.headerList, framing h.1 = false) : Response where
  message := m
  fields := m.headerList
  version
  status
  statusText
  text := inStep.text
  proper
  unframed
  unseen := by
    constructor <;> rw [Message.hasHeader, List.any_eq_false]
    · intro h member
      have none := unframed h member
      simp_all [framing]
    · intro h member
      have none := unframed h member
      simp_all [framing]

/-- The copy that an argument by value makes has no index, and is sent in the same way. -/
def copy (r : Response) : Response where
  message := r.message.copyConstruct
  fields := r.fields
  version := r.version
  status := r.status
  statusText := r.statusText
  text := r.text
  proper := r.proper
  unframed := r.unframed
  unseen := ⟨rfl, rfl⟩

/-- The fields that are sent. -/
def sentFields (r : Response) : List (Bytes × Bytes) :=
  r.fields ++ if r.message.hasBody then [(ascii "Content-Length", decimal r.message.body.length)] else []

/-- What the peer should receive. -/
def expected (r : Response) : Received := ⟨r.message.statusCode.toNat, r.sentFields, r.message.body⟩

end Response

/-- The bytes of responses sent one after the other. -/
def sendResponses (names : StatusNames) (rs : List Response) : Bytes :=
  (rs.map fun r => sendResponse names r.message).flatten

theorem defaultStatusCodes_text : ∀ e ∈ defaultStatusCodes, (ascii e.2).all isText = true := by
  decide +kernel

theorem defaultStatusCodes_oneLine (e : UInt16 × String) (listed : e ∈ defaultStatusCodes) :
    cr ∉ ascii e.2 := fun member =>
  (isText_ne cr (List.all_eq_true.mp (defaultStatusCodes_text e listed) cr member)).1 rfl

theorem defaultStatusMessage_oneLine (names : StatusNames) (code : UInt16) :
    cr ∉ defaultStatusMessage names code := by
  unfold defaultStatusMessage
  split
  · decide
  · split
    · rename_i e found
      split
      · exact defaultStatusCodes_oneLine e (List.mem_of_find?_eq_some found)
      · exact names.oneLine code
    · exact names.oneLine code

namespace Response
variable {names : StatusNames} {r : Response} {rs : List Response} {fuel : Nat}

/-- The text after the code. -/
def reason (names : StatusNames) (r : Response) : Bytes :=
  if r.message.statusMessage = [] then defaultStatusMessage names r.message.statusCode
  else r.message.statusMessage

theorem reason_oneLine (names : StatusNames) (r : Response) : cr ∉ r.reason names := by
  unfold reason
  split
  · exact defaultStatusMessage_oneLine names _
  · exact r.statusText

def code (r : Response) : Bytes := decimal r.message.statusCode.toNat

/-- The status line, without its end. -/
def firstLine (names : StatusNames) (r : Response) : Bytes :=
  ascii "HTTP/1.1 " ++ (r.code ++ space :: r.reason names)

theorem digit_other (c : UInt8) (member : c ∈ decimal n) (other : UInt8) (no : isDigit other = false) :
    c ≠ other := by
  rintro rfl
  have digits := List.all_eq_true.mp (decimal_digits n).2.1 c member
  rw [no] at digits
  contradiction

theorem firstLine_oneLine (names : StatusNames) (r : Response) : cr ∉ r.firstLine names := by
  intro member
  rcases List.mem_append.mp member with version | rest
  · revert version
    decide
  · rcases List.mem_append.mp rest with code | text
    · exact digit_other cr code cr rfl rfl
    · rcases List.mem_cons.mp text with same | reason
      · revert same
        decide
      · exact reason_oneLine names r reason

theorem statusLine_firstLine (names : StatusNames) (r : Response) :
    statusLine (r.firstLine names) = some r.message.statusCode.toNat := by
  have stop : (r.code ++ space :: r.reason names).takeWhile (· != space) = r.code := by
    rw [List.takeWhile_append_of_pos]
    · simp
    · exact fun c member => by simpa using digit_other c member space rfl
  rw [statusLine, firstLine]
  simp only [List.take_left, List.drop_left, if_true, stop]
  exact number_decimal _

theorem trimHws_decimal (n : Nat) : trimHws (decimal n) = decimal n := by
  have none : ∀ c ∈ decimal n, isHws c = false := by
    intro c member
    have first := digit_other c member space rfl
    have second := digit_other c member tab rfl
    simp [isHws, first, second]
  have front : (decimal n).dropWhile isHws = decimal n := by
    cases numeral : decimal n with
    | nil => rfl
    | cons c rest => simp [none c (numeral ▸ List.mem_cons_self)]
  rw [trimHws, front, List.rdropWhile_eq_self_iff]
  intro some
  rw [none _ (List.getLast_mem some)]
  exact Bool.false_ne_true

/-- The message as it is sent, with its Content-Length. -/
def framed (m : Message) : Message :=
  if m.hasBody && !m.hasHeader (ascii "content-length") && !m.hasHeader (ascii "transfer-encoding")
  then m.addHeader (ascii "Content-Length") (decimal m.body.length) else m

theorem framed_eq (r : Response) :
    (framed r.message).headers = serialize r.sentFields ∧ (framed r.message).body = r.message.body := by
  rw [framed, r.unseen.1, r.unseen.2, sentFields]
  cases r.message.hasBody with
  | false => simp [r.text]
  | true => simp [Message.addHeader, r.text, serialize, headerLine, trimHws_decimal]

theorem version_text : ascii "HTTP/" ++ decimal (1 : UInt8).toNat ++ ascii "." ++
    decimal (1 : UInt8).toNat ++ ascii " " = ascii "HTTP/1.1 " := by
  have one : decimal (1 : UInt8).toNat = ascii "1" := by
    rw [decimal]
    rfl
  rw [one]
  decide

/-- The bytes of a response: status line, the fields that are sent, and the body. -/
theorem sendResponse_eq (names : StatusNames) (r : Response) :
    sendResponse names r.message =
      r.firstLine names ++ cr :: lf :: (serialize r.sentFields ++ cr :: lf :: r.message.body) := by
  obtain ⟨headers, body⟩ := framed_eq r
  have unfolded : sendResponse names r.message =
      ascii "HTTP/" ++ decimal r.message.major.toNat ++ ascii "." ++ decimal r.message.minor.toNat ++
        ascii " " ++ r.code ++ ascii " " ++ r.reason names ++ [cr, lf] ++
        (framed r.message).headers ++ [cr, lf] ++ (framed r.message).body := rfl
  have blank : ascii " " = [space] := by decide
  rw [unfolded, headers, body, r.version.1, r.version.2, version_text, firstLine, blank]
  simp only [List.append_assoc, List.cons_append, List.nil_append]

theorem lengthField_proper (n : Nat) : Proper (ascii "Content-Length", decimal n) where
  nonempty := (by decide : ascii "Content-Length" ≠ [])
  token := List.all_eq_true.mp (by decide : (ascii "Content-Length").all isTchar = true)
  oneLine := ⟨fun member => digit_other cr member cr rfl rfl, fun member => digit_other lf member lf rfl rfl⟩
  trimmed := trimHws_decimal n

theorem sentFields_proper (r : Response) : ∀ h ∈ r.sentFields, Proper h := by
  intro h member
  rcases List.mem_append.mp member with old | new
  · exact r.proper h old
  · split at new
    · rw [List.mem_singleton.mp new]
      exact lengthField_proper _
    · exact absurd new List.not_mem_nil

/-- The only Content-Length is the one that was added. -/
theorem find_length (r : Response) :
    (r.sentFields.find? fun h => ieq h.1 (ascii "content-length")) =
      if r.message.hasBody then some (ascii "Content-Length", decimal r.message.body.length) else none := by
  have none : (r.fields.find? fun h => ieq h.1 (ascii "content-length")) = none := by
    rw [List.find?_eq_none]
    intro h member
    have other := r.unframed h member
    simp_all [framing]
  rw [sentFields, List.find?_append, none, Option.none_or]
  have same : ieq (ascii "Content-Length") (ascii "content-length") = true := by decide
  cases r.message.hasBody with
  | false => rfl
  | true => simp [same]

/-- What the peer makes of one response, whatever follows it. -/
theorem response_send (names : StatusNames) (r : Response) (more : Bytes) :
    response (sendResponse names r.message ++ more) =
      if r.message.hasBody then some (r.expected, more)
      else some (⟨r.message.statusCode.toNat, r.fields, r.message.body ++ more⟩, []) := by
  have split : sendResponse names r.message ++ more =
      r.firstLine names ++ cr :: lf :: (serialize r.sentFields ++ cr :: lf :: (r.message.body ++ more)) := by
    rw [sendResponse_eq]
    simp only [List.append_assoc, List.cons_append]
  have fields : fieldsFrom ((serialize r.sentFields ++ cr :: lf :: (r.message.body ++ more)).length + 1)
      (serialize r.sentFields ++ cr :: lf :: (r.message.body ++ more)) =
        some (r.sentFields, r.message.body ++ more) := by
    apply fieldsFrom_serialize r.sentFields_proper
    have fewer := length_serialize r.sentFields
    rw [List.length_append]
    omega
  rw [split, response, line_append (firstLine_oneLine names r), Option.bind_some]
  simp only [statusLine_firstLine, Option.bind_some, fields]
  rw [frame, r.status.2, find_length]
  cases body : r.message.hasBody with
  | false =>
      have sent : r.sentFields = r.fields := by simp [sentFields, body]
      simp [sent]
  | true =>
      simp only [if_true, Option.bind_some, number_decimal, Bool.false_eq_true, if_false]
      rw [if_neg]
      · simp [expected]
      · rw [List.length_append]
        omega

/-- What the peer receives in the end: from the first response without a length on, everything is
its body. -/
def frames (names : StatusNames) : List Response → List Received
  | [] => []
  | r :: rs =>
    if r.message.hasBody then r.expected :: frames names rs
    else [⟨r.message.statusCode.toNat, r.fields, r.message.body ++ sendResponses names rs⟩]

theorem sendResponse_ne (names : StatusNames) (r : Response) (more : Bytes) :
    sendResponse names r.message ++ more ≠ [] := by
  rw [sendResponse_eq]
  simp

theorem responses_frames (names : StatusNames) (enough : rs.length < fuel) :
    responsesFrom fuel (sendResponses names rs) = some (frames names rs) := by
  induction rs generalizing fuel with
  | nil =>
      obtain ⟨fuel, rfl⟩ := Nat.exists_eq_succ_of_ne_zero (Nat.ne_of_gt enough)
      rfl
  | cons r rs ih =>
      obtain ⟨fuel, rfl⟩ := Nat.exists_eq_succ_of_ne_zero (Nat.ne_of_gt (Nat.zero_lt_of_lt enough))
      have split : sendResponses names (r :: rs) = sendResponse names r.message ++ sendResponses names rs := rfl
      rw [split, responsesFrom, if_neg (sendResponse_ne names r _), response_send, frames]
      cases r.message.hasBody with
      | true => simp [ih (Nat.lt_of_succ_lt_succ enough)]
      | false =>
          obtain ⟨fuel, rfl⟩ : ∃ k, fuel = k + 1 := ⟨fuel - 1, by rw [List.length_cons] at enough; omega⟩
          simp [responsesFrom]

/-- The peer gets the responses back exactly when each but the last has a body. -/
theorem frames_eq (names : StatusNames) (rs : List Response) :
    frames names rs = rs.map expected ↔ ∀ r ∈ rs.dropLast, r.message.hasBody = true := by
  induction rs with
  | nil => simp [frames]
  | cons r rs ih =>
      rw [frames, List.map_cons]
      cases rs with
      | nil =>
          cases body : r.message.hasBody with
          | true => simp [frames]
          | false => simp [expected, sentFields, body, sendResponses]
      | cons next rs =>
          rw [List.dropLast_cons_cons, List.forall_mem_cons, ← ih]
          cases body : r.message.hasBody with
          | true => simp
          | false => simp

theorem length_sendResponses (names : StatusNames) (rs : List Response) :
    rs.length ≤ (sendResponses names rs).length := by
  induction rs with
  | nil => exact Nat.le_refl 0
  | cons r rs ih =>
      have split : sendResponses names (r :: rs) = sendResponse names r.message ++ sendResponses names rs := rfl
      have some := List.length_pos_iff.mpr (sendResponse_ne names r [])
      rw [List.append_nil] at some
      rw [split, List.length_append, List.length_cons]
      omega

/-- Responses sent one after the other are received as they were, with the Content-Length
added, exactly when every one but the last has a body. -/
theorem responses_framed (names : StatusNames) (rs : List Response) :
    responses (sendResponses names rs) = some (rs.map expected) ↔
      ∀ r ∈ rs.dropLast, r.message.hasBody = true := by
  have read : responses (sendResponses names rs) = some (frames names rs) :=
    responses_frames names (Nat.lt_succ_of_le (length_sendResponses names rs))
  rw [read, Option.some.injEq, frames_eq]

/-- A response without a body, as `http_message(200)` makes it. -/
def bare : Response where
  message := {}
  fields := []
  version := ⟨rfl, rfl⟩
  status := by decide
  statusText := List.not_mem_nil
  text := rfl
  proper := List.forall_mem_nil _
  unframed := List.forall_mem_nil _
  unseen := ⟨rfl, rfl⟩

/-- The second of two such responses is received as the body of the first. -/
theorem second_swallowed :
    let names : StatusNames := ⟨fun _ => [], fun _ => List.not_mem_nil⟩
    responses (sendResponses names [bare, bare]) =
        some [⟨200, [], sendResponses names [bare]⟩] ∧
      responses (sendResponses names [bare, bare]) ≠ some ([bare, bare].map expected) := by
  intro names
  have read : responses (sendResponses names [bare, bare]) = some (frames names [bare, bare]) :=
    responses_frames names (Nat.lt_succ_of_le (length_sendResponses names [bare, bare]))
  rw [read]
  refine ⟨rfl, fun same => ?_⟩
  have length := congrArg List.length (Option.some.inj same)
  exact absurd length (by decide : ¬(1 = 2))

end Response
end Cotamer.Http

import Cotamer.Http.Pipeline
import Cotamer.Http.Reader
import Cotamer.Http.Response

/-! The messages that are sent, and what their receivers read. -/
namespace Cotamer.Http
open Chunked Pipeline

/-- The public setters of a message, and its copy constructor. Numbers and dates are headers with
their text. -/
inductive Setter where
  | major (v : UInt8)
  | minor (v : UInt8)
  | method (v : UInt8)
  | error (e : UInt8)
  | url (url : Bytes)
  | status (code : UInt16) (message : Bytes)
  | header (key value : Bytes)
  | body (body : Bytes)
  | appendBody (str : Bytes)
  | jsonBody (dump : Bytes)
  | copy
  deriving DecidableEq, Repr

namespace Setter

def apply (m : Message) : Setter → Message
  | .major v => { m with major := v }
  | .minor v => { m with minor := v }
  | .method v => { m with method := v }
  | .error e => { m with error := e }
  | .url u => m.setUrl u
  | .status code message => m.setStatus code message
  | .header key value => m.addHeader key value
  | .body b => m.setBody b
  | .appendBody str => m.appendBody str
  | .jsonBody dump => m.jsonBody dump
  | .copy => m.copyConstruct

/-- The fields a setter adds to `m`, values without the blanks around them. -/
def fields (m : Message) : Setter → List (Bytes × Bytes)
  | .header key value => [(key, trimHws value)]
  | .jsonBody _ =>
    if m.hasHeader (ascii "Content-Type") then [] else [(ascii "Content-Type", ascii "application/json")]
  | _ => []

end Setter

/-- A new message after some setters. -/
def assemble (setters : List Setter) : Message := setters.foldl Setter.apply {}

def addedFrom (m : Message) : List Setter → List (Bytes × Bytes)
  | [] => []
  | s :: setters => s.fields m ++ addedFrom (s.apply m) setters

/-- The fields that were added, in order. -/
def added (setters : List Setter) : List (Bytes × Bytes) := addedFrom {} setters

/-- The `Host` that `send_request` adds, and the message with it. -/
def hostFields (host : Bytes) (m : Message) : List (Bytes × Bytes) :=
  if host ≠ [] ∧ !m.hasHeader (ascii "host") then [(ascii "Host", trimHws host)] else []

def withHost (host : Bytes) (m : Message) : Message :=
  if host ≠ [] ∧ !m.hasHeader (ascii "host") then m.addHeader (ascii "Host") host else m

/-- The `Content-Length` that is added. -/
def lengthFields (m : Message) : List (Bytes × Bytes) :=
  if m.hasBody && !m.hasHeader (ascii "content-length") && !m.hasHeader (ascii "transfer-encoding")
  then [(ascii "Content-Length", decimal m.body.length)] else []

variable {α : Type} {l input rest body : Bytes} {h : Bytes × Bytes} {hs : List (Bytes × Bytes)}

theorem trimHws_trimHws (s : Bytes) : trimHws (trimHws s) = trimHws s := by
  have front : (trimHws s).dropWhile isHws = trimHws s := by
    cases trimmed : trimHws s with
    | nil => rfl
    | cons c more =>
        obtain ⟨rest, same⟩ : trimHws s <+: s.dropWhile isHws := List.rdropWhile_prefix ..
        rw [trimmed, List.cons_append] at same
        have kept := List.dropWhile_idempotent (p := isHws) (l := s)
        rw [← same] at kept
        rw [List.dropWhile_cons] at kept ⊢
        split at kept
        · have longer := (List.dropWhile_suffix isHws (l := more ++ rest)).length_le
          rw [kept, List.length_cons] at longer
          omega
        · rename_i visible
          rw [if_neg visible]
  rw [trimHws, front, trimHws, List.rdropWhile_idempotent]

theorem isTchar_visible (c : UInt8) (token : isTchar c = true) : c ≠ space ∧ c ≠ cr := by
  constructor <;> (rintro rfl; revert token; decide)

theorem serialize_append (hs more : List (Bytes × Bytes)) :
    serialize (hs ++ more) = serialize hs ++ serialize more := by
  rw [serialize, List.map_append, List.flatten_append, ← serialize, ← serialize]

theorem serialize_singleton (h : Bytes × Bytes) : serialize [h] = headerLine h := by
  simp [serialize]

theorem Setter.apply_headers (m : Message) (s : Setter) :
    (s.apply m).headers = m.headers ++ serialize (s.fields m) := by
  cases s with
  | header key value => rw [apply, fields, serialize_singleton, Message.addHeader_headers]
  | jsonBody dump =>
      have trimmed : trimHws (ascii "application/json") = ascii "application/json" := by decide
      rw [apply, fields, Message.jsonBody]
      split
      · simp [serialize]
      · rw [serialize_singleton, Message.addHeader_headers, trimmed]
  | _ => simp [apply, fields, serialize, Message.setUrl, Message.setStatus, Message.setBody, Message.appendBody,
      Message.copyConstruct]

theorem Setter.fields_trimmed (m : Message) (s : Setter) : ∀ h ∈ s.fields m, trimHws h.2 = h.2 := by
  intro h member
  cases s with
  | header key value =>
      cases List.mem_singleton.mp member
      exact trimHws_trimHws value
  | jsonBody dump =>
      simp only [fields] at member
      split at member
      · contradiction
      · cases List.mem_singleton.mp member
        decide
  | _ => contradiction

theorem addedFrom_spec (m : Message) (setters : List Setter) :
    (setters.foldl Setter.apply m).headers = m.headers ++ serialize (addedFrom m setters) ∧
      ∀ h ∈ addedFrom m setters, trimHws h.2 = h.2 := by
  induction setters generalizing m with
  | nil => exact ⟨(List.append_nil _).symm, nofun⟩
  | cons s setters ih =>
      obtain ⟨text, trimmed⟩ := ih (s.apply m)
      rw [List.foldl_cons, text, Setter.apply_headers, addedFrom, serialize_append, List.append_assoc]
      refine ⟨rfl, fun h member => ?_⟩
      exact (List.mem_append.mp member).elim (Setter.fields_trimmed m s h) (trimmed h)

theorem withHost_headers (host : Bytes) (m : Message) :
    (withHost host m).headers = m.headers ++ serialize (hostFields host m) := by
  unfold withHost hostFields
  split
  · rw [serialize_singleton, Message.addHeader_headers]
  · simp [serialize]

theorem withHost_body (host : Bytes) (m : Message) : (withHost host m).body = m.body := by
  unfold withHost
  split <;> rfl

theorem framed_headers (m : Message) :
    (Response.framed m).headers = m.headers ++ serialize (lengthFields m) := by
  unfold Response.framed lengthFields
  split
  · rw [serialize_singleton, Message.addHeader_headers, Response.trimHws_decimal]
  · simp [serialize]

theorem framed_body (m : Message) : (Response.framed m).body = m.body := by
  unfold Response.framed
  split <;> rfl

theorem hostFields_trimmed (host : Bytes) (m : Message) : ∀ h ∈ hostFields host m, trimHws h.2 = h.2 := by
  intro h member
  unfold hostFields at member
  split at member
  · cases List.mem_singleton.mp member
    exact trimHws_trimHws host
  · contradiction

theorem decimal_text (n : Nat) : ∀ c ∈ decimal n, isText c = true := by
  intro c member
  have digit := List.all_eq_true.mp (decimal_digits n).2.1 c member
  simp only [isDigit, isText, Bool.and_eq_true, Bool.or_eq_true, decide_eq_true_eq] at digit ⊢
  refine .inr ⟨UInt8.le_trans (by decide) digit.1, ?_⟩
  have small : c ≠ 127 := by
    rintro rfl
    exact absurd digit.2 (by decide)
  simpa using small

theorem lengthFields_readable (m : Message) : ∀ h ∈ lengthFields m, Readable h ∧ trimHws h.2 = h.2 := by
  intro h member
  unfold lengthFields at member
  split at member
  · cases List.mem_singleton.mp member
    have proper := Response.lengthField_proper m.body.length
    exact ⟨⟨proper.nonempty, proper.token, decimal_text _⟩, proper.trimmed⟩
  · contradiction

/-- The start line of a request, without its end. -/
def urlline (methodName : UInt8 → Bytes) (m : Message) : Bytes :=
  methodName m.method ++ space :: (m.url ++ space :: (ascii "HTTP/" ++
    (decimal m.major.toNat ++ 46 :: decimal m.minor.toNat)))

theorem requestIov_eq (methodName : UInt8 → Bytes) (host : Bytes) (m : Message) :
    (requestIov methodName host m).flatten = urlline methodName m ++ cr :: lf ::
      (m.headers ++ serialize (hostFields host m) ++ serialize (lengthFields (withHost host m)) ++
        cr :: lf :: m.body) := by
  have blank : ascii " " = [space] := by decide
  have dot : ascii "." = [46] := by decide
  have version : ascii " HTTP/" = space :: ascii "HTTP/" := by decide
  have text : requestIov methodName host m =
      (methodName m.method ++ ascii " " ++ m.url ++ ascii " HTTP/" ++ decimal m.major.toNat ++
        ascii "." ++ decimal m.minor.toNat ++ [cr, lf]) ::
      ((Response.framed (withHost host m)).headers ++ [cr, lf]) ::
      if (Response.framed (withHost host m)).body = [] then []
      else [(Response.framed (withHost host m)).body] := rfl
  rw [text, framed_headers, framed_body, withHost_headers, withHost_body, blank, dot, version, urlline]
  split
  · rename_i empty
    simp [empty]
  · simp

/-- The text after the code of a response. -/
def reasonText (names : StatusNames) (m : Message) : Bytes :=
  if m.statusMessage = [] then defaultStatusMessage names m.statusCode else m.statusMessage

/-- The start line of a response, without its end. -/
def codeline (names : StatusNames) (m : Message) : Bytes :=
  ascii "HTTP/" ++ (decimal m.major.toNat ++ 46 :: decimal m.minor.toNat) ++ space ::
    (decimal m.statusCode.toNat ++ space :: reasonText names m)

theorem sendResponse_text (names : StatusNames) (m : Message) :
    sendResponse names m = codeline names m ++ cr :: lf ::
      (m.headers ++ serialize (lengthFields m) ++ cr :: lf :: m.body) := by
  have blank : ascii " " = [space] := by decide
  have dot : ascii "." = [46] := by decide
  have text : sendResponse names m =
      ascii "HTTP/" ++ decimal m.major.toNat ++ ascii "." ++ decimal m.minor.toNat ++ ascii " " ++
        decimal m.statusCode.toNat ++ ascii " " ++ reasonText names m ++ [cr, lf] ++
        (Response.framed m).headers ++ [cr, lf] ++ (Response.framed m).body := rfl
  rw [text, framed_headers, framed_body, blank, dot, codeline]
  simp

theorem version_oneLine (major minor : Nat) (c : UInt8)
    (member : c ∈ ascii "HTTP/" ++ (decimal major ++ 46 :: decimal minor)) : c ≠ space ∧ c ≠ cr := by
  have name : (ascii "HTTP/").all (fun c => c ≠ space ∧ c ≠ cr) = true := by decide
  rcases List.mem_append.mp member with letters | numbers
  · exact of_decide_eq_true (List.all_eq_true.mp name c letters)
  · rcases List.mem_append.mp numbers with major | rest
    · exact ⟨Response.digit_other c major space rfl, Response.digit_other c major cr rfl⟩
    · rcases List.mem_cons.mp rest with rfl | minor
      · decide
      · exact ⟨Response.digit_other c minor space rfl, Response.digit_other c minor cr rfl⟩

theorem urlline_read {methodName : UInt8 → Bytes} {m : Message}
    (name : methodName m.method ≠ [] ∧ ∀ c ∈ methodName m.method, isTchar c = true)
    (version : m.major.toNat < 10 ∧ m.minor.toNat < 10)
    (target : requestTarget (methodName m.method) m.url = true) :
    requestLine (urlline methodName m) =
        some ⟨methodName m.method, m.url, (m.major.toNat, m.minor.toNat)⟩ ∧
      cr ∉ urlline methodName m := by
  have apart := requestTarget_ne target
  constructor
  · have first : space ∉ methodName m.method := fun member => (isTchar_visible _ (name.2 _ member)).1 rfl
    have second : space ∉ m.url := fun member => (apart _ member).1 rfl
    rw [requestLine, urlline, cut_append first]
    simp only [Option.bind_some, cut_append second, httpVersion_text version]
    exact if_pos ⟨name.1, List.all_eq_true.mpr name.2, target⟩
  · intro member
    rcases List.mem_append.mp member with method | rest
    · exact (isTchar_visible _ (name.2 _ method)).2 rfl
    · rcases List.mem_cons.mp rest with blank | rest
      · exact absurd blank (by decide)
      · rcases List.mem_append.mp rest with url | rest
        · exact (apart _ url).2 rfl
        · rcases List.mem_cons.mp rest with blank | version
          · exact absurd blank (by decide)
          · exact (version_oneLine _ _ _ version).2 rfl

theorem defaultStatusMessage_text {names : StatusNames} {code : UInt16}
    (plain : ∀ c ∈ names.name code, isText c = true) : ∀ c ∈ defaultStatusMessage names code, isText c = true := by
  unfold defaultStatusMessage
  split
  · exact List.all_eq_true.mp (by decide : (ascii "OK").all isText = true)
  · split
    · rename_i e found
      split
      · exact List.all_eq_true.mp (defaultStatusCodes_text e (List.mem_of_find?_eq_some found))
      · exact plain
    · exact plain

theorem codeline_read {names : StatusNames} {m : Message} (version : m.major.toNat < 10 ∧ m.minor.toNat < 10)
    (code : 100 ≤ m.statusCode.toNat ∧ m.statusCode.toNat < 1000)
    (text : ∀ c ∈ reasonText names m, isText c = true) :
    replyLine (codeline names m) =
        some ⟨(m.major.toNat, m.minor.toNat), decimal m.statusCode.toNat, reasonText names m⟩ ∧
      cr ∉ codeline names m := by
  constructor
  · have first : space ∉ ascii "HTTP/" ++ (decimal m.major.toNat ++ 46 :: decimal m.minor.toNat) :=
      fun member => (version_oneLine _ _ _ member).1 rfl
    have second : space ∉ decimal m.statusCode.toNat := fun member =>
      Response.digit_other space member space rfl rfl
    rw [replyLine, codeline, cut_append first]
    simp only [Option.bind_some, httpVersion_text version, cut_append second]
    exact if_pos ⟨(length_decimal_three _).mpr code, (decimal_digits _).2.1, List.all_eq_true.mpr text⟩
  · intro member
    rcases List.mem_append.mp member with version | rest
    · exact (version_oneLine _ _ _ version).2 rfl
    · rcases List.mem_cons.mp rest with blank | rest
      · exact absurd blank (by decide)
      · rcases List.mem_append.mp rest with code | rest
        · exact Response.digit_other cr code cr rfl rfl
        · rcases List.mem_cons.mp rest with blank | reason
          · exact absurd blank (by decide)
          · exact (isText_ne _ (text _ reason)).1 rfl

/-- The head that the receiver of a request should find. -/
def requestHead (methodName : UInt8 → Bytes) (host : Bytes) (setters : List Setter) : Head RequestLine :=
  let m := assemble setters
  ⟨⟨methodName m.method, m.url, (m.major.toNat, m.minor.toNat)⟩,
    added setters ++ hostFields host m ++ lengthFields (withHost host m)⟩

/-- The head that the receiver of a response should find. -/
def replyHead (names : StatusNames) (setters : List Setter) : Head ReplyLine :=
  let m := assemble setters
  ⟨⟨(m.major.toNat, m.minor.toNat), decimal m.statusCode.toNat, reasonText names m⟩,
    added setters ++ lengthFields m⟩

theorem request_read {methodName : UInt8 → Bytes} {host : Bytes} {setters : List Setter}
    (version : (assemble setters).major.toNat < 10 ∧ (assemble setters).minor.toNat < 10)
    (name : methodName (assemble setters).method ≠ [] ∧
      ∀ c ∈ methodName (assemble setters).method, isTchar c = true)
    (target : requestTarget (methodName (assemble setters).method) (assemble setters).url = true)
    (clean : ∀ h ∈ added setters ++ hostFields host (assemble setters), Readable h) :
    readHead requestLine (requestIov methodName host (assemble setters)).flatten =
      some (requestHead methodName host setters, (assemble setters).body) := by
  obtain ⟨text, trimmed⟩ := addedFrom_spec {} setters
  rw [requestIov_eq, assemble, text, ← assemble, List.nil_append, ← serialize_append, ← serialize_append]
  obtain ⟨start, oneLine⟩ := urlline_read name version target
  refine readHead_serialize oneLine start (fun h member => ?_) fun h member => ?_
  · rcases List.mem_append.mp member with given | length
    · exact clean h given
    · exact (lengthFields_readable _ h length).1
  · rcases List.mem_append.mp member with given | length
    · exact (List.mem_append.mp given).elim (trimmed h) (hostFields_trimmed host _ h)
    · exact (lengthFields_readable _ h length).2

theorem request_iff {methodName : UInt8 → Bytes} {setters : List Setter}
    (name : methodName (assemble setters).method ≠ [] ∧
      ∀ c ∈ methodName (assemble setters).method, isTchar c = true) (host body : Bytes) :
    readMessages requestKind (requestIov methodName host (assemble setters)).flatten =
        some [(requestHead methodName host setters, body)] ↔
      ((assemble setters).major.toNat < 10 ∧ (assemble setters).minor.toNat < 10) ∧
        requestTarget (methodName (assemble setters).method) (assemble setters).url = true ∧
        (∀ h ∈ added setters ++ hostFields host (assemble setters), Readable h) ∧
        Delimits none ((assemble setters).major.toNat, (assemble setters).minor.toNat)
          (requestHead methodName host setters).fields (assemble setters).body body := by
  rw [readMessages_one]
  constructor
  · rintro ⟨rest, read, delimits⟩
    obtain ⟨⟨l, start⟩, clean⟩ := readHead_readable read
    obtain ⟨target, version⟩ := requestLine_clean start
    have given : ∀ h ∈ added setters ++ hostFields host (assemble setters), Readable h := fun h member =>
      clean h (List.mem_append_left _ member)
    cases read.symm.trans (request_read version name target given)
    exact ⟨version, target, given, delimits⟩
  · rintro ⟨version, target, clean, delimits⟩
    exact ⟨_, request_read version name target clean, delimits⟩

theorem reply_read {names : StatusNames} {setters : List Setter}
    (version : (assemble setters).major.toNat < 10 ∧ (assemble setters).minor.toNat < 10)
    (code : 100 ≤ (assemble setters).statusCode.toNat ∧ (assemble setters).statusCode.toNat < 1000)
    (reason : ∀ c ∈ reasonText names (assemble setters), isText c = true)
    (clean : ∀ h ∈ added setters, Readable h) :
    readHead replyLine (sendResponse names (assemble setters)) =
      some (replyHead names setters, (assemble setters).body) := by
  obtain ⟨text, trimmed⟩ := addedFrom_spec {} setters
  rw [sendResponse_text, assemble, text, ← assemble, List.nil_append, ← serialize_append]
  obtain ⟨start, oneLine⟩ := codeline_read version code reason
  refine readHead_serialize oneLine start (fun h member => ?_) fun h member => ?_
  · exact (List.mem_append.mp member).elim (clean h) fun length => (lengthFields_readable _ h length).1
  · exact (List.mem_append.mp member).elim (trimmed h) fun length => (lengthFields_readable _ h length).2

theorem reply_iff {names : StatusNames} {setters : List Setter}
    (plain : ∀ c ∈ names.name (assemble setters).statusCode, isText c = true) (body : Bytes) :
    readMessages replyKind (sendResponse names (assemble setters)) = some [(replyHead names setters, body)] ↔
      ((assemble setters).major.toNat < 10 ∧ (assemble setters).minor.toNat < 10) ∧
        (100 ≤ (assemble setters).statusCode.toNat ∧ (assemble setters).statusCode.toNat < 1000) ∧
        (∀ c ∈ (assemble setters).statusMessage, isText c = true) ∧ (∀ h ∈ added setters, Readable h) ∧
        Delimits (some (assemble setters).statusCode.toNat)
          ((assemble setters).major.toNat, (assemble setters).minor.toNat) (replyHead names setters).fields
          (assemble setters).body body := by
  have reason : (∀ c ∈ reasonText names (assemble setters), isText c = true) ↔
      ∀ c ∈ (assemble setters).statusMessage, isText c = true := by
    unfold reasonText
    split
    · rename_i none
      exact iff_of_true (defaultStatusMessage_text plain) (none ▸ List.forall_mem_nil _)
    · exact Iff.rfl
  have status : replyKind.status (replyHead names setters).first = some (assemble setters).statusCode.toNat :=
    number_decimal _
  rw [readMessages_one, status]
  constructor
  · rintro ⟨rest, read, delimits⟩
    obtain ⟨⟨l, start⟩, clean⟩ := readHead_readable read
    obtain ⟨version, three, text⟩ := replyLine_clean start
    have code := (length_decimal_three _).mp three
    have given : ∀ h ∈ added setters, Readable h := fun h member => clean h (List.mem_append_left _ member)
    cases read.symm.trans (reply_read version code text given)
    exact ⟨version, code, reason.mp text, given, delimits⟩
  · rintro ⟨version, code, message, clean, delimits⟩
    exact ⟨_, reply_read version code (reason.mpr message) clean, delimits⟩

/-- The receiver finds one message with the fields that were added, and nothing else, exactly if the
strings put into the message are clean, its numbers have as many digits as they should, and its
fields delimit its body. -/
theorem heads_read_back {methodName : UInt8 → Bytes} {names : StatusNames} {setters : List Setter}
    (name : methodName (assemble setters).method ≠ [] ∧
      ∀ c ∈ methodName (assemble setters).method, isTchar c = true)
    (plain : ∀ c ∈ names.name (assemble setters).statusCode, isText c = true) (host body : Bytes) :
    (readMessages requestKind (requestIov methodName host (assemble setters)).flatten =
        some [(requestHead methodName host setters, body)] ↔
      ((assemble setters).major.toNat < 10 ∧ (assemble setters).minor.toNat < 10) ∧
        requestTarget (methodName (assemble setters).method) (assemble setters).url = true ∧
        (∀ h ∈ added setters ++ hostFields host (assemble setters), Readable h) ∧
        Delimits none ((assemble setters).major.toNat, (assemble setters).minor.toNat)
          (requestHead methodName host setters).fields (assemble setters).body body) ∧
    (readMessages replyKind (sendResponse names (assemble setters)) = some [(replyHead names setters, body)] ↔
      ((assemble setters).major.toNat < 10 ∧ (assemble setters).minor.toNat < 10) ∧
        (100 ≤ (assemble setters).statusCode.toNat ∧ (assemble setters).statusCode.toNat < 1000) ∧
        (∀ c ∈ (assemble setters).statusMessage, isText c = true) ∧ (∀ h ∈ added setters, Readable h) ∧
        Delimits (some (assemble setters).statusCode.toNat)
          ((assemble setters).major.toNat, (assemble setters).minor.toNat) (replyHead names setters).fields
          (assemble setters).body body) :=
  ⟨request_iff name host body, reply_iff plain body⟩

/-- Names for the codes and methods of `twoFields`. -/
def plainNames : StatusNames := ⟨fun _ => [], fun _ => List.not_mem_nil⟩

def plainMethods (v : UInt8) : Bytes := if v = 3 then ascii "POST" else ascii "GET"

def twoFields : List Setter :=
  [.method 3, .url (ascii "/a?b"), .status 404 (ascii "not here"), .header (ascii "Accept") (ascii " text/html "),
    .header (ascii "X-A") [], .body (ascii "data")]

theorem heads_read_back_two :
    readMessages requestKind (requestIov plainMethods (ascii "localhost") (assemble twoFields)).flatten =
        some [(requestHead plainMethods (ascii "localhost") twoFields, ascii "data")] ∧
      readMessages replyKind (sendResponse plainNames (assemble twoFields)) =
        some [(replyHead plainNames twoFields, ascii "data")] := by
  have name : plainMethods (assemble twoFields).method ≠ [] ∧
      ∀ c ∈ plainMethods (assemble twoFields).method, isTchar c = true :=
    ⟨by decide, List.all_eq_true.mp (by decide : (ascii "POST").all isTchar = true)⟩
  have plain : ∀ c ∈ plainNames.name (assemble twoFields).statusCode, isText c = true := List.forall_mem_nil _
  have both := heads_read_back name plain (ascii "localhost") (ascii "data")
  exact ⟨both.1.mpr (by decide +kernel), both.2.mpr (by decide +kernel)⟩

/-- A value with a line end in it, and the fields that it makes. -/
def injected : List Setter := [.header (ascii "X") (ascii "1\r\nSet-Cookie: a")]

def separate : List Setter := [.header (ascii "X") (ascii "1"), .header (ascii "Set-Cookie") (ascii "a")]

/-- The rest of the value is received as a field of its own. -/
theorem value_adds_field :
    readMessages replyKind (sendResponse plainNames (assemble injected)) =
        some [(replyHead plainNames separate, [])] ∧
      ∀ body, readMessages replyKind (sendResponse plainNames (assemble injected)) ≠
        some [(replyHead plainNames injected, body)] := by
  have headers : (assemble injected).headers = (assemble separate).headers := by decide +kernel
  have same : sendResponse plainNames (assemble injected) = sendResponse plainNames (assemble separate) := by
    rw [sendResponse_text, sendResponse_text, headers]
    rfl
  have plain : ∀ c ∈ plainNames.name (assemble separate).statusCode, isText c = true := List.forall_mem_nil _
  have read : readMessages replyKind (sendResponse plainNames (assemble separate)) =
      some [(replyHead plainNames separate, [])] := (reply_iff plain []).mpr (by decide +kernel)
  rw [same, read]
  refine ⟨rfl, fun body equal => ?_⟩
  have fields := congrArg Head.fields (Prod.mk.inj (List.cons.inj (Option.some.inj equal)).1).1
  exact absurd fields (by decide +kernel)

/-- With a length that is not that of the body, the body is read as a message of its own. -/
example : (readMessages replyKind (sendResponse plainNames (assemble
    [.header (ascii "Content-Length") (ascii "0"), .body (ascii "HTTP/1.1 200 OK\r\n\r\n")]))).map List.length =
      some 2 := by decide +kernel

end Cotamer.Http

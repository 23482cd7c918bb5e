import Cotamer.Http.Receive
import Mathlib.Logic.Relation

/-! Callbacks up to the places where spans are cut, and the messages that
complete sequences of callbacks stand for. -/
namespace Cotamer.Http
open Chunked Spans

/-- The same callbacks, with one span cut in two. -/
inductive Cut : List Call → List Call → Prop where
  | split (front : List Call) (k : Span) (s s' : Bytes) (back : List Call) :
      Cut (front ++ .span k (s ++ s') :: back) (front ++ .span k s :: .span k s' :: back)

def Cuts : List Call → List Call → Prop := Relation.EqvGen Cut

variable {cs cs' ds ds' : List Call}

theorem Cuts.refl (cs : List Call) : Cuts cs cs := Relation.EqvGen.refl cs

theorem Cuts.symm (cuts : Cuts cs cs') : Cuts cs' cs := Relation.EqvGen.symm _ _ cuts

theorem Cuts.trans (first : Cuts cs cs') (second : Cuts cs' ds) : Cuts cs ds :=
  Relation.EqvGen.trans _ _ _ first second

/-- What respects one cut respects them all. -/
theorem Cuts.lift {f : List Call → List Call} (respects : ∀ a b, Cut a b → Cut (f a) (f b))
    (cuts : Cuts cs cs') : Cuts (f cs) (f cs') := by
  induction cuts with
  | rel a b cut => exact Relation.EqvGen.rel _ _ (respects a b cut)
  | refl a => exact Cuts.refl _
  | symm a b _ ih => exact Cuts.symm ih
  | trans a b c _ _ first second => exact Cuts.trans first second

theorem Cuts.append (cuts : Cuts cs cs') (more : Cuts ds ds') :
    Cuts (cs ++ ds) (cs' ++ ds') := by
  have left : Cuts (cs ++ ds) (cs' ++ ds) := by
    apply cuts.lift (f := (· ++ ds))
    rintro _ _ ⟨front, k, s, s', back⟩
    simpa using Cut.split front k s s' (back ++ ds)
  refine left.trans ?_
  apply more.lift (f := (cs' ++ ·))
  rintro _ _ ⟨front, k, s, s', back⟩
  simpa using Cut.split (cs' ++ front) k s s' back

/-! The callbacks do not see where spans are cut. -/

theorem onSpan_append (md : MessageData) (k : Span) (s s' : Bytes) :
    (md.onSpan s k).onSpan s' k = md.onSpan (s ++ s') k := by
  cases k with
  | url => simp [MessageData.onSpan, MessageData.onUrl]
  | status hp =>
      simp only [MessageData.onSpan, MessageData.onStatus]
      split
      · split <;> simp [MessageData.copyParserStatus, copyStatus]
      · simp [*]
  | headerField =>
      simp only [MessageData.onSpan, MessageData.onHeaderField]
      split <;> simp [MessageData.appendHeaders, *]
  | headerValue => simp [MessageData.onSpan, MessageData.onHeaderValue, MessageData.appendHeaders]
  | body => simp [MessageData.onSpan, MessageData.onBody]

namespace MessageData

theorem handleAll_append (room : Nat) (md : MessageData) (cs ds : List Call) :
    md.handleAll room (cs ++ ds) = (md.handleAll room cs).bind (·.handleAll room ds) := List.foldlM_append

theorem handleAll_singleton (room : Nat) (md : MessageData) (call : Call) :
    md.handleAll room [call] = md.handle room call := by
  rw [handleAll, List.foldlM_cons]
  exact bind_pure _

theorem handleAll_cons (room : Nat) (md : MessageData) (call : Call) (cs : List Call) :
    md.handleAll room (call :: cs) = (md.handle room call).bind (·.handleAll room cs) := List.foldlM_cons

end MessageData

theorem Cuts.handleAll (cuts : Cuts cs cs') (room : Nat) (md : MessageData) :
    md.handleAll room cs = md.handleAll room cs' := by
  induction cuts with
  | rel a b cut =>
      obtain ⟨front, k, s, s', back⟩ := cut
      rw [MessageData.handleAll_append, MessageData.handleAll_append]
      apply congrArg
      funext md
      simp only [MessageData.handleAll_cons, MessageData.handle, Except.bind, onSpan_append]
  | refl a => rfl
  | symm a b _ ih => exact ih.symm
  | trans a b c _ _ first second => exact first.trans second

/-! Complete messages. -/

/-- What stands between the beginning and the end of a message. A header may
come in any number of spans for its name and its value. -/
inductive Part where
  | url (s : Bytes)
  | status (hp : Status) (s : Bytes)
  | header (names values : List Bytes)
  | headersComplete (hp : Status) (contentLength : UInt64)
  | chunkHeader (contentLength : UInt64)
  | body (s : Bytes)
  deriving DecidableEq, Repr

namespace Part

def calls : Part → List Call
  | .url s => [.span .url s]
  | .status hp s => [.span (.status hp) s]
  | .header names values => names.map (.span .headerField) ++ .headerFieldComplete ::
      values.map (.span .headerValue) ++ [.headerValueComplete]
  | .headersComplete hp contentLength => [.headersComplete hp contentLength]
  | .chunkHeader contentLength => [.chunkHeader contentLength]
  | .body s => [.span .body s]

def urlText : Part → Bytes
  | .url s => s
  | _ => []

def statusText : Part → Bytes
  | .status _ s => s
  | _ => []

def bodyText : Part → Bytes
  | .body s => s
  | _ => []

/-- The name, and the value without trailing blanks. -/
def headers : Part → List (Bytes × Bytes)
  | .header names values => [(names.flatten, values.flatten.rdropWhile isHws)]
  | _ => []

/-- What the header text grows by. -/
def headerText : Part → Bytes
  | .header names values => headerLine (names.flatten, values.flatten)
  | _ => []

/-- What the part has reserved is no more than a string can have, if the body has `n` bytes by then. -/
def Fits (room n : Nat) : Part → Prop
  | .headersComplete _ contentLength | .chunkHeader contentLength => (n + contentLength.toNat) % 2 ^ 64 ≤ room
  | _ => True

/-- Where a header is in the header text, as `unsigned` offsets tell it. -/
def offsetsAt (n : Nat) (name value : Bytes) : KvOffsets :=
  ⟨.ofNat 32 n, .ofNat 32 (n + name.length), .ofNat 32 (n + name.length + 2),
    .ofNat 32 (n + name.length + 2 + value.length)⟩

/-- A header that stands at `n` in the text is found there through such offsets. For an
empty value the offsets must not have wrapped before it. -/
def Found (text : Bytes) (n : Nat) : Part → Prop
  | .header names values =>
    let name := names.flatten
    let value := values.flatten.rdropWhile isHws
    (offsetsAt n name value).name text = name ∧ (offsetsAt n name value).value text = value ∧
      (value = [] → n + name.length + 2 < 2 ^ 32)
  | _ => True

instance (room n : Nat) : ∀ part : Part, Decidable (part.Fits room n)
  | .headersComplete .. | .chunkHeader _ => inferInstanceAs (Decidable (_ ≤ _))
  | .url _ | .status .. | .header .. | .body _ => isTrue trivial

end Part

/-- The parts fit one after the other, after `n` bytes of body. -/
def Fit (room : Nat) : Nat → List Part → Prop
  | _, [] => True
  | n, part :: parts => part.Fits room n ∧ Fit room (n + part.bodyText.length) parts

instance (room : Nat) : ∀ n parts, Decidable (Fit room n parts)
  | _, [] => isTrue trivial
  | n, part :: parts =>
    have := instDecidableFit room (n + part.bodyText.length) parts
    inferInstanceAs (Decidable (_ ∧ _))

/-- The headers of the parts, which stand from `n` on, are found in the text. -/
def AllFound (text : Bytes) : Nat → List Part → Prop
  | _, [] => True
  | n, part :: parts => part.Found text n ∧ AllFound text (n + part.headerText.length) parts

/-- The header text is of four gigabytes at most, or offsets that have wrapped tell the same
headers by chance; and all that is reserved can be. -/
def Receivable (room : Nat) (parts : List Part) : Prop :=
  Fit room 0 parts ∧
    ((parts.flatMap Part.headerText).length ≤ 2 ^ 32 ∨ AllFound (parts.flatMap Part.headerText) 0 parts)

/-- All callbacks of a message. -/
def messageCalls (parts : List Part) : List Call :=
  .messageBegin :: parts.flatMap Part.calls ++ [.messageComplete]

/-- The message has the text of the parts. -/
structure Message.HasText (m : Message) (parts : List Part) : Prop where
  url : m.url = parts.flatMap Part.urlText
  statusMessage : m.statusMessage = parts.flatMap Part.statusText
  body : m.body = parts.flatMap Part.bodyText
  headers : m.headers = parts.flatMap Part.headerText

/-- It gives their headers too. -/
structure Message.Has (m : Message) (parts : List Part) : Prop extends m.HasText parts where
  headerList : m.headerList = parts.flatMap Part.headers

/-! Building a message. -/

theorem onSpans_header (room : Nat) (md : MessageData) (names : List Bytes) (k : Span) :
    md.handleAll room (names.map (.span k)) = .ok (if names = [] then md else md.onSpan names.flatten k) := by
  induction names generalizing md with
  | nil => rfl
  | cons name names ih =>
      rw [List.map_cons, MessageData.handleAll_cons]
      refine (ih _).trans ?_
      cases names with
      | nil => simp
      | cons name' names => simp [onSpan_append]

/-- The loop over trailing blanks stops where the value without them ends, if it stops at the
beginning of a value of blanks. -/
theorem stripFrom_value (front value : Bytes) (low : Nat) (order : low ≤ front.length)
    (stops : value.rdropWhile isHws = [] → low = front.length) :
    MessageData.stripFrom (front ++ value) low (front.length + value.length) =
      front.length + (value.rdropWhile isHws).length := by
  induction value using List.reverseRecOn with
  | nil =>
      obtain rfl := stops rfl
      rw [List.append_nil, List.length_nil, List.rdropWhile_nil, List.length_nil, Nat.add_zero]
      cases front with
      | nil => rfl
      | cons c front => simp [MessageData.stripFrom]
  | append_singleton value c ih =>
      have last : (front ++ (value ++ [c]))[front.length + value.length]? = some c := by
        simp
      have same : ∀ n, n ≤ front.length + value.length →
          MessageData.stripFrom (front ++ (value ++ [c])) low n =
            MessageData.stripFrom (front ++ value) low n := by
        intro n
        induction n with
        | zero => exact fun _ => rfl
        | succ n ih =>
            intro bound
            have here : (front ++ (value ++ [c]))[n]? = (front ++ value)[n]? := by
              rw [← List.append_assoc, List.getElem?_append_left]
              rw [List.length_append]
              omega
            simp only [MessageData.stripFrom, here, ih (by omega)]
      rw [List.rdropWhile_concat] at stops
      rw [List.length_append, List.length_singleton, ← Nat.add_assoc, MessageData.stripFrom, last,
        List.rdropWhile_concat]
      cases blank : isHws c with
      | true =>
          rw [blank, if_pos rfl] at stops
          rw [if_pos ⟨by omega, blank⟩, if_pos rfl, same _ (Nat.le_refl _), ih stops]
      | false =>
          rw [if_neg (fun both => by simp [blank] at both), if_neg Bool.false_ne_true]
          simp
          omega

/-- The offsets that the callbacks of a header give. -/
def headerOffsets (headers : Bytes) (names values : Bytes) : KvOffsets :=
  let name1 : BitVec 32 := .ofNat 32 headers.length
  let name2 : BitVec 32 := .ofNat 32 (headers.length + names.length)
  let text := headers ++ names ++ [colon, space] ++ values
  ⟨name1, name2, name2 + 2, .ofNat 32 (MessageData.stripFrom text (name2 + 2).toNat text.length)⟩

/-- The offsets that a part adds to the index, after the header text `front`. -/
def Part.offsets (front : Bytes) : Part → List KvOffsets
  | .header names values => [headerOffsets front names.flatten values.flatten]
  | _ => []

def indexFrom (front : Bytes) : List Part → List KvOffsets
  | [] => []
  | part :: parts => part.offsets front ++ indexFrom (front ++ part.headerText) parts

theorem indexFrom_snoc (front : Bytes) (parts : List Part) (part : Part) :
    indexFrom front (parts ++ [part]) =
      indexFrom front parts ++ part.offsets (front ++ parts.flatMap Part.headerText) := by
  induction parts generalizing front with
  | nil => simp [indexFrom]
  | cons first parts ih =>
      rw [List.cons_append, indexFrom, ih, indexFrom, List.flatMap_cons]
      simp only [List.append_assoc]

/-- What a message has become after some parts, between two parts. -/
structure Built (parts : List Part) (md : MessageData) : Prop where
  state : md.state = .unknown
  text : md.hm.HasText parts
  hpairs : md.hm.hpairs = indexFrom [] parts

theorem header_calls (room : Nat) (md : MessageData) (between : md.state = .unknown) (names values : List Bytes) :
    ∃ md', md.handleAll room (Part.header names values).calls = .ok md' ∧ md'.state = .unknown ∧
      md'.hm = { md.hm with
        headers := md.hm.headers ++ headerLine (names.flatten, values.flatten)
        hpairs := md.hm.hpairs ++ [headerOffsets md.hm.headers names.flatten values.flatten] } := by
  have value : ∀ md : MessageData,
      (if values = [] then md else md.onSpan values.flatten .headerValue) =
        md.appendHeaders values.flatten := by
    intro md
    split
    · rename_i none
      simp [none, MessageData.appendHeaders]
    · rfl
  let named : MessageData :=
    { md with
      name1 := md.offset
      name2 := .ofNat 32 (md.hm.headers.length + names.flatten.length)
      value1 := .ofNat 32 (md.hm.headers.length + names.flatten.length) + 2
      hm := { md.hm with headers := md.hm.headers ++ names.flatten ++ [colon, space] }
      state := .headerValue }
  have name : (if names = [] then md else md.onSpan names.flatten .headerField).onHeaderFieldComplete = named := by
    unfold named
    split
    · rename_i none
      simp [none, MessageData.onHeaderFieldComplete, MessageData.appendHeaders, between,
        MessageData.offset]
    · simp [MessageData.onSpan, MessageData.onHeaderField, MessageData.onHeaderFieldComplete,
        MessageData.appendHeaders, between, MessageData.offset]
  refine ⟨(named.appendHeaders values.flatten).onHeaderValueComplete, ?_, rfl, ?_⟩
  · simp only [Part.calls, MessageData.handleAll_append, MessageData.handleAll_cons, onSpans_header,
      MessageData.handle, Except.bind, name, value]
    rfl
  · simp [named, MessageData.onHeaderValueComplete, MessageData.appendHeaders, headerOffsets, headerLine,
      MessageData.offset]

theorem length_headerLine_le (name value : Bytes) :
    name.length + value.length + 4 = (headerLine (name, value)).length := by
  simp only [headerLine, List.length_append, List.length_cons, List.length_nil]
  omega

/-- A value of blanks, where offsets have wrapped: the loop goes on up to the colon. -/
theorem stripFrom_blank (front names values : Bytes) (low : Nat) (order : low ≤ front.length + names.length)
    (blank : values.rdropWhile isHws = []) :
    MessageData.stripFrom (front ++ names ++ [colon, space] ++ values) low
      (front ++ names ++ [colon, space] ++ values).length = front.length + names.length + 1 := by
  have stop : ([colon, space] ++ values).rdropWhile isHws = [colon] := by
    induction values using List.reverseRecOn with
    | nil => decide
    | append_singleton values c ih =>
        rw [List.rdropWhile_concat] at blank
        split at blank
        · rename_i last
          rw [← List.append_assoc, List.rdropWhile_concat, if_pos last, ih blank]
        · exact absurd blank (List.append_ne_nil_of_right_ne_nil _ (List.cons_ne_nil _ _))
  have strip := stripFrom_value (front ++ names) ([colon, space] ++ values) low
    (by rwa [List.length_append]) fun none => absurd (stop.symm.trans none) (List.cons_ne_nil _ _)
  rwa [stop, ← List.append_assoc, ← List.length_append, ← List.append_assoc, @List.length_append _ front]
    at strip

/-- The offsets of a header give its name and its value without trailing blanks exactly if they
can be found through offsets that wrap. -/
theorem headerOffsets_found (front names values more : Bytes) :
    let text := front ++ headerLine (names, values) ++ more
    let p := headerOffsets front names values
    (p.name text, p.value text) = (names, values.rdropWhile isHws) ↔
      (Part.header [names] [values]).Found text front.length := by
  intro text p
  have two : (2 : BitVec 32) = .ofNat 32 2 := rfl
  have value1 : (BitVec.ofNat 32 (front.length + names.length) + 2 : BitVec 32) =
      .ofNat 32 (front.length + names.length + 2) := by
    rw [two, ← BitVec.ofNat_add]
  have low : (BitVec.ofNat 32 (front.length + names.length + 2)).toNat ≤ front.length + names.length + 2 :=
    Nat.mod_le ..
  have start : (front ++ names ++ [colon, space]).length = front.length + names.length + 2 := by
    simp only [List.length_append, List.length_cons, List.length_nil]
  simp only [Part.Found, List.flatten_singleton, Prod.mk.injEq]
  by_cases plain : values.rdropWhile isHws = [] → front.length + names.length + 2 < 2 ^ 32
  · have strip := stripFrom_value (front ++ names ++ [colon, space]) values _
      (low.trans start.ge) fun blank => by rw [start, Message.toNat_offset _ (plain blank)]
    have same : p = Part.offsetsAt front.length names (values.rdropWhile isHws) := by
      simp only [p, headerOffsets, Part.offsetsAt, value1]
      rw [@List.length_append _ _ values, strip, start]
    rw [same]
    exact ⟨fun ⟨name, value⟩ => ⟨name, value, plain⟩, fun ⟨name, value, _⟩ => ⟨name, value⟩⟩
  · -- the value becomes longer than any that has an end in the text
    obtain ⟨blank, wraps⟩ := Classical.not_imp.mp plain
    refine iff_of_false (fun ⟨_, value⟩ => ?_) fun ⟨_, _, below⟩ => wraps (below blank)
    have wrapped : (BitVec.ofNat 32 (front.length + names.length + 2)).toNat + 2 ^ 32 ≤
        front.length + names.length + 2 := by
      rw [BitVec.toNat_ofNat]
      omega
    have strip := stripFrom_blank front names values (BitVec.ofNat 32 (front.length + names.length + 2)).toNat
      (by omega) blank
    have same : p = ⟨.ofNat 32 front.length, .ofNat 32 (front.length + names.length),
        .ofNat 32 (front.length + names.length + 2), .ofNat 32 (front.length + names.length + 1)⟩ := by
      simp only [p, headerOffsets, value1, strip]
    have long : (BitVec.ofNat 32 (front.length + names.length + 1) -
        BitVec.ofNat 32 (front.length + names.length + 2)).toNat = 2 ^ 32 - 1 := by
      rw [BitVec.ofNat_add, BitVec.ofNat_add (y := 2)]
      generalize BitVec.ofNat 32 (front.length + names.length) = x
      bv_omega
    have inside : (BitVec.ofNat 32 (front.length + names.length + 2)).toNat < text.length := by
      simp only [text, headerLine, List.length_append, List.length_cons, List.length_nil]
      omega
    have none := congrArg List.length value
    rw [same, KvOffsets.value, long, blank, slice, List.length_take, List.length_drop, List.length_nil] at none
    dsimp only at none
    omega

/-- Nothing wraps in a header text of four gigabytes. -/
theorem allFound_short {text : Bytes} {front : Bytes} {parts : List Part}
    (whole : text = front ++ parts.flatMap Part.headerText) (short : text.length ≤ 2 ^ 32) :
    AllFound text front.length parts := by
  induction parts generalizing front with
  | nil => trivial
  | cons part parts ih =>
      rw [List.flatMap_cons, ← List.append_assoc] at whole
      refine ⟨?_, by simpa using ih whole⟩
      cases part with
      | header names values =>
          obtain ⟨blanks, split⟩ := List.rdropWhile_prefix isHws values.flatten
          have length := congrArg List.length split
          rw [whole, List.length_append, Part.headerText, List.length_append, ← length_headerLine_le] at short
          rw [List.length_append] at length
          obtain ⟨inside, views⟩ := Message.offsets_views
            (p := Part.offsetsAt front.length names.flatten (values.flatten.rdropWhile isHws)) front
            names.flatten (values.flatten.rdropWhile isHws) blanks (by omega) rfl
          have here := inside.append (parts.flatMap Part.headerText)
          rw [split] at here views
          rw [views] at here
          rw [whole]
          exact ⟨congrArg Prod.fst here, congrArg Prod.snd here, fun _ => by omega⟩
      | _ => trivial

/-- The index of a message gives its headers exactly if they can be found so. -/
theorem indexFrom_found {text : Bytes} {front : Bytes} {parts : List Part}
    (whole : text = front ++ parts.flatMap Part.headerText) :
    (indexFrom front parts).map (fun p => (p.name text, p.value text)) = parts.flatMap Part.headers ↔
      AllFound text front.length parts := by
  induction parts generalizing front with
  | nil => exact iff_of_true rfl trivial
  | cons part parts ih =>
      rw [List.flatMap_cons, ← List.append_assoc] at whole
      have rest := ih whole
      rw [List.length_append] at rest
      rw [indexFrom, List.map_append, List.flatMap_cons, AllFound, ← rest]
      cases part with
      | header names values =>
          have first := headerOffsets_found front names.flatten values.flatten (parts.flatMap Part.headerText)
          have joined : (Part.header [names.flatten] [values.flatten]).Found text front.length ↔
              (Part.header names values).Found text front.length := by
            simp only [Part.Found, List.flatten_singleton]
          rw [Part.headerText] at whole
          rw [← whole] at first
          simp only [Part.offsets, Part.headers, List.map_singleton, List.singleton_append, List.cons.injEq]
          exact and_congr_left fun _ => first.trans joined
      | _ => exact (iff_of_eq (true_and _)).symm

/-! All parts of a message. -/

variable {before : List Part} {md : MessageData} {room : Nat}

/-- A part that is no header. -/
theorem Built.plain {parts : List Part} {md' : MessageData} {part : Part} (built : Built parts md)
    (state : md'.state = .unknown) (url : md'.hm.url = md.hm.url ++ part.urlText)
    (status : md'.hm.statusMessage = md.hm.statusMessage ++ part.statusText)
    (body : md'.hm.body = md.hm.body ++ part.bodyText) (headers : md'.hm.headers = md.hm.headers)
    (hpairs : md'.hm.hpairs = md.hm.hpairs) (noText : part.headerText = [])
    (noHeader : ∀ front, part.offsets front = []) : Built (parts ++ [part]) md' where
  state := state
  text := by
    have text := built.text
    refine ⟨?_, ?_, ?_, ?_⟩
    · rw [url, text.url, List.flatMap_append, List.flatMap_singleton]
    · rw [status, text.statusMessage, List.flatMap_append, List.flatMap_singleton]
    · rw [body, text.body, List.flatMap_append, List.flatMap_singleton]
    · rw [headers, text.headers, List.flatMap_append, List.flatMap_singleton, noText, List.append_nil]
  hpairs := by rw [hpairs, built.hpairs, indexFrom_snoc, noHeader, List.append_nil]

/-- A part is built, or what it reserves is too much. -/
theorem Built.part {parts : List Part} (built : Built parts md) (part : Part) :
    (part.Fits room md.hm.body.length →
      ∃ md', md.handleAll room part.calls = .ok md' ∧ Built (parts ++ [part]) md') ∧
    (¬part.Fits room md.hm.body.length → md.handleAll room part.calls = .error .lengthError) := by
  cases part with
  | url s =>
      refine ⟨fun _ => ⟨_, rfl, ?_⟩, fun unfit => absurd trivial unfit⟩
      exact built.plain rfl rfl (List.append_nil _).symm (List.append_nil _).symm rfl rfl rfl fun _ => rfl
  | status hp s =>
      refine ⟨fun _ => ⟨md.onStatus hp s, rfl, ?_⟩, fun unfit => absurd trivial unfit⟩
      unfold MessageData.onStatus
      split
      · exact built.plain rfl (List.append_nil _).symm rfl (List.append_nil _).symm rfl rfl rfl fun _ => rfl
      · exact built.plain rfl (List.append_nil _).symm rfl (List.append_nil _).symm rfl rfl rfl fun _ => rfl
  | header names values =>
      obtain ⟨md', handled, state, hm⟩ := header_calls room md built.state names values
      refine ⟨fun _ => ⟨md', handled, state, ?_, ?_⟩, fun unfit => absurd trivial unfit⟩
      · obtain ⟨url, status, body, headers⟩ := built.text
        rw [hm]
        refine ⟨?_, ?_, ?_, ?_⟩
        · simpa [Part.urlText] using url
        · simpa [Part.statusText] using status
        · simpa [Part.bodyText] using body
        · simp [Part.headerText, headers]
      · rw [hm, indexFrom_snoc, ← built.hpairs, List.nil_append, ← built.text.headers]
        rfl
  | headersComplete hp contentLength =>
      rw [Part.calls, MessageData.handleAll_singleton]
      refine ⟨fun fits => ⟨md.copyParserStatus hp, if_pos fits, ?_⟩, fun unfit => if_neg unfit⟩
      exact built.plain built.state (List.append_nil _).symm (List.append_nil _).symm
        (List.append_nil _).symm rfl rfl rfl fun _ => rfl
  | chunkHeader contentLength =>
      rw [Part.calls, MessageData.handleAll_singleton]
      refine ⟨fun fits => ⟨md, if_pos fits, ?_⟩, fun unfit => if_neg unfit⟩
      exact built.plain built.state (List.append_nil _).symm (List.append_nil _).symm
        (List.append_nil _).symm rfl rfl rfl fun _ => rfl
  | body s =>
      refine ⟨fun _ => ⟨_, rfl, ?_⟩, fun unfit => absurd trivial unfit⟩
      exact built.plain built.state (List.append_nil _).symm (List.append_nil _).symm rfl rfl rfl rfl fun _ => rfl

theorem Built.parts (room : Nat) (built : Built before md) (parts : List Part) :
    (Fit room md.hm.body.length parts →
      ∃ md', md.handleAll room (parts.flatMap Part.calls) = .ok md' ∧ Built (before ++ parts) md') ∧
    (¬Fit room md.hm.body.length parts →
      md.handleAll room (parts.flatMap Part.calls) = .error .lengthError) := by
  induction parts generalizing before md with
  | nil => exact ⟨fun _ => ⟨md, rfl, (List.append_nil before).symm ▸ built⟩, fun unfit => absurd trivial unfit⟩
  | cons part parts ih =>
      rw [List.flatMap_cons, MessageData.handleAll_append]
      by_cases first : part.Fits room md.hm.body.length
      · obtain ⟨md', handled, next⟩ := (built.part part).1 first
        have body : md'.hm.body.length = md.hm.body.length + part.bodyText.length := by
          rw [next.text.body, built.text.body, List.flatMap_append, List.flatMap_singleton, List.length_append]
        obtain ⟨fit, unfit⟩ := ih next
        rw [body, List.append_assoc] at fit
        rw [body] at unfit
        rw [handled]
        exact ⟨fun all => fit all.2, fun none => unfit fun rest => none ⟨first, rest⟩⟩
      · rw [(built.part part).2 first]
        exact ⟨fun all => absurd all.1 first, fun _ => rfl⟩

theorem Built.has {parts : List Part} (built : Built parts md) :
    md.hm.Has parts ↔ AllFound (parts.flatMap Part.headerText) 0 parts := by
  have exactly := @indexFrom_found _ [] parts rfl
  rw [List.nil_append, ← built.hpairs, ← built.text.headers] at exactly
  rw [← built.text.headers]
  exact ⟨fun has => exactly.mp has.headerList, fun found => ⟨built.text, exactly.mpr found⟩⟩

/-- A fresh message that goes through the callbacks of a message. -/
theorem messageCalls_built (room : Nat) (md : MessageData) (fresh : md.hm.headers = []) (parts : List Part) :
    (Fit room 0 parts → ∃ md', md.handleAll room (messageCalls parts) = .ok md' ∧ md'.state = .done ∧
      Built parts { md' with state := .unknown }) ∧
    (¬Fit room 0 parts → md.handleAll room (messageCalls parts) = .error .lengthError) := by
  have start : Built [] md.onMessageBegin := ⟨rfl, ⟨rfl, rfl, rfl, fresh⟩, rfl⟩
  obtain ⟨fit, unfit⟩ := start.parts room parts
  have calls : md.handleAll room (messageCalls parts) =
      (md.onMessageBegin.handleAll room (parts.flatMap Part.calls)).bind
        fun md => .ok { md with state := .done } := by
    rw [messageCalls, List.cons_append, MessageData.handleAll_cons, MessageData.handle, Except.bind,
      MessageData.handleAll_append]
    rfl
  rw [calls]
  refine ⟨fun fits => ?_, fun none => ?_⟩
  · obtain ⟨md', handled, built⟩ := fit fits
    rw [handled]
    exact ⟨_, rfl, rfl, rfl, built.text, built.hpairs⟩
  · rw [unfit none]
    rfl

end Cotamer.Http

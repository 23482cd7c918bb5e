import Cotamer.Chunked
import Cotamer.Spans
import Cotamer.Transition
import Mathlib.Data.List.DropRight

/-! `http_message`: the header block as it is sent, and the index into it. -/
namespace Cotamer.Http
open Chunked Spans Transition

abbrev Bytes := List UInt8

def ascii (s : String) : Bytes := s.toList.map fun c => c.toNat.toUInt8

def colon : UInt8 := 58
def space : UInt8 := 32
def tab : UInt8 := 9

/-- `http_kvoffsets`: offsets are `unsigned`, and so are their differences. -/
structure KvOffsets where
  name1 : BitVec 32
  name2 : BitVec 32
  value1 : BitVec 32
  value2 : BitVec 32
  deriving DecidableEq, Repr

namespace KvOffsets

def name (p : KvOffsets) (base : Bytes) : Bytes :=
  slice base p.name1.toNat (p.name1.toNat + (p.name2 - p.name1).toNat)

def value (p : KvOffsets) (base : Bytes) : Bytes :=
  slice base p.value1.toNat (p.value1.toNat + (p.value2 - p.value1).toNat)

end KvOffsets

/-- `info_type`, what is cached about the url. -/
structure Info where
  flags : BitVec 32 := 0
  f : List (Nat × Nat) := [(0, 0), (0, 0), (0, 0)]
  qurl : Bytes := []
  qpairs : List KvOffsets := []
  deriving DecidableEq, Repr

/-- `http_message` -/
structure Message where
  major : UInt8 := 1
  minor : UInt8 := 1
  method : UInt8 := 1                 -- HTTP_GET
  error : UInt8 := 0                  -- HPE_OK
  statusCode : UInt16 := 200
  upgrade : Bool := false
  hasBody : Bool := false
  url : Bytes := []
  statusMessage : Bytes := []
  headers : Bytes := []
  hpairs : List KvOffsets := []
  body : Bytes := []
  info : Option Info := none
  deriving DecidableEq, Repr

/-- `strings::trim_hws` -/
def isHws (c : UInt8) : Bool := c == space || c == tab
def trimHws (s : Bytes) : Bytes := (s.dropWhile isHws).rdropWhile isHws

/-- `strings::ieq`, ignoring ASCII case. -/
def lower (c : UInt8) : UInt8 := if 65 ≤ c && c ≤ 90 then c + 32 else c
def ieq (a b : Bytes) : Bool := a.map lower == b.map lower

namespace Message

/-- What `header_begin` to `header_end` iterates. -/
def headerList (m : Message) : List (Bytes × Bytes) :=
  m.hpairs.map fun p => (p.name m.headers, p.value m.headers)

def hasHeader (m : Message) (name : Bytes) : Bool := m.headerList.any fun h => ieq h.1 name

/-- `header`: the values of all fields of that name. -/
def header (m : Message) (name : Bytes) : Bytes :=
  (ascii ", ").intercalate ((m.headerList.filter fun h => ieq h.1 name).map Prod.snd)

def addHeader (m : Message) (key value : Bytes) : Message :=
  let name1 := m.headers.length
  let name2 := name1 + key.length
  let headers := m.headers ++ key ++ [colon, space] ++ trimHws value ++ [cr, lf]
  { m with
    headers
    hpairs := m.hpairs ++ [⟨.ofNat 32 name1, .ofNat 32 name2, .ofNat 32 (name2 + 2),
      .ofNat 32 (headers.length - 2)⟩] }

/-- `body(std::string)` -/
def setBody (m : Message) (body : Bytes) : Message := { m with body, hasBody := true }

def appendBody (m : Message) (str : Bytes) : Message := { m with body := m.body ++ str, hasBody := true }

/-- `body(const Json&)`; `dump` is the text of the value. -/
def jsonBody (m : Message) (dump : Bytes) : Message :=
  let m := if m.hasHeader (ascii "Content-Type") then m
    else m.addHeader (ascii "Content-Type") (ascii "application/json")
  { m with body := dump, hasBody := true }

/-- `clear`, that is `do_clear`. -/
def clear (m : Message) : Message :=
  { m with
    major := 1, minor := 1, statusCode := 200, method := 1, error := 0, upgrade := false
    hasBody := false, url := [], statusMessage := [], body := [], hpairs := []
    info := m.info.map fun info => { info with flags := 0 } }

/-- `http_message(const http_message&)` -/
def copyConstruct (x : Message) : Message :=
  { major := x.major, minor := x.minor, method := x.method, error := x.error,
    statusCode := x.statusCode, upgrade := x.upgrade, hasBody := x.hasBody, url := x.url,
    statusMessage := x.statusMessage, headers := x.headers, body := x.body }

/-- `operator=(const http_message&)`, of another message. -/
def copyAssign (m x : Message) : Message :=
  { m with
    major := x.major, minor := x.minor, method := x.method, error := x.error
    statusCode := x.statusCode, upgrade := x.upgrade, hasBody := x.hasBody, url := x.url
    statusMessage := x.statusMessage, headers := x.headers, hpairs := x.hpairs, body := x.body
    info := m.info.map fun info => { info with flags := 0 } }

/-- `url(std::string)` -/
def setUrl (m : Message) (url : Bytes) : Message :=
  { m with url, info := m.info.map fun info => { info with flags := info.flags &&& ~~~3#32 } }

/-- `status_code(unsigned, std::string)` -/
def setStatus (m : Message) (code : UInt16) (message : Bytes) : Message :=
  { m with statusCode := code, statusMessage := message }

end Message

/-- A header line as it is sent. -/
def headerLine (h : Bytes × Bytes) : Bytes := h.1 ++ [colon, space] ++ h.2 ++ [cr, lf]

def serialize (hs : List (Bytes × Bytes)) : Bytes := (hs.map headerLine).flatten

/-- The offsets of one header, in order, lie inside the text. -/
def KvOffsets.Inside (p : KvOffsets) (length : Nat) : Prop :=
  p.name1.toNat ≤ p.name2.toNat ∧ p.name2.toNat ≤ p.value1.toNat ∧
    p.value1.toNat ≤ p.value2.toNat ∧ p.value2.toNat ≤ length

/-- The header text is the concatenation of the indexed headers. -/
structure Message.InStep (m : Message) : Prop where
  text : m.headers = serialize m.headerList
  inside : ∀ p ∈ m.hpairs, p.Inside m.headers.length

section Views
variable {p : KvOffsets} {base : Bytes} {n : Nat}

theorem KvOffsets.Inside.mono (inside : p.Inside n) (longer : n ≤ n') : p.Inside n' :=
  ⟨inside.1, inside.2.1, inside.2.2.1, inside.2.2.2.trans longer⟩

theorem span_end {a b : BitVec 32} (order : a.toNat ≤ b.toNat) : a.toNat + (b - a).toNat = b.toNat := by
  rw [BitVec.toNat_sub_of_le order, Nat.add_sub_cancel' order]

theorem KvOffsets.Inside.name (inside : p.Inside n) :
    p.name base = slice base p.name1.toNat p.name2.toNat := by
  rw [KvOffsets.name, span_end inside.1]

theorem KvOffsets.Inside.value (inside : p.Inside n) :
    p.value base = slice base p.value1.toNat p.value2.toNat := by
  rw [KvOffsets.value, span_end inside.2.2.1]

/-- Text that is added later does not change what the offsets give. -/
theorem KvOffsets.Inside.append (inside : p.Inside base.length) (more : Bytes) :
    (p.name (base ++ more), p.value (base ++ more)) = (p.name base, p.value base) := by
  have ⟨_, first, second, last⟩ := inside
  rw [KvOffsets.Inside.name inside, KvOffsets.Inside.value inside, KvOffsets.Inside.name inside,
    KvOffsets.Inside.value inside, slice_append _ last,
    slice_append _ (first.trans (second.trans last))]

end Views

namespace Message

variable {m x : Message} {key value : Bytes}

/-- The bytes a header takes. -/
def lineLength (key value : Bytes) : Nat := key.length + (trimHws value).length + 4

theorem addHeader_headers (m : Message) (key value : Bytes) :
    (m.addHeader key value).headers = m.headers ++ headerLine (key, trimHws value) := by
  simp only [addHeader, headerLine, List.append_assoc]

theorem length_headerLine (key value : Bytes) :
    (headerLine (key, trimHws value)).length = lineLength key value := by
  simp only [headerLine, lineLength, List.length_append, List.length_cons, List.length_nil]
  omega

/-- The offsets of the new header. -/
def newPair (m : Message) (key value : Bytes) : KvOffsets :=
  ⟨.ofNat 32 m.headers.length, .ofNat 32 (m.headers.length + key.length),
    .ofNat 32 (m.headers.length + key.length + 2),
    .ofNat 32 (m.headers.length + key.length + 2 + (trimHws value).length)⟩

theorem addHeader_hpairs (m : Message) (key value : Bytes) :
    (m.addHeader key value).hpairs = m.hpairs ++ [m.newPair key value] := by
  have last : (m.headers ++ key ++ [colon, space] ++ trimHws value ++ [cr, lf]).length - 2 =
      m.headers.length + key.length + 2 + (trimHws value).length := by
    simp only [List.length_append, List.length_cons, List.length_nil]
    omega
  simp only [addHeader, newPair, last]

theorem toNat_offset (n : Nat) (fits : n < 2 ^ 32) : (BitVec.ofNat 32 n).toNat = n := by
  rw [BitVec.toNat_ofNat, Nat.mod_eq_of_lt fits]

/-- The offsets of a header that is written after `front`, when blanks after its
value are left out. -/
theorem offsets_views {p : KvOffsets} (front name value blanks : Bytes)
    (fits : front.length + name.length + value.length + blanks.length + 4 ≤ 2 ^ 32)
    (offsets : p = ⟨.ofNat 32 front.length, .ofNat 32 (front.length + name.length),
      .ofNat 32 (front.length + name.length + 2),
      .ofNat 32 (front.length + name.length + 2 + value.length)⟩) :
    p.Inside (front ++ headerLine (name, value ++ blanks)).length ∧
    (p.name (front ++ headerLine (name, value ++ blanks)),
      p.value (front ++ headerLine (name, value ++ blanks))) = (name, value) := by
  subst offsets
  have a := toNat_offset front.length (by omega)
  have b := toNat_offset (front.length + name.length) (by omega)
  have c := toNat_offset (front.length + name.length + 2) (by omega)
  have d := toNat_offset (front.length + name.length + 2 + value.length) (by omega)
  have inside : KvOffsets.Inside ⟨.ofNat 32 front.length, .ofNat 32 (front.length + name.length),
      .ofNat 32 (front.length + name.length + 2),
      .ofNat 32 (front.length + name.length + 2 + value.length)⟩
      (front ++ headerLine (name, value ++ blanks)).length := by
    simp only [KvOffsets.Inside, a, b, c, d, headerLine, List.length_append, List.length_cons,
      List.length_nil]
    omega
  refine ⟨inside, Prod.ext ?_ ?_⟩
  · rw [KvOffsets.Inside.name inside]
    simp only [a, b, headerLine]
    exact slice_at (List.append_assoc _ _ _ |>.trans (List.append_assoc _ _ _)) rfl rfl front rfl
  · rw [KvOffsets.Inside.value inside]
    simp only [c, d, headerLine]
    have split : front ++ (name ++ [colon, space] ++ (value ++ blanks) ++ [cr, lf]) =
        front ++ name ++ [colon, space] ++ (value ++ (blanks ++ [cr, lf])) := by
      simp only [List.append_assoc]
    rw [split]
    apply slice_at rfl rfl rfl
    simp only [List.length_append, List.length_cons, List.length_nil]

/-- With offsets below 2^32, the new pair gives the new header. -/
theorem newPair_views (fits : m.headers.length + lineLength key value ≤ 2 ^ 32) :
    (m.newPair key value).Inside (m.headers.length + lineLength key value) ∧
    ((m.newPair key value).name (m.headers ++ headerLine (key, trimHws value)),
      (m.newPair key value).value (m.headers ++ headerLine (key, trimHws value))) =
        (key, trimHws value) := by
  have views := offsets_views (p := m.newPair key value) m.headers key (trimHws value) []
    (by simp only [lineLength, List.length_nil] at fits ⊢; omega) rfl
  rwa [List.append_nil, List.length_append, length_headerLine] at views

theorem headerList_append (m : Message) (more : Bytes) (inside : ∀ p ∈ m.hpairs, p.Inside m.headers.length) :
    m.hpairs.map (fun p => (p.name (m.headers ++ more), p.value (m.headers ++ more))) = m.headerList :=
  List.map_congr_left fun p member => (inside p member).append more

/-- `add_header` keeps text and index in step. -/
theorem InStep.addHeader (inStep : m.InStep) (fits : m.headers.length + lineLength key value ≤ 2 ^ 32) :
    (m.addHeader key value).InStep ∧
      (m.addHeader key value).headerList = m.headerList ++ [(key, trimHws value)] := by
  obtain ⟨inside, views⟩ := newPair_views fits
  have list : (m.addHeader key value).headerList = m.headerList ++ [(key, trimHws value)] := by
    rw [headerList, addHeader_hpairs, addHeader_headers, List.map_append,
      headerList_append m _ inStep.inside, List.map_singleton, views]
  refine ⟨⟨?_, ?_⟩, list⟩
  · rw [addHeader_headers, list, serialize, List.map_append, List.flatten_append, ← serialize,
      ← inStep.text]
    simp
  · rw [addHeader_headers, addHeader_hpairs, List.length_append, length_headerLine]
    intro p member
    rcases List.mem_append.mp member with old | new
    · exact (inStep.inside p old).mono (Nat.le_add_right _ _)
    · rw [List.mem_singleton.mp new]
      exact inside

end Message
end Cotamer.Http

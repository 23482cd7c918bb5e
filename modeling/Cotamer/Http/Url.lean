import Cotamer.Http.Message

/-! The parts of a url as `make_info` finds them, and the parameters of its search part. -/
namespace Cotamer.Http
open Spans

def percent : UInt8 := 37
def ampersand : UInt8 := 38
def plus : UInt8 := 43
def slash : UInt8 := 47
def equals : UInt8 := 61
def question : UInt8 := 63
def octothorpe : UInt8 := 35

def usSafe : UInt8 := 1
def usHttpTchar : UInt8 := 2
def usHex : UInt8 := 4

/-- `chartable` -/
def chartable (c : UInt8) : UInt8 :=
  if 48 ≤ c && c ≤ 57 then usSafe ||| usHttpTchar ||| usHex ||| ((c - 48) <<< 4)
  else if 65 ≤ c && c ≤ 70 then usSafe ||| usHttpTchar ||| usHex ||| ((c - 65 + 10) <<< 4)
  else if 97 ≤ c && c ≤ 102 then usSafe ||| usHttpTchar ||| usHex ||| ((c - 97 + 10) <<< 4)
  else if (71 ≤ c && c ≤ 90) || (103 ≤ c && c ≤ 122) then usSafe ||| usHttpTchar
  else
    (if (ascii "!#$%&'*+-.^_\x60|~").contains c then usHttpTchar else 0) |||
      if (ascii "!$%&'()*+,-./:;=@[\\]^_\x60\x7b|\x7d~").contains c then usSafe else 0

def isSafe (c : UInt8) : Bool := chartable c &&& usSafe != 0
def isHex (c : UInt8) : Bool := chartable c &&& usHex != 0

/-- `xvalue` -/
def xvalue (c : UInt8) : UInt8 := chartable c >>> 4

def infoUrl : BitVec 32 := 1
def infoParams : BitVec 32 := 2

/-- What an `unsigned` keeps of an offset. -/
def unsigned (n : Nat) : Nat := n % 2 ^ 32

/-- Sets `f[fpos]` up to, not including, `f[stop]`; each part starts where the one before ends. -/
def fill (stop pos fpos : Nat) (f : List (Nat × Nat)) : List (Nat × Nat) :=
  (List.range' fpos (stop - fpos)).foldl (fun f i =>
    f.set i (if i = 0 then 0 else (f.getD (i - 1) (0, 0)).2, unsigned pos)) f

/-- The `while` loop over the url; `pos` is `s - s1`. -/
def scanUrl : Bytes → Nat → Nat → List (Nat × Nat) → Nat × Nat × List (Nat × Nat)
  | [], pos, fpos, f => (pos, fpos, f)
  | c :: s, pos, fpos, f =>
      if isSafe c then scanUrl s (pos + 1) fpos f
      else if c = question then
        if fpos = 0 then scanUrl s (pos + 1) 1 (f.set 0 (0, unsigned pos))
        else scanUrl s (pos + 1) fpos f
      else if c = octothorpe then scanUrl s (pos + 1) (max fpos 2) (fill 2 pos fpos f)
      else (0, 0, f)                  -- fail

/-- The first half of `make_info`. -/
def urlParts (url : Bytes) (f : List (Nat × Nat)) : List (Nat × Nat) :=
  let (pos, fpos, f) := if url.head? = some slash then scanUrl url 0 0 f else (0, 0, f)
  fill 3 pos fpos f

/-- The local variables of the loop over the search part; `s` and `last` as offsets in the url. -/
structure ParamScan where
  s : Nat
  last : Nat
  state : Nat := 0
  nstart : BitVec 32 := 0
  nend : BitVec 32 := 0
  vstart : BitVec 32 := 0
  vend : BitVec 32 := 0
  qurl : Bytes := []
  qpairs : List KvOffsets := []
  deriving DecidableEq, Repr

namespace ParamScan

/-- `inf.qurl.length() + s - last` -/
def offset (p : ParamScan) : BitVec 32 := .ofNat 32 (p.qurl.length + p.s - p.last)

/-- `inf.qurl.append(last, s)` -/
def flush (url : Bytes) (p : ParamScan) : ParamScan :=
  { p with qurl := p.qurl ++ slice url p.last p.s }

/-- The end of a parameter, where `state != 0`. -/
def emit (p : ParamScan) (vend : BitVec 32) : ParamScan :=
  if p.state = 0 then p
  else if p.state = 1 then
    { p with
      vend, nend := vend, vstart := vend
      qpairs := p.qpairs ++ [⟨p.nstart, vend, vend, vend⟩] }
  else { p with vend, qpairs := p.qpairs ++ [⟨p.nstart, p.nend, p.vstart, vend⟩] }

/-- One turn of the loop. The url ends with a NUL. -/
def turn (url : Bytes) (s2 : Nat) (p : ParamScan) : ParamScan :=
  let c := url.getD p.s 0
  if c = ampersand then
    let p := { p.emit p.offset with state := 0, s := p.s + 1 }
    { p with nstart := p.offset, nend := p.offset }
  else if c = equals ∧ p.state ≤ 1 then
    { p with nend := p.offset, vstart := p.offset + 1, state := 2, s := p.s + 1 }
  else
    let p := if p.state = 0 then { p with state := 1 } else p
    let h := url.getD (p.s + 1) 0
    let l := url.getD (p.s + 2) 0
    if c = percent ∧ p.s + 2 ≤ s2 ∧ isHex h ∧ isHex l then
      let p := p.flush url
      { p with qurl := p.qurl ++ [xvalue h * 16 + xvalue l], last := p.s + 3, s := p.s + 3 }
    else if c = plus then
      let p := p.flush url
      { p with qurl := p.qurl ++ [space], last := p.s + 1, s := p.s + 1 }
    else { p with s := p.s + 1 }

/-- The loop; `none` when it does not meet `s2`. -/
def loop (url : Bytes) (s2 : Nat) : Nat → ParamScan → Option ParamScan
  | fuel, p =>
      if p.s = s2 then some p
      else match fuel with
        | 0 => none
        | fuel + 1 => loop url s2 fuel (p.turn url s2)

end ParamScan

/-- The second half of `make_info`: `qurl` and `qpairs` from the search part. -/
def searchParams (url : Bytes) (part : Nat × Nat) : Option (Bytes × List KvOffsets) :=
  if part.1 = part.2 then some ([], [])
  else (ParamScan.loop url part.2 url.length { s := part.1 + 1, last := part.1 + 1 }).map fun p =>
    let p := p.flush url
    let p := p.emit (.ofNat 32 p.qurl.length)
    (p.qurl, p.qpairs)

namespace Message

def makeInfo (m : Message) (fl : BitVec 32) : Option Message :=
  let inf := m.info.getD {}
  let inf := if inf.flags &&& infoUrl = 0 ∧ fl &&& (infoUrl ||| infoParams) ≠ 0 then
      { inf with f := urlParts m.url inf.f }
    else inf
  if inf.flags &&& infoParams = 0 ∧ fl &&& infoParams ≠ 0 then
    (searchParams m.url (inf.f.getD 1 (0, 0))).map fun (qurl, qpairs) =>
      { m with info := some { inf with qurl, qpairs, flags := inf.flags ||| infoParams } }
  else some { m with info := some inf }

/-- The message after `info(fl)`. -/
def withInfo (m : Message) (fl : BitVec 32) : Option Message :=
  match m.info with
  | some inf => if inf.flags &&& fl = fl then some m else m.makeInfo fl
  | none => m.makeInfo fl

def hasUrlField (m : Message) (field : Nat) : Option Bool := do
  let m ← m.withInfo infoUrl
  let inf ← m.info
  let part := inf.f.getD field (0, 0)
  return part.1 != part.2

/-- `url_field`; `none` when the ends of the view are not in order. -/
def urlField (m : Message) (field : Nat) : Option Bytes := do
  let m ← m.withInfo infoUrl
  let inf ← m.info
  let part := inf.f.getD field (0, 0)
  if part.1 = part.2 then some []
  else if part.1 ≤ part.2 then some (slice m.url part.1 part.2)
  else none

def hasValidUrl (m : Message) : Option Bool := m.hasUrlField 0
def path (m : Message) : Option Bytes := m.urlField 0
def hasSearch (m : Message) : Option Bool := m.hasUrlField 1
def search (m : Message) : Option Bytes := m.urlField 1
def hasHash (m : Message) : Option Bool := m.hasUrlField 2
def hash (m : Message) : Option Bytes := m.urlField 2

/-- What `search_param_begin` to `search_param_end` iterates. -/
def searchParamList (m : Message) : Option (List (Bytes × Bytes)) := do
  let m ← m.withInfo infoParams
  let inf ← m.info
  return inf.qpairs.map fun p => (p.name inf.qurl, p.value inf.qurl)

def hasSearchParam (m : Message) (name : Bytes) : Option Bool :=
  m.searchParamList.map fun params => params.any fun h => h.1 = name

def searchParam (m : Message) (name : Bytes) : Option Bytes :=
  m.searchParamList.map fun params => ((params.find? fun h => h.1 = name).map Prod.snd).getD []

/-- What can be asked of a message about its url, and what changes the url. -/
inductive Access where
  | url (s : Bytes)
  | clear
  | urlField (field : Fin 3)          -- path, search, hash, and whether they are there
  | searchParams                      -- has_search_param, search_param, search_param_begin and _end
  deriving DecidableEq, Repr

def step (m : Message) : Access → Option Message
  | .url s => some (m.setUrl s)
  | .clear => some m.clear
  | .urlField _ => m.withInfo infoUrl
  | .searchParams => m.withInfo infoParams

end Message

end Cotamer.Http

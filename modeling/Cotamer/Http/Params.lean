import Cotamer.Http.Parts

/-! The parameters of the search part are those of a form-urlencoded query. -/
namespace Cotamer.Http
open Spans Transition

/-- An escape is `%` and two hex digits. -/
def escaped (h l : UInt8) : Option UInt8 :=
  (Chunked.hexDigit h).bind fun x => (Chunked.hexDigit l).map fun y => UInt8.ofNat (16 * x + y)

def unplus (c : UInt8) : UInt8 := if c = plus then space else c

def unescape : Bytes → Bytes
  | c :: h :: l :: s =>
      match (if c = percent then escaped h l else none) with
      | some b => b :: unescape s
      | none => unplus c :: unescape (h :: l :: s)
  | c :: s => unplus c :: unescape s
  | [] => []

/-- Name and value of a piece, split at its first `=`. -/
def parameter (piece : Bytes) : Bytes × Bytes :=
  (unescape (piece.takeWhile (· != equals)), unescape ((piece.dropWhile (· != equals)).drop 1))

/-- The parameters of a query. -/
def parameters (query : Bytes) : List (Bytes × Bytes) :=
  ((query.splitOn ampersand).filter (· ≠ [])).map parameter

theorem hexDigit_eq (c : UInt8) :
    Chunked.hexDigit c = if isHex c then some (xvalue c).toNat else none := by
  have all : ∀ b : BitVec 8, Chunked.hexDigit ⟨b⟩ =
      if isHex ⟨b⟩ then some (xvalue ⟨b⟩).toNat else none := by decide +kernel
  exact all c.toBitVec

theorem escaped_eq (h l : UInt8) : escaped h l =
    if isHex h ∧ isHex l then some (xvalue h * 16 + xvalue l) else none := by
  rw [escaped, hexDigit_eq, hexDigit_eq]
  by_cases first : isHex h
  · by_cases second : isHex l
    · simp [first, second, UInt8.mul_comm]
    · simp [first, second]
  · simp [first]

theorem unescape_escape (first : isHex h = true) (second : isHex l = true) (s : Bytes) :
    unescape (percent :: h :: l :: s) = (xvalue h * 16 + xvalue l) :: unescape s := by
  rw [unescape, if_pos rfl, escaped_eq, if_pos ⟨first, second⟩]

/-- A byte that does not begin an escape. -/
theorem unescape_plain (plain : c = percent → ¬(isHex (s.getD 0 0) = true ∧ isHex (s.getD 1 0) = true)) :
    unescape (c :: s) = unplus c :: unescape s := by
  match s with
  | [] => rfl
  | [_] => rfl
  | h :: l :: s =>
      rw [unescape]
      have none : (if c = percent then escaped h l else none) = none := by
        split
        · rename_i mark
          rw [escaped_eq]
          exact if_neg (plain mark)
        · rfl
      rw [none]

/-- A parameter that has begun: its name so far, or its name and its value so far. -/
inductive Begun where
  | nothing
  | name (name : Bytes)
  | value (name value : Bytes)

namespace Begun

/-- The parameters of what has begun and the rest of its piece. -/
def finish : Begun → Bytes → List (Bytes × Bytes)
  | nothing, piece => if piece = [] then [] else [parameter piece]
  | name n, piece => [(n ++ (parameter piece).1, (parameter piece).2)]
  | value n v, piece => [(n, v ++ unescape piece)]

/-- The same with all of the text that is left. -/
def remaining (begun : Begun) (text : Bytes) : List (Bytes × Bytes) :=
  match text.splitOn ampersand with
  | [] => []
  | piece :: pieces => begun.finish piece ++ (pieces.filter (· ≠ [])).map parameter

theorem nothing_remaining (text : Bytes) : nothing.remaining text = parameters text := by
  unfold remaining parameters
  split
  · rename_i none
    rw [none]
    rfl
  · rename_i piece pieces found
    rw [found]
    by_cases empty : piece = []
    · simp [finish, empty]
    · simp [finish, empty]

theorem remaining_nil (begun : Begun) : begun.remaining [] = begun.finish [] := by
  show begun.finish [] ++ _ = _
  exact List.append_nil _

theorem remaining_ampersand (begun : Begun) (text : Bytes) :
    begun.remaining (ampersand :: text) = begun.finish [] ++ nothing.remaining text := by
  rw [nothing_remaining, remaining, List.splitOn_cons_eq_if_modifyHead,
    if_pos (beq_self_eq_true _)]
  rfl

theorem splitOn_append (token : Bytes) (free : ampersand ∉ token) (text : Bytes) :
    (token ++ text).splitOn ampersand = (text.splitOn ampersand).modifyHead (token ++ ·) := by
  induction token with
  | nil =>
      rw [List.nil_append]
      cases text.splitOn ampersand <;> rfl
  | cons c token ih =>
      obtain ⟨other, free⟩ := not_or.mp fun either => free (List.mem_cons.mpr either)
      rw [List.cons_append, List.splitOn_cons_eq_if_modifyHead, if_neg (by simpa using Ne.symm other),
        ih free]
      cases text.splitOn ampersand <;> rfl

theorem splitOn_front (split : text.splitOn ampersand = piece :: pieces) : piece <+: text := by
  induction text generalizing piece pieces with
  | nil =>
      cases split
      exact List.nil_prefix
  | cons c text ih =>
      rw [List.splitOn_cons_eq_if_modifyHead] at split
      split at split
      · cases split
        exact List.nil_prefix
      · cases rest : text.splitOn ampersand with
        | nil => exact absurd rest (List.splitOn_ne_nil _ _)
        | cons head tail =>
            rw [rest] at split
            cases split
            exact List.cons_prefix_cons.mpr ⟨rfl, ih rest⟩

/-- A step within a piece. -/
theorem remaining_append (begun next : Begun) (token text : Bytes) (free : ampersand ∉ token)
    (same : ∀ piece, piece <+: text → begun.finish (token ++ piece) = next.finish piece) :
    begun.remaining (token ++ text) = next.remaining text := by
  unfold remaining
  rw [splitOn_append token free]
  cases split : text.splitOn ampersand with
  | nil => rfl
  | cons piece pieces =>
      show begun.finish (token ++ piece) ++ _ = _
      rw [same piece (splitOn_front split)]

/-- What has begun, with one more byte. -/
def push (b : UInt8) : Begun → Begun
  | nothing => name [b]
  | name n => name (n ++ [b])
  | value n v => value n (v ++ [b])

/-- Bytes that stand for one byte of a name or a value. -/
theorem finish_push (begun : Begun) (b : UInt8) (token piece : Bytes) (some : token ≠ [])
    (other : equals ∉ token ∨ ∃ n v, begun = value n v)
    (reads : ∀ front, front <+: piece → unescape (token ++ front) = b :: unescape front) :
    begun.finish (token ++ piece) = (begun.push b).finish piece := by
  have whole := reads piece (List.prefix_refl _)
  have name : equals ∉ token →
      parameter (token ++ piece) = (b :: (parameter piece).1, (parameter piece).2) := by
    intro free
    have keep : ∀ c ∈ token, (c != equals) = true := by
      intro c member
      have ne : c ≠ equals := fun same => free (same ▸ member)
      simpa using ne
    rw [parameter, List.takeWhile_append_of_pos keep, List.dropWhile_append_of_pos keep,
      reads _ (List.takeWhile_prefix _)]
    rfl
  have nonempty : token ++ piece ≠ [] := by simp [some]
  cases begun with
  | nothing =>
      obtain free : equals ∉ token := other.resolve_right nofun
      rw [finish, if_neg nonempty, name free]
      rfl
  | name n =>
      obtain free : equals ∉ token := other.resolve_right nofun
      rw [finish, name free, push, finish, List.append_assoc]
      rfl
  | value n v =>
      rw [finish, whole, push, finish, List.append_assoc]
      rfl

end Begun

namespace ParamScan

/-- What `qurl` would be if the scan ended here. -/
def buffer (url : Bytes) (p : ParamScan) : Bytes := p.qurl ++ slice url p.last p.s

/-- Name and value of a stored parameter. -/
def view (text : Bytes) (k : KvOffsets) : Bytes × Bytes := (k.name text, k.value text)

/-- The parameter that has begun, by the offsets recorded for it. -/
def Marks (p : ParamScan) (text : Bytes) : Begun → Prop
  | .nothing => p.state = 0 ∧ p.nstart.toNat = text.length
  | .name n => p.state = 1 ∧ ∃ front, text = front ++ n ∧ p.nstart.toNat = front.length
  | .value n v => p.state = 2 ∧ ∃ front, text = front ++ n ++ [equals] ++ v ∧
      p.nstart.toNat = front.length ∧ p.nend.toNat = front.length + n.length ∧
      p.vstart.toNat = front.length + n.length + 1

/-- The scan has read the parameters `done`, and begun another. -/
structure Reads (url : Bytes) (p : ParamScan) (done : List (Bytes × Bytes)) (begun : Begun) : Prop where
  pending : p.last ≤ p.s
  short : p.qurl.length ≤ p.last
  inside : ∀ k ∈ p.qpairs, k.Inside (p.buffer url).length
  views : p.qpairs.map (view (p.buffer url)) = done
  marks : p.Marks (p.buffer url) begun

variable {p : ParamScan} {url : Bytes} {done : List (Bytes × Bytes)} {begun : Begun}

theorem length_buffer (pending : p.last ≤ p.s) (within : p.s ≤ url.length) :
    (p.buffer url).length = p.qurl.length + p.s - p.last := by
  rw [buffer, List.length_append, length_slice within]
  omega

theorem toNat_offset (pending : p.last ≤ p.s) (short : p.qurl.length ≤ p.last)
    (within : p.s ≤ url.length) (small : p.s < 2 ^ 32) : p.offset.toNat = (p.buffer url).length := by
  rw [offset, Message.toNat_offset _ (by omega), length_buffer pending within]

/-- The parameters that are stored stay as they are when the text grows. -/
theorem views_append {pairs : List KvOffsets} (inside : ∀ k ∈ pairs, k.Inside text.length) (more : Bytes) :
    (∀ k ∈ pairs, KvOffsets.Inside k (text ++ more).length) ∧
      pairs.map (view (text ++ more)) = pairs.map (view text) := by
  refine ⟨fun k member => (inside k member).mono ?_,
    List.map_congr_left fun k member => (inside k member).append more⟩
  rw [List.length_append]
  exact Nat.le_add_right ..

/-- A parameter is stored where it ends. -/
theorem emit_reads {e : BitVec 32} (marks : p.Marks text begun)
    (inside : ∀ k ∈ p.qpairs, k.Inside text.length) (stop : e.toNat = text.length) :
    (∀ k ∈ (p.emit e).qpairs, k.Inside text.length) ∧
      (p.emit e).qpairs.map (view text) = p.qpairs.map (view text) ++ begun.finish [] := by
  cases begun with
  | nothing =>
      rw [emit, if_pos marks.1, Begun.finish, if_pos rfl, List.append_nil]
      exact ⟨inside, rfl⟩
  | name n =>
      obtain ⟨state, front, split, start⟩ := marks
      have here : KvOffsets.Inside ⟨p.nstart, e, e, e⟩ text.length := by
        refine ⟨?_, Nat.le_refl _, Nat.le_refl _, Nat.le_of_eq stop⟩
        simp only [start, stop, split, List.length_append]
        omega
      rw [emit, if_neg (by rw [state]; decide), if_pos state]
      refine ⟨?_, ?_⟩
      · simp only [List.mem_append, List.mem_singleton]
        rintro k (old | rfl)
        · exact inside k old
        · exact here
      · rw [List.map_append, List.map_singleton, view, here.name, here.value]
        have name : slice text front.length (front.length + n.length) = n := by
          have piece := slice_piece front n []
          rwa [List.append_nil, ← split] at piece
        simp only [start, stop, Begun.finish]
        rw [split, List.length_append, ← split, name, slice, Nat.sub_self, List.take_zero]
        simp [parameter, unescape]
  | value n v =>
      obtain ⟨state, front, split, start, middle, next⟩ := marks
      have length := congrArg List.length split
      simp only [List.length_append, List.length_singleton] at length
      have here : KvOffsets.Inside ⟨p.nstart, p.nend, p.vstart, e⟩ text.length := by
        simp only [KvOffsets.Inside, start, middle, next, stop]
        omega
      rw [emit, if_neg (by rw [state]; decide), if_neg (by rw [state]; decide)]
      refine ⟨?_, ?_⟩
      · simp only [List.mem_append, List.mem_singleton]
        rintro k (old | rfl)
        · exact inside k old
        · exact here
      · rw [List.map_append, List.map_singleton, view, here.name, here.value]
        have name : slice text front.length (front.length + n.length) = n := by
          have piece := slice_piece front n ([equals] ++ v)
          rwa [← List.append_assoc, ← split] at piece
        have value : slice text (front.length + n.length + 1) text.length = v := by
          have piece := slice_piece (front ++ n ++ [equals]) v []
          rw [List.append_nil, ← split] at piece
          simp only [List.length_append, List.length_singleton] at piece
          rwa [length]
        simp only [start, middle, next, stop, Begun.finish]
        rw [name, value]
        simp [unescape]

/-- An escape that the end of the range cuts short, but that goes on behind it. -/
def Overshoots (url : Bytes) (s2 s : Nat) : Prop :=
  s + 2 = s2 ∧ url.getD s 0 = percent ∧ isHex (url.getD (s + 1) 0) = true ∧
    isHex (url.getD (s + 2) 0) = true

/-- A turn that goes past one byte. -/
theorem buffer_past {q : ParamScan} (pending : p.last ≤ p.s) (within : p.s < url.length)
    (last : q.last = p.last) (s : q.s = p.s + 1) (qurl : q.qurl = p.qurl) :
    q.buffer url = p.buffer url ++ [url.getD p.s 0] := by
  rw [buffer, buffer, last, s, qurl, slice_snoc pending within 0, List.append_assoc]

/-- The scan goes on within a name or a value. -/
theorem Reads.push {q : ParamScan} (reads : p.Reads url done begun) (b : UInt8)
    (grown : q.buffer url = p.buffer url ++ [b]) (pending : q.last ≤ q.s) (short : q.qurl.length ≤ q.last)
    (pairs : q.qpairs = p.qpairs) (state : q.state = if p.state = 0 then 1 else p.state)
    (offsets : q.nstart = p.nstart ∧ q.nend = p.nend ∧ q.vstart = p.vstart) :
    q.Reads url done (begun.push b) := by
  obtain ⟨inside, views⟩ := views_append reads.inside [b]
  refine ⟨pending, short, ?_, ?_, ?_⟩
  · rwa [pairs, grown]
  · rw [pairs, grown, views, reads.views]
  · have marks := reads.marks
    rw [grown]
    obtain ⟨nstart, nend, vstart⟩ := offsets
    cases begun with
    | nothing =>
        obtain ⟨zero, start⟩ := marks
        exact ⟨by rw [state, if_pos zero], _, rfl, by rw [nstart, start]⟩
    | name n =>
        obtain ⟨one, front, split, start⟩ := marks
        refine ⟨by rw [state, if_neg (by rw [one]; decide), one], front, ?_, by rw [nstart, start]⟩
        rw [split, List.append_assoc]
    | value n v =>
        obtain ⟨two, front, split, start, middle, next⟩ := marks
        refine ⟨by rw [state, if_neg (by rw [two]; decide), two], front, ?_, by rw [nstart, start],
          by rw [nend, middle], by rw [vstart, next]⟩
        rw [split, List.append_assoc _ v]

theorem emit_kept (p : ParamScan) (e : BitVec 32) :
    (p.emit e).last = p.last ∧ (p.emit e).s = p.s ∧ (p.emit e).qurl = p.qurl := by
  unfold emit
  split
  · exact ⟨rfl, rfl, rfl⟩
  · split <;> exact ⟨rfl, rfl, rfl⟩

theorem ampersand_reads (s2 : Nat) (reads : p.Reads url done begun) (within : p.s < url.length)
    (small : p.s + 1 < 2 ^ 32) (separator : url.getD p.s 0 = ampersand) :
    (p.turn url s2).Reads url (done ++ begun.finish []) .nothing ∧ (p.turn url s2).s = p.s + 1 := by
  have offset := toNat_offset reads.pending reads.short within.le (by omega)
  obtain ⟨inside, views⟩ := emit_reads reads.marks reads.inside offset
  obtain ⟨inside, more⟩ := views_append inside [ampersand]
  obtain ⟨last, _, qurl⟩ := emit_kept p p.offset
  generalize next : { p.emit p.offset with state := 0, s := p.s + 1 } = q
  have turned : p.turn url s2 = { q with nstart := q.offset, nend := q.offset } := by
    rw [turn, if_pos separator, ← next]
  have s : q.s = p.s + 1 := by rw [← next]
  have last : q.last = p.last := by rw [← next, ← last]
  have qurl : q.qurl = p.qurl := by rw [← next, ← qurl]
  have grown : q.buffer url = p.buffer url ++ [ampersand] := by
    rw [← separator]
    exact buffer_past reads.pending within last s qurl
  have pending : q.last ≤ q.s := by
    rw [last, s]
    exact Nat.le_succ_of_le reads.pending
  have short : q.qurl.length ≤ q.last := by
    rw [last, qurl]
    exact reads.short
  have pairs : q.qpairs = (p.emit p.offset).qpairs := by rw [← next]
  rw [turned]
  refine ⟨⟨pending, short, ?_, ?_, ?_⟩, s⟩
  · show ∀ k ∈ q.qpairs, k.Inside (q.buffer url).length
    rwa [pairs, grown]
  · show q.qpairs.map (view (q.buffer url)) = _
    rw [pairs, grown, more, views, reads.views]
  · exact ⟨by rw [← next], toNat_offset pending short (by rw [s]; exact within) (by rw [s]; exact small)⟩

theorem equals_reads (s2 : Nat) (reads : p.Reads url done begun) (within : p.s < url.length)
    (small : p.s + 1 < 2 ^ 32) (separator : url.getD p.s 0 = equals) (first : p.state ≤ 1) :
    ∃ n, (begun = .nothing ∧ n = [] ∨ begun = .name n) ∧
      (p.turn url s2).Reads url done (.value n []) ∧ (p.turn url s2).s = p.s + 1 := by
  have offset := toNat_offset reads.pending reads.short within.le (by omega)
  have turned : p.turn url s2 =
      { p with nend := p.offset, vstart := p.offset + 1, state := 2, s := p.s + 1 } := by
    rw [turn, separator, if_neg (by decide), if_pos ⟨rfl, first⟩]
  have grown : (p.turn url s2).buffer url = p.buffer url ++ [equals] := by
    rw [← separator]
    exact buffer_past reads.pending within (by rw [turned]) (by rw [turned]) (by rw [turned])
  obtain ⟨inside, views⟩ := views_append reads.inside [equals]
  have length := length_buffer reads.pending within.le
  have short := reads.short
  have next : (p.offset + 1).toNat = p.offset.toNat + 1 := by
    rw [BitVec.toNat_add, Nat.mod_eq_of_lt]
    · rfl
    · show p.offset.toNat + 1 < 2 ^ 32
      omega
  have sound : ∀ n front, p.buffer url = front ++ n → p.nstart.toNat = front.length →
      (p.turn url s2).Reads url done (.value n []) := by
    intro n front split start
    have count : (p.buffer url).length = front.length + n.length := by rw [split, List.length_append]
    rw [turned] at grown ⊢
    refine ⟨Nat.le_succ_of_le reads.pending, short, ?_, ?_, ?_⟩
    · rwa [grown]
    · rw [grown]
      exact views.trans reads.views
    · rw [grown]
      refine ⟨rfl, front, by rw [split, List.append_nil], start, ?_, ?_⟩
      · exact offset.trans count
      · exact next.trans (by rw [offset, count])
  have s : (p.turn url s2).s = p.s + 1 := by rw [turned]
  have marks := reads.marks
  cases begun with
  | nothing =>
      refine ⟨[], .inl ⟨rfl, rfl⟩, sound [] (p.buffer url) (List.append_nil _).symm marks.2, s⟩
  | name n =>
      obtain ⟨_, front, split, start⟩ := marks
      exact ⟨n, .inr rfl, sound n front split start, s⟩
  | value n v =>
      have two : p.state = 2 := marks.1
      omega

theorem hex_prefix {front rest : Bytes} (part : front <+: rest) (hex : isHex (front.getD i 0) = true) :
    rest.getD i 0 = front.getD i 0 := by
  obtain ⟨more, rfl⟩ := part
  by_cases within : i < front.length
  · exact List.getD_append _ _ _ _ within
  · rw [List.getD_eq_default _ _ (Nat.le_of_not_lt within)] at hex
    exact absurd hex (by decide)

theorem hex_ne (hex : isHex c = true) : c ≠ ampersand ∧ c ≠ equals := by
  constructor <;> (rintro rfl; revert hex; decide)

/-- A turn within a name or a value reads a byte, or what stands for one. -/
theorem plain_reads (reads : p.Reads url done begun) (within : p.s < s2) (inside : s2 ≤ url.length)
    (whole : ¬Overshoots url s2 p.s) (no_ampersand : url.getD p.s 0 ≠ ampersand)
    (no_equals : ¬(url.getD p.s 0 = equals ∧ p.state ≤ 1)) :
    ∃ token b, (p.turn url s2).Reads url done (begun.push b) ∧ token ≠ [] ∧
      slice url p.s s2 = token ++ slice url (p.turn url s2).s s2 ∧
      p.s < (p.turn url s2).s ∧ (p.turn url s2).s ≤ s2 ∧
      ampersand ∉ token ∧ (equals ∈ token → url.getD p.s 0 = equals) ∧
      ∀ front, front <+: slice url (p.turn url s2).s s2 →
        unescape (token ++ front) = b :: unescape front := by
  have bound : p.s < url.length := Nat.lt_of_lt_of_le within inside
  have turned := turn.eq_1 url s2 p
  simp only [if_neg no_ampersand, if_neg no_equals] at turned
  have begins : ∃ q : ParamScan, q = (if p.state = 0 then { p with state := 1 } else p) ∧
      q.s = p.s ∧ q.last = p.last ∧ q.qurl = p.qurl ∧ q.qpairs = p.qpairs ∧
      q.state = (if p.state = 0 then 1 else p.state) ∧
      q.nstart = p.nstart ∧ q.nend = p.nend ∧ q.vstart = p.vstart := by
    refine ⟨_, rfl, ?_⟩
    split <;> exact ⟨rfl, rfl, rfl, rfl, rfl, rfl, rfl, rfl⟩
  obtain ⟨q, is, s, last, qurl, pairs, state, offsets⟩ := begins
  have flushed : q.flush url = { q with qurl := p.buffer url } := by
    rw [flush, buffer, ← s, ← last, ← qurl]
  rw [← is, s, flushed, s] at turned
  have length := length_buffer reads.pending bound.le
  have pending := reads.pending
  have short := reads.short
  have first := slice_cons within inside 0
  by_cases escape : url.getD p.s 0 = percent ∧ p.s + 2 ≤ s2 ∧ isHex (url.getD (p.s + 1) 0) ∧
      isHex (url.getD (p.s + 2) 0)
  · rw [if_pos escape] at turned
    obtain ⟨mark, room, high, low⟩ := escape
    have room : p.s + 2 < s2 := by
      rcases Nat.lt_or_eq_of_le room with less | same
      · exact less
      · exact absurd ⟨same, mark, high, low⟩ whole
    have second := slice_cons (show p.s + 1 < s2 by omega) inside 0
    have third := slice_cons room inside 0
    have next : (p.turn url s2).s = p.s + 3 := by rw [turned]
    refine ⟨[percent, url.getD (p.s + 1) 0, url.getD (p.s + 2) 0], _, reads.push
      (xvalue (url.getD (p.s + 1) 0) * 16 + xvalue (url.getD (p.s + 2) 0)) ?_ ?_ ?_ ?_ ?_ ?_,
      nofun, ?_, by omega, by omega, ?_, ?_, ?_⟩
    · rw [turned, buffer, slice_self, List.append_nil]
    · rw [turned]
    · rw [turned]
      simp only [List.length_append, List.length_singleton, length]
      omega
    · rw [turned]
      exact pairs
    · rw [turned]
      exact state
    · rw [turned]
      exact offsets
    · rw [next, first, mark, second, third]
      rfl
    · simp only [List.mem_cons, List.not_mem_nil, or_false, not_or]
      exact ⟨by decide, (hex_ne high).1.symm, (hex_ne low).1.symm⟩
    · simp only [List.mem_cons, List.not_mem_nil, or_false]
      rintro (same | same | same)
      · exact absurd same (by decide)
      · exact absurd same.symm (hex_ne high).2
      · exact absurd same.symm (hex_ne low).2
    · exact fun front _ => unescape_escape high low front
  · rw [if_neg escape] at turned
    have next : (p.turn url s2).s = p.s + 1 := by
      rw [turned]
      split <;> rfl
    have plain : ∀ front, front <+: slice url (p.s + 1) s2 →
        unescape (url.getD p.s 0 :: front) = unplus (url.getD p.s 0) :: unescape front := by
      intro front part
      apply unescape_plain
      rintro mark ⟨high, low⟩
      rw [← hex_prefix part high, getD_slice, Nat.add_zero] at high
      rw [← hex_prefix part low, getD_slice] at low
      split at low
      · rename_i room
        rw [if_pos (Nat.lt_of_succ_lt room)] at high
        exact escape ⟨mark, Nat.le_of_lt room, high, low⟩
      · exact absurd low (by decide)
    by_cases sign : url.getD p.s 0 = plus
    · rw [if_pos sign] at turned
      refine ⟨[plus], space, reads.push space ?_ ?_ ?_ ?_ ?_ ?_, nofun, ?_, by omega, by omega,
        by decide, fun member => absurd member (by decide), ?_⟩
      · rw [turned, buffer, slice_self, List.append_nil]
      · rw [turned]
      · rw [turned]
        simp only [List.length_append, List.length_singleton, length]
        omega
      · rw [turned]
        exact pairs
      · rw [turned]
        exact state
      · rw [turned]
        exact offsets
      · rw [next, first, sign]
        rfl
      · rw [next, ← sign]
        intro front part
        rw [sign] at plain ⊢
        exact plain front part
    · rw [if_neg sign] at turned
      refine ⟨[url.getD p.s 0], url.getD p.s 0, reads.push _ ?_ ?_ ?_ ?_ ?_ ?_, nofun, ?_, by omega,
        by omega, ?_, ?_, ?_⟩
      · exact buffer_past pending bound (by rw [turned, ← last]) next (by rw [turned, ← qurl])
      · rw [turned, last]
        exact Nat.le_succ_of_le pending
      · rw [turned, last, qurl]
        exact short
      · rw [turned]
        exact pairs
      · rw [turned]
        exact state
      · rw [turned]
        exact offsets
      · rw [next, first]
        rfl
      · rw [List.mem_singleton]
        exact Ne.symm no_ampersand
      · rw [List.mem_singleton]
        exact Eq.symm
      · rw [next]
        intro front part
        have same := plain front part
        rwa [unplus, if_neg sign] at same

/-- A turn leaves the same parameters to be found. -/
theorem turn_reads (reads : p.Reads url done begun) (within : p.s < s2) (inside : s2 ≤ url.length)
    (small : s2 < 2 ^ 32) (whole : ¬Overshoots url s2 p.s) :
    p.s < (p.turn url s2).s ∧ (p.turn url s2).s ≤ s2 ∧
      ∃ done' begun', (p.turn url s2).Reads url done' begun' ∧
        done' ++ begun'.remaining (slice url (p.turn url s2).s s2) =
          done ++ begun.remaining (slice url p.s s2) := by
  have bound : p.s < url.length := Nat.lt_of_lt_of_le within inside
  by_cases ampersand_here : url.getD p.s 0 = ampersand
  · obtain ⟨after, next⟩ := ampersand_reads s2 reads bound (by omega) ampersand_here
    refine ⟨by omega, by omega, _, _, after, ?_⟩
    rw [next, slice_cons within inside 0, ampersand_here, Begun.remaining_ampersand, List.append_assoc]
  · by_cases equals_here : url.getD p.s 0 = equals ∧ p.state ≤ 1
    · obtain ⟨n, was, after, next⟩ :=
        equals_reads s2 reads bound (by omega) equals_here.1 equals_here.2
      refine ⟨by omega, by omega, _, _, after, ?_⟩
      rw [next, slice_cons within inside 0, equals_here.1]
      refine congrArg (done ++ ·) (Begun.remaining_append begun _ [equals] _ (by decide) ?_).symm
      intro piece _
      rcases was with ⟨rfl, rfl⟩ | rfl
      · rw [Begun.finish, if_neg nofun]
        simp [parameter, unescape, Begun.finish]
      · simp [parameter, unescape, Begun.finish]
    · obtain ⟨token, b, after, some, split, further, stop, free, only, reads_as⟩ :=
        plain_reads reads within inside whole ampersand_here equals_here
      refine ⟨further, stop, _, _, after, ?_⟩
      rw [split]
      refine congrArg (done ++ ·) (Begun.remaining_append begun _ token _ free ?_).symm
      intro piece part
      apply begun.finish_push b token piece some
      · by_cases member : equals ∈ token
        · have state : ¬p.state ≤ 1 := fun early => equals_here ⟨only member, early⟩
          have marks := reads.marks
          cases begun with
          | nothing => exact absurd marks.1.le (by omega)
          | name n => exact absurd marks.1.le state
          | value n v => exact .inr ⟨n, v, rfl⟩
        · exact .inl member
      · exact fun front within => reads_as front (within.trans part)

/-- The loop meets the end of the range, having read the parameters in it. -/
theorem loop_reads (fuel : Nat) (enough : s2 - p.s ≤ fuel) (reads : p.Reads url done begun)
    (within : p.s ≤ s2) (inside : s2 ≤ url.length) (small : s2 < 2 ^ 32)
    (whole : ∀ s, p.s ≤ s → ¬Overshoots url s2 s) :
    ∃ q done' begun', loop url s2 fuel p = some q ∧ q.s = s2 ∧ q.Reads url done' begun' ∧
      done' ++ begun'.finish [] = done ++ begun.remaining (slice url p.s s2) := by
  induction fuel generalizing p done begun with
  | zero =>
      have here : p.s = s2 := by omega
      refine ⟨p, done, begun, by rw [loop, if_pos here], here, reads, ?_⟩
      rw [here, slice_self, Begun.remaining_nil]
  | succ fuel ih =>
      by_cases here : p.s = s2
      · refine ⟨p, done, begun, by rw [loop, if_pos here], here, reads, ?_⟩
        rw [here, slice_self, Begun.remaining_nil]
      · obtain ⟨further, stop, done', begun', after, same⟩ :=
          turn_reads reads (by omega) inside small (whole p.s (Nat.le_refl _))
        obtain ⟨q, done'', begun'', looped, at_, final, rest⟩ :=
          ih (by omega) after stop fun s later => whole s (by omega)
        refine ⟨q, done'', begun'', ?_, at_, final, rest.trans same⟩
        rw [loop, if_neg here]
        exact looped

/-- A turn goes past one byte, or past an escape. -/
theorem turn_s (p : ParamScan) (url : Bytes) (s2 : Nat) : (p.turn url s2).s = p.s + 1 ∨
    (p.turn url s2).s = p.s + 3 ∧ isHex (url.getD (p.s + 1) 0) = true ∧
      isHex (url.getD (p.s + 2) 0) = true := by
  have turned := turn.eq_1 url s2 p
  simp only at turned
  generalize is : (if p.state = 0 then { p with state := 1 } else p) = q at turned
  have s : q.s = p.s := by
    rw [← is]
    split <;> rfl
  rw [turned, s]
  split
  · exact .inl rfl
  · split
    · exact .inl rfl
    · split
      · rename_i escape
        exact .inr ⟨congrArg (· + 3) s, escape.2.2⟩
      · split
        · exact .inl (congrArg (· + 1) s)
        · exact .inl rfl

/-- Past the end of the range the loop has nowhere to stop. -/
theorem loop_past (fuel : Nat) (past : s2 < p.s) : loop url s2 fuel p = none := by
  induction fuel generalizing p with
  | zero => rw [loop, if_neg (by omega)]
  | succ fuel ih =>
      have further := turn_s p url s2
      rw [loop, if_neg (by omega)]
      exact ih (by omega)

theorem overshoots_turn (cut : Overshoots url s2 p.s) : s2 < (p.turn url s2).s := by
  obtain ⟨stop, mark, high, low⟩ := cut
  have turned := turn.eq_1 url s2 p
  simp only at turned
  generalize is : (if p.state = 0 then { p with state := 1 } else p) = q at turned
  have s : q.s = p.s := by
    rw [← is]
    split <;> rfl
  rw [if_neg (by rw [mark]; decide), if_neg (by rw [mark]; exact fun both => absurd both.1 (by decide)),
    s, if_pos ⟨mark, stop.le, high, low⟩] at turned
  have next : (p.turn url s2).s = p.s + 3 := by
    rw [turned]
    exact congrArg (· + 3) s
  omega

theorem loop_overshoots {at_ : Nat} (fuel : Nat) (cut : Overshoots url s2 at_) (before : p.s ≤ at_) :
    loop url s2 fuel p = none := by
  obtain ⟨stop, mark, high, low⟩ := cut
  induction fuel generalizing p with
  | zero => rw [loop, if_neg (by omega)]
  | succ fuel ih =>
      rw [loop, if_neg (by omega)]
      by_cases here : p.s = at_
      · exact loop_past fuel (overshoots_turn (here ▸ ⟨stop, mark, high, low⟩))
      · apply ih
        rcases turn_s p url s2 with one | ⟨three, first, second⟩
        · omega
        · by_contra after
          have hex : isHex (url.getD at_ 0) = true := by
            rcases (show at_ = p.s + 1 ∨ at_ = p.s + 2 by omega) with same | same
            · rwa [same]
            · rwa [same]
          rw [mark] at hex
          exact absurd hex (by decide)

end ParamScan

/-- The stored pairs are the parameters of the range, and their offsets lie inside `qurl`. -/
theorem searchParams_reads (order : a < b) (inside : b ≤ url.length) (small : b < 2 ^ 32)
    (whole : ∀ s, a < s → ¬ParamScan.Overshoots url b s) :
    ∃ qurl qpairs, searchParams url (a, b) = some (qurl, qpairs) ∧
      (∀ k ∈ qpairs, k.Inside qurl.length) ∧
      qpairs.map (fun k => (k.name qurl, k.value qurl)) = parameters (slice url (a + 1) b) := by
  have begins : ParamScan.Reads url { s := a + 1, last := a + 1 } [] .nothing := by
    refine ⟨Nat.le_refl _, Nat.zero_le _, nofun, rfl, rfl, ?_⟩
    rw [ParamScan.buffer, slice_self]
    rfl
  obtain ⟨q, done, begun, looped, stop, reads, same⟩ :=
    ParamScan.loop_reads url.length (by simp only; omega) begins order inside small
      fun s later => whole s later
  rw [Begun.nothing_remaining, List.nil_append] at same
  have length := ParamScan.length_buffer reads.pending (stop ▸ inside)
  have short := reads.short
  have pending := reads.pending
  have vend : (BitVec.ofNat 32 (q.buffer url).length).toNat = (q.buffer url).length :=
    Message.toNat_offset _ (by omega)
  obtain ⟨stored, views⟩ := ParamScan.emit_reads (p := q.flush url) reads.marks reads.inside vend
  obtain ⟨_, _, qurl⟩ := ParamScan.emit_kept (q.flush url) (.ofNat 32 (q.buffer url).length)
  refine ⟨q.buffer url, ((q.flush url).emit (.ofNat 32 (q.buffer url).length)).qpairs, ?_, stored, ?_⟩
  · rw [searchParams, if_neg (Nat.ne_of_lt order), looped]
    exact congrArg some (Prod.ext qurl rfl)
  · rw [← same, ← reads.views]
    exact views

theorem searchParams_same (url : Bytes) (a : Nat) : searchParams url (a, a) = some ([], []) :=
  if_pos rfl

/-- The scan comes to an end in the ranges in order that do not cut an escape short. -/
theorem searchParams_some {found : Bytes × List KvOffsets}
    (scanned : searchParams url (a, b) = some found) :
    a ≤ b ∧ ∀ s, a < s → ¬ParamScan.Overshoots url b s := by
  by_cases same : a = b
  · refine ⟨same.le, fun s after cut => ?_⟩
    have := cut.1
    omega
  · rw [searchParams, if_neg same] at scanned
    obtain ⟨q, looped, _⟩ := Option.map_eq_some_iff.mp scanned
    constructor
    · by_contra past
      rw [ParamScan.loop_past url.length (by simp only; omega)] at looped
      contradiction
    · intro s after cut
      rw [ParamScan.loop_overshoots (p := { s := a + 1, last := a + 1 }) url.length cut after] at looped
      contradiction

/-- Ends of the search part, as they are stored, that enclose the same parameters. -/
def Encloses (url : Bytes) (a b : Nat) : Prop :=
  a ≤ b ∧ (∀ s, a < s → ¬ParamScan.Overshoots url b s) ∧
    parameters ((slice url a b).drop 1) = parameters ((searchPart url).drop 1)

theorem drop_slice {url : Bytes} (order : a < b) (inside : b ≤ url.length) :
    (slice url a b).drop 1 = slice url (a + 1) b := by
  rw [slice_cons order inside (0 : UInt8)]
  rfl

/-- The search part ends the url, or a `#` follows it. -/
theorem search_stops (url : Bytes) : isHex (url.getD (searchEnd url) 0) = false := by
  have next : (hashPart url).getD 0 0 = url.getD (searchEnd url) 0 := by
    have whole := url_eq url
    rw [beforeHash_eq] at whole
    have after := List.getD_append_right (beforeHash url) (hashPart url) 0 _ (Nat.le_refl _)
    rw [whole, Nat.sub_self] at after
    exact after.symm
  rw [← next]
  rcases head_dropWhile (· != octothorpe) url with none | ⟨c, head, stop⟩
  · rw [hashPart, none]
    rfl
  · obtain rfl : c = octothorpe := by simpa using stop
    obtain ⟨rest, split⟩ := List.head?_eq_some_iff.mp head
    rw [hashPart, split, List.getD_cons_zero]
    decide

theorem encloses_search (url : Bytes) : Encloses url (pathEnd url) (searchEnd url) := by
  refine ⟨by rw [searchEnd_eq]; exact Nat.le_add_right .., fun s _ cut => ?_, ?_⟩
  · obtain ⟨stop, _, _, low⟩ := cut
    rw [stop, search_stops] at low
    contradiction
  · rw [slice_search]

namespace Message

/-- `qurl` and `qpairs` after `info(info_params)`. -/
def readParams (m : Message) : Option (Bytes × List KvOffsets) := do
  let m ← m.withInfo infoParams
  let inf ← m.info
  return (inf.qurl, inf.qpairs)

theorem searchParamList_eq (m : Message) : m.searchParamList =
    m.readParams.map fun (qurl, qpairs) => qpairs.map fun k => (k.name qurl, k.value qurl) := by
  unfold searchParamList readParams
  cases m.withInfo infoParams with
  | none => rfl
  | some read => cases h : read.info <;> simp [h]

/-- Cached or not, the parameters are those of the url the message has now. -/
theorem Cached.readParams {m : Message} (cached : m.Cached) :
    m.readParams = searchParams m.url ((parts m.url).getD 1 (0, 0)) := by
  rcases withInfo_params cached with ⟨same, inf, info, flag⟩ | scanned
  · rw [Message.readParams, same, (cached inf info).params flag]
    simp [info]
  · rw [Message.readParams, scanned]
    cases searchParams m.url ((parts m.url).getD 1 (0, 0)) <;> rfl

/-- The parameters read are those of the query, and all offsets lie inside `qurl`. -/
def ReadsQuery (m : Message) : Prop :=
  ∃ qurl qpairs, m.readParams = some (qurl, qpairs) ∧ (∀ k ∈ qpairs, k.Inside qurl.length) ∧
    m.searchParamList = some (parameters ((searchPart m.url).drop 1))

theorem readsQuery_iff {m : Message} (cached : m.Cached) (allowed : Allowed m.url) :
    m.ReadsQuery ↔ Encloses m.url (unsigned (pathEnd m.url)) (unsigned (searchEnd m.url)) := by
  have read := cached.readParams
  rw [parts_allowed allowed] at read
  change m.readParams = searchParams m.url (unsigned (pathEnd m.url), unsigned (searchEnd m.url)) at read
  have inside : unsigned (searchEnd m.url) ≤ m.url.length := by
    have := length_eq m.url
    have := unsigned_le (searchEnd m.url)
    omega
  have small : unsigned (searchEnd m.url) < 2 ^ 32 := Nat.mod_lt _ (by decide)
  rw [ReadsQuery, searchParamList_eq, read]
  generalize unsigned (pathEnd m.url) = a at *
  generalize unsigned (searchEnd m.url) = b at *
  have finds : a ≤ b → (∀ s, a < s → ¬ParamScan.Overshoots m.url b s) → ∃ qurl qpairs,
      searchParams m.url (a, b) = some (qurl, qpairs) ∧ (∀ k ∈ qpairs, k.Inside qurl.length) ∧
        qpairs.map (fun k => (k.name qurl, k.value qurl)) = parameters ((slice m.url a b).drop 1) := by
    intro order whole
    rcases Nat.lt_or_eq_of_le order with less | rfl
    · rw [drop_slice less inside]
      exact searchParams_reads less inside small whole
    · rw [slice_self]
      exact ⟨[], [], searchParams_same _ _, nofun, rfl⟩
  constructor
  · rintro ⟨qurl, qpairs, found, _, list⟩
    obtain ⟨order, whole⟩ := searchParams_some found
    obtain ⟨qurl', qpairs', again, _, views⟩ := finds order whole
    rw [again] at list
    exact ⟨order, whole, views.symm.trans (Option.some.inj list)⟩
  · rintro ⟨order, whole, same⟩
    obtain ⟨qurl, qpairs, found, stored, views⟩ := finds order whole
    refine ⟨qurl, qpairs, found, stored, ?_⟩
    rw [found, ← same, ← views]
    rfl

/-- The parameters of a url are those of its query, where the ends of the search part fit in 32
bits or, by chance, still enclose the same parameters when they do not. -/
theorem search_params_exact {m₀ m : Message} (fresh : m₀.info = none)
    (path : Reaches step m₀ accesses m) (allowed : Allowed m.url) :
    m.ReadsQuery ↔ searchEnd m.url < 2 ^ 32 ∨
      Encloses m.url (unsigned (pathEnd m.url)) (unsigned (searchEnd m.url)) := by
  rw [readsQuery_iff (reached_cached fresh path) allowed]
  constructor
  · exact .inr
  · rintro (fits | encloses)
    · have order : pathEnd m.url ≤ searchEnd m.url := (encloses_search m.url).1
      rw [unsigned_small fits, unsigned_small (Nat.lt_of_le_of_lt order fits)]
      exact encloses_search m.url
    · exact encloses

/-- The query is read once more after the url has been changed. -/
theorem search_params_exact_changed :
    let asked : Message := { url := ascii "/?old" }
    let accesses := [.searchParams, .url (ascii "/a?x=1&y=%26+b&&=c#%4"), .urlField 0]
    ∃ m, Reaches step asked accesses m ∧ m.url = ascii "/a?x=1&y=%26+b&&=c#%4" ∧ m.ReadsQuery := by
  intro asked accesses
  obtain ⟨m, ran⟩ := Option.isSome_iff_exists.mp
    (show (run step asked accesses).isSome = true by decide +kernel)
  have url : m.url = ascii "/a?x=1&y=%26+b&&=c#%4" := by
    have kept : (run step asked accesses).map Message.url = some (ascii "/a?x=1&y=%26+b&&=c#%4") := by
      decide +kernel
    rw [ran] at kept
    exact Option.some.inj kept
  refine ⟨m, run_iff_reaches.mp ran, url,
    (search_params_exact rfl (run_iff_reaches.mp ran) ?_).mpr (.inl ?_)⟩
  · rw [url]
    decide +kernel
  · rw [url]
    decide +kernel

example : parameters (ascii "x=1&y=%26+b&&=c&%4") =
    [(ascii "x", ascii "1"), (ascii "y", ascii "& b"), ([], ascii "c"), (ascii "%4", [])] := by decide +kernel

/-- A query that ends at offset 2^32. -/
def longQuery : Bytes := slash :: question :: List.replicate (2 ^ 32 - 2) 97

theorem longQuery_allowed : Allowed longQuery := by
  refine ⟨rfl, fun c member => ?_⟩
  rcases List.mem_cons.mp member with rfl | member
  · exact .inl (by decide)
  · rcases List.mem_cons.mp member with rfl | other
    · exact .inr (.inl rfl)
    · rw [List.eq_of_mem_replicate other]
      exact .inl (by decide)

theorem searchEnd_longQuery : searchEnd longQuery = 2 ^ 32 := by
  have plain : beforeHash longQuery = longQuery := by
    rw [beforeHash, List.takeWhile_eq_self_iff]
    intro c member
    rcases List.mem_cons.mp member with rfl | member
    · decide
    · rcases List.mem_cons.mp member with rfl | other
      · decide
      · rw [List.eq_of_mem_replicate other]
        decide
  rw [searchEnd, plain, longQuery, List.length_cons, List.length_cons, List.length_replicate]
  omega

theorem pathEnd_longQuery : pathEnd longQuery = 1 := by
  have path : beforeSearch longQuery = [slash] := by
    rw [beforeSearch, longQuery, List.takeWhile_cons_of_pos (by decide),
      List.takeWhile_cons_of_neg (by decide)]
  rw [pathEnd, path]
  rfl

theorem long_query_not_read : ¬({ url := longQuery } : Message).ReadsQuery := by
  intro reads
  have order := ((readsQuery_iff (fresh_cached rfl) longQuery_allowed).mp reads).1
  change unsigned (pathEnd longQuery) ≤ unsigned (searchEnd longQuery) at order
  rw [pathEnd_longQuery, searchEnd_longQuery] at order
  exact absurd order (by decide)

end Message

end Cotamer.Http

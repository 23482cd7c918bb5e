import Cotamer.Http.Receive
import Cotamer.Transition

/-! `receive` with the addresses of its buffers: an error position is a pointer kept inside the
parser, and the number of consumed bytes is its distance from the buffer just passed. -/
namespace Cotamer.Http
open Chunked Transition

/-- The functions of `llhttp`, given a buffer by its address and contents, and the longest that a
string can become. -/
structure LLHttp (σ : Type) where
  execute : σ → Nat → Bytes → List Call × σ × Errno
  unwound : σ → Nat → Bytes → σ       -- left by an exception out of a callback
  room : Nat
  errorPos : σ → Nat
  resume : σ → σ
  resumeAfterUpgrade : σ → σ
  setError : σ → Errno → σ
  reset : σ → σ
  status : σ → Status

namespace LLHttp
variable {σ : Type} (L : LLHttp σ)

def error (p : σ) : Errno := (L.status p).error

/-- `consumed`, from the result of parsing `buf` at `first`. -/
def consumed (r : List Call × σ × Errno) (first : Nat) (buf : Bytes) : Int :=
  if r.2.2 = HPE_OK then buf.length else L.errorPos r.2.1 - first

/-- An error stops the parser for good and leaves its position alone; a new one is in the buffer
being parsed. -/
structure Lawful : Prop where
  stuck : L.error p ≠ HPE_OK → L.execute p start buf = ([], p, L.error p)
  inside : L.error p = HPE_OK → (L.execute p start buf).2.2 ≠ HPE_OK →
    start ≤ L.errorPos (L.execute p start buf).2.1 ∧
      L.errorPos (L.execute p start buf).2.1 ≤ start + buf.length

end LLHttp

/-- What one round passed to the parser, how much of it counts as consumed, and what was saved;
nothing is saved when the rest is not part of the buffer. -/
structure Slice where
  whole : Bytes
  consumed : Int
  saved : Option Bytes
  deriving DecidableEq, Repr

def Slice.Inside (x : Slice) : Prop :=
  0 ≤ x.consumed ∧ x.consumed ≤ x.whole.length ∧ ∃ rest ∈ x.saved, rest <:+ x.whole

/-- An `http_parser` and the `receive` call that owns `m_[0]`, with its `stackbuf`. -/
structure Receiver (σ : Type) where
  parser : σ
  buffer : Bytes := []                        -- receive_buffer_
  place : Nat := 0                            -- receive_buffer_.data()
  call : Option (MessageData × Nat) := none
  received : List Message := []
  slices : List Slice := []
  undefined : Bool := false
  deriving DecidableEq, Repr

namespace Receiver

inductive Label where
  | start (stack : Nat)
  | recv (piece : Bytes) (place : Nat)
  | drain (place : Nat)
  | closed
  | destroy                      -- the task ends while it is suspended in recv
  | clear
  deriving DecidableEq, Repr

def bufsize : Nat := 8192

variable {σ : Type} (L : LLHttp σ)

/-- The end of a call. -/
def finish (s : Receiver σ) (md : MessageData) : Receiver σ :=
  if md.state ≠ .done ∧ md.hm.error = HPE_OK then
    { s with
      parser := L.setError s.parser HPE_CLOSED_CONNECTION, call := none
      received := s.received ++ [{ md.hm with error := HPE_CLOSED_CONNECTION }] }
  else { s with call := none, received := s.received ++ [md.hm] }

/-- The rest of a round, with the unconsumed bytes saved. -/
def goOn (s : Receiver σ) (md : MessageData) (stack : Nat) (err : Errno) : Receiver σ :=
  let stopped := err = HPE_PAUSED_UPGRADE ∨ err = HPE_PAUSED
  let parser := if err = HPE_PAUSED_UPGRADE then L.resumeAfterUpgrade s.parser
    else if err = HPE_PAUSED then L.resume s.parser else s.parser
  let md := if stopped then { md with state := .done } else md
  let s := { s with parser }
  if err ≠ HPE_OK ∨ md.state = .done then s.finish L (md.copyParserStatus (L.status parser))
  else { s with call := some (md, stack) }

/-- A round, once `buf` has been found at `first`; a string allocated now lies at `place`. -/
def turn (s : Receiver σ) (md : MessageData) (stack first : Nat) (buf : Bytes) (place : Nat) :
    Receiver σ :=
  let r := L.execute s.parser first buf
  match md.handleAll L.room r.1 with
  | .error _ => { s with parser := L.unwound s.parser first buf, call := none }
  | .ok md =>
    let consumed := L.consumed r first buf
    if 0 ≤ consumed ∧ consumed ≤ buf.length then
      let rest := buf.drop consumed.toNat
      goOn L { s with
        parser := r.2.1
        buffer := rest
        place := if consumed = buf.length then s.place else place
        slices := s.slices ++ [Slice.mk buf consumed (some rest)] } md stack r.2.2
    else { s with undefined := true, slices := s.slices ++ [Slice.mk buf consumed none] }

def step (s : Receiver σ) : Label → Option (Receiver σ)
  | .start stack =>
    if s.undefined ∨ s.call.isSome then none
    else some { s with call := some ({ hm := { statusCode := 0 } }, stack) }
  | .recv piece place =>
    match s.call with
    | none => none
    | some (md, stack) =>
      if s.undefined ∨ s.buffer ≠ [] ∨ piece = [] ∨ bufsize < piece.length then none
      else some (s.turn L md stack stack piece place)
  | .drain place =>
    match s.call with
    | none => none
    | some (md, stack) =>
      if s.undefined ∨ s.buffer = [] then none
      else some (s.turn L md stack s.place s.buffer place)
  | .closed =>
    match s.call with
    | none => none
    | some (md, _) => if s.undefined ∨ s.buffer ≠ [] then none else some (s.finish L md)
  | .destroy =>
    if s.undefined ∨ s.buffer ≠ [] ∨ s.call = none then none else some { s with call := none }
  | .clear => if s.undefined then none else some { s with parser := L.reset s.parser, buffer := [] }

/-- The buffer passed to `llhttp_execute`. -/
def target (s : Receiver σ) : Label → Option (Nat × Bytes)
  | .recv piece _ => s.call.map fun c => (c.2, piece)
  | .drain _ => some (s.place, s.buffer)
  | _ => none

/-- Everything saved was the end of the buffer just parsed. -/
def Sliced (s : Receiver σ) : Prop := ∀ x ∈ s.slices, x.Inside

/-- The parser is not in an error state, or its error position happens to be in the buffer. -/
def Careful (s : Receiver σ) (l : Label) : Prop :=
  ∀ b ∈ s.target l, L.error s.parser = HPE_OK ∨
    b.1 ≤ L.errorPos s.parser ∧ L.errorPos s.parser ≤ b.1 + b.2.length

instance (s : Receiver σ) (l : Label) : Decidable (s.Careful L l) :=
  inferInstanceAs (Decidable (∀ b ∈ s.target l, _))

variable {L} {s t : Receiver σ} {l : Label} {ls : List Label}

theorem finish_slices (s : Receiver σ) (md : MessageData) : (s.finish L md).slices = s.slices := by
  unfold finish
  split <;> rfl

theorem goOn_slices (s : Receiver σ) (md : MessageData) (stack : Nat) (err : Errno) :
    (s.goOn L md stack err).slices = s.slices := by
  simp only [goOn, apply_ite Receiver.slices, finish_slices, ite_self]

theorem sliced_snoc {x : Slice} (sliced : s.Sliced) (added : t.slices = s.slices ++ [x]) :
    t.Sliced ↔ x.Inside := by
  unfold Sliced
  rw [added]
  constructor
  · intro all
    exact all x (by simp)
  · intro inside y member
    rcases List.mem_append.mp member with old | new
    · exact sliced y old
    · exact List.mem_singleton.mp new ▸ inside

/-- The consumed bytes are part of the buffer exactly if the parser had no error, or one whose
position is in there. -/
theorem consumed_iff (lawful : L.Lawful) (p : σ) (first : Nat) (buf : Bytes) :
    (0 ≤ L.consumed (L.execute p first buf) first buf ∧
        L.consumed (L.execute p first buf) first buf ≤ buf.length) ↔
      L.error p = HPE_OK ∨ first ≤ L.errorPos p ∧ L.errorPos p ≤ first + buf.length := by
  by_cases fine : L.error p = HPE_OK
  · refine iff_of_true ?_ (.inl fine)
    by_cases parsed : (L.execute p first buf).2.2 = HPE_OK
    · simp [LLHttp.consumed, parsed]
    · obtain ⟨low, high⟩ := lawful.inside fine parsed
      simp only [LLHttp.consumed, parsed, if_false]
      omega
  · simp only [LLHttp.consumed, lawful.stuck fine, fine, if_false, false_or]
    omega

theorem turn_exact (lawful : L.Lawful) (sliced : s.Sliced) (md : MessageData)
    (stack first : Nat) (buf : Bytes) (place : Nat) :
    (s.turn L md stack first buf place).Sliced ↔
      L.error s.parser = HPE_OK ∨
        first ≤ L.errorPos s.parser ∧ L.errorPos s.parser ≤ first + buf.length := by
  simp only [turn]
  split
  · -- a parser in an error state makes no callbacks
    rename_i e thrown
    refine iff_of_true sliced (.inl ?_)
    by_contra failed
    rw [lawful.stuck failed] at thrown
    contradiction
  · rw [← consumed_iff lawful]
    split
    · rename_i inside
      refine iff_of_true ((sliced_snoc sliced (goOn_slices _ _ _ _)).mpr ?_) inside
      exact ⟨inside.1, inside.2, _, rfl, List.drop_suffix _ _⟩
    · rename_i outside
      refine iff_of_false (fun all => ?_) outside
      have inside := (sliced_snoc sliced rfl).mp all
      exact outside ⟨inside.1, inside.2.1⟩

theorem step_exact (lawful : L.Lawful) (sliced : s.Sliced) (made : s.step L l = some t) :
    t.Sliced ↔ s.Careful L l := by
  cases l with
  | start stack =>
      simp only [step, Option.ite_none_left_eq_some] at made
      cases made.2
      exact iff_of_true sliced nofun
  | recv piece place =>
      simp only [step] at made
      split at made
      · contradiction
      · rename_i called
        simp only [Option.ite_none_left_eq_some] at made
        cases made.2
        rw [turn_exact lawful sliced]
        simp [Careful, target, called]
  | drain place =>
      simp only [step] at made
      split at made
      · contradiction
      · simp only [Option.ite_none_left_eq_some] at made
        cases made.2
        rw [turn_exact lawful sliced]
        simp [Careful, target]
  | closed =>
      simp only [step] at made
      split at made
      · contradiction
      · simp only [Option.ite_none_left_eq_some] at made
        cases made.2
        refine iff_of_true ?_ nofun
        unfold Sliced
        rwa [finish_slices]
  | destroy =>
      simp only [step, Option.ite_none_left_eq_some] at made
      cases made.2
      exact iff_of_true sliced nofun
  | clear =>
      simp only [step, Option.ite_none_left_eq_some] at made
      cases made.2
      exact iff_of_true sliced nofun

/-- Over any sequence of calls, `receive` slices inside its buffers exactly if the parser is never
run with an error whose position lies elsewhere. -/
theorem receive_slices (lawful : L.Lawful) (p : σ) (made : Reaches (step L) { parser := p } ls t) :
    Always (step L) Sliced { parser := p } ls ↔ Meets (step L) (Careful L) { parser := p } ls :=
  always_iff_meets (Q := fun _ => True) (fun _ _ _ _ => trivial)
    (fun _ sliced made => step_exact lawful sliced made) made trivial nofun

/-! A parser of requests whose method never ends: it rejects a buffer at its first `?`. -/

/-- `HPE_INVALID_METHOD` -/
def invalidMethod : Errno := 6

structure Rejecting where
  error : Errno := HPE_OK
  errorPos : Nat := 0
  begun : Bool := false
  deriving DecidableEq, Repr

def rejecting : LLHttp Rejecting where
  execute p start buf :=
    if p.error ≠ HPE_OK then ([], p, p.error)
    else
      let calls := if p.begun ∨ buf = [] then [] else [Call.messageBegin]
      let begun := p.begun || !buf.isEmpty
      if 63 ∈ buf then (calls, ⟨invalidMethod, start + buf.idxOf 63, begun⟩, invalidMethod)
      else (calls, { p with begun }, HPE_OK)
  unwound p _ _ := p
  room := 2 ^ 63 - 2
  errorPos := Rejecting.errorPos
  resume p := if p.error = HPE_PAUSED then { p with error := HPE_OK } else p
  resumeAfterUpgrade p := if p.error = HPE_PAUSED_UPGRADE then { p with error := HPE_OK } else p
  setError p e := { p with error := e }
  reset _ := {}
  status p := ⟨0, 0, 0, 0, p.error, false⟩

theorem rejecting_lawful : rejecting.Lawful where
  stuck failed := if_pos failed
  inside {p start buf} fine failed := by
    have fine' : p.error = HPE_OK := fine
    by_cases found : (63 : UInt8) ∈ buf
    · have bound := List.idxOf_lt_length_iff.mpr found
      simp only [rejecting, fine', found, ne_eq, not_true, if_false, if_true]
      omega
    · simp [rejecting, fine', found] at failed

/-- A request is read in two pieces, the second is rejected, and the parser is reset. -/
def rejected : List Label :=
  [.start 100, .recv [71, 69] 200, .recv [84, 63, 63] 200, .clear, .start 100, .recv [71] 200, .destroy]

def afterRejected : Receiver Rejecting :=
  { parser := { begun := true }
    place := 200
    received := [{ major := 0, minor := 0, statusCode := 0, method := 0, error := invalidMethod }]
    slices := [⟨[71, 69], 2, some []⟩, ⟨[84, 63, 63], 1, some [63, 63]⟩, ⟨[71], 1, some []⟩] }

theorem receive_slices_rejected : Always (step rejecting) Sliced { parser := {} } rejected :=
  (receive_slices rejecting_lawful {} (run_iff_reaches.mp (by decide +kernel :
    run (step rejecting) { parser := {} } rejected = some afterRejected))).mpr (by decide +kernel)

/-- After an error the rest of the input is passed again, from another place. -/
theorem error_position_elsewhere :
    ¬Always (step rejecting) Sliced { parser := {} }
      [.start 100, .recv [63, 120] 200, .start 100, .drain 0] := by
  intro all
  have last := (((all.2 _ rfl).2 _ rfl).2 _ rfl).2 _ rfl
  have inside := last ⟨[63, 120], -100, none⟩ (by decide +kernel)
  exact absurd inside.1 (by decide)

end Receiver
end Cotamer.Http

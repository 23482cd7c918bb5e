import Cotamer.Ballots
import Cotamer.Transition
import Mathlib

/-! Chandra-Toueg consensus over the simulated network. A server's coroutine goes from
one `co_await` to the next, and a message that was sent may arrive at any time after,
so every step is one message sent or received, or one failure suspected. -/
namespace Cotamer.Consensus
open Ballots

abbrev Color := String

inductive MessageType where
  | prepare | propose | ack | decide
  deriving DecidableEq, Repr

structure Message where
  type : MessageType
  round : Nat                 -- all but decide
  color : Color               -- all but ack
  colorRound : Nat            -- only prepare
  ack : Bool                  -- only ack
  deriving DecidableEq, Repr

def prepareMessage (round : Nat) (color : Color) (colorRound : Nat) : Message :=
  ⟨.prepare, round, color, colorRound, false⟩

def proposeMessage (round : Nat) (color : Color) : Message := ⟨.propose, round, color, 0, false⟩

def ackMessage (round : Nat) (ack : Bool) : Message := ⟨.ack, round, "", 0, ack⟩

def decideMessage (color : Color) : Message := ⟨.decide, 0, color, 0, false⟩

/-- A message with the server that sent it, which `receive` drops. -/
structure Packet (n : Nat) where
  message : Message
  source : Fin n
  deriving DecidableEq, Repr

/-- Where the coroutine `consensus` is. `left` is what a call of `receive` still has to
look at in the stash. -/
inductive Pc where
  | prepare                             -- phase 1, about to send
  | collect (received left : Nat)       -- phase 2, in `receive`
  | propose (next : Nat)                -- phase 3, about to send to `next`
  | wait (left : Nat)                   -- phase 4, in `attempt`
  | ack (proposed : Bool)               -- phase 4, about to send
  | count (success total left : Nat)    -- phase 5, in `receive`
  | decide (next : Option Nat)          -- about to send the decision to Nancy, or to `next`
  | finished
  deriving DecidableEq, Repr

structure Server (n : Nat) where
  round : Nat := 1
  color : Color
  colorRound : Nat := 0
  stash : List (Packet n) := []
  decided : Bool := false
  pc : Pc := .prepare
  heard : List (Packet n) := []         -- what the current phase has received, not in the code
  deriving DecidableEq, Repr

/-- What Nancy prints before she clears the driver, if she does not approve. -/
inductive Complaint where
  | unexpected (m : Message)
  | disagrees (m : Message)
  | terminated
  deriving DecidableEq, Repr

structure Nancy where
  required : Color                      -- the empty string if there is none
  received : Nat := 0
  consensus : Color := ""
  stopper : Bool := false               -- set to go off
  done : Bool := false
  complaint : Option Complaint := none
  deriving DecidableEq, Repr

/-- Servers with the messages on their way to each. The last two fields are history. -/
structure State (n : Nat) where
  servers : Fin n → Server n
  inbox : Fin n → List (Packet n)
  nancy : Nancy
  mail : List Message := []             -- on its way to Nancy
  proposals : List (Nat × Color) := []
  accepts : List (Fin n × Nat × Color) := []

inductive Action (n : Nat) where
  | send (i : Fin n)
  | receive (i : Fin n) (k : Nat)       -- the message at `k` arrives, unless one is stashed
  | suspect (i : Fin n)                 -- `failure_detector` triggers
  | nancy (k : Nat)
  | stop                                -- Nancy's `stopper` triggers
  deriving DecidableEq, Repr

variable {n : Nat}

namespace Server

/-- One round of the loop of `receive`, with the message it takes. A decision, and a
message of another phase, are not returned. -/
def take (s : Server n) (mt : MessageType) (p : Packet n) : Server n × Option Message :=
  let m := p.message
  if m.type = .decide then ({ s with color := m.color, decided := true }, none)
  else if m.type ≠ mt ∨ m.round ≠ s.round then
    (if s.round ≤ m.round then { s with stash := s.stash ++ [p] } else s, none)
  else ({ s with heard := s.heard ++ [p] }, some m)

/-- The next phase; it starts to receive with what is stashed. -/
def goto (s : Server n) (pc : Pc) : Server n := { s with pc, heard := [] }

/-- The body of the loop of phase 2. -/
def prepared (s : Server n) (received : Nat) (m : Message) : Server n :=
  let s := if s.colorRound < m.colorRound then { s with color := m.color, colorRound := m.colorRound } else s
  if received + 1 ≤ n / 2 then { s with pc := .collect (received + 1) s.stash.length }
  else s.goto (.propose 0)

def proposed (s : Server n) (m : Message) : Server n :=
  { s with color := m.color, colorRound := s.round }.goto (.ack true)

/-- The body of the loop of phase 5, and what follows it. -/
def acked (s : Server n) (success total : Nat) (m : Message) : Server n :=
  let success := if m.ack then success + 1 else success
  if total + 1 ≤ n / 2 then { s with pc := .count success (total + 1) s.stash.length }
  else if n / 2 < success then { s with decided := true }.goto (.decide none)
  else { s with round := s.round + 1 }.goto .prepare

/-- A server that has decided leaves its phase: `receive` returns at once from then on. -/
def resume (s : Server n) (pc : Pc) : Server n :=
  if s.decided then s.goto (.decide none) else { s with pc }

end Server

namespace State

/-- `round_ % N_` -/
def leader [NeZero n] (r : Nat) : Fin n := Fin.ofNat n r

def setServer (s : State n) (i : Fin n) (sv : Server n) : State n :=
  { s with servers := Function.update s.servers i sv }

/-- `net_.link(i, j).send(m)` -/
def post (s : State n) (i j : Fin n) (m : Message) : State n :=
  { s with inbox := Function.update s.inbox j (s.inbox j ++ [⟨m, i⟩]) }

/-- The message that `receive` takes next: the stash goes first. -/
def next (s : State n) (i : Fin n) (k left : Nat) : Option (Packet n × State n) :=
  let sv := s.servers i
  match left with
  | 0 => (s.inbox i)[k]?.map fun p => (p, { s with inbox := Function.update s.inbox i ((s.inbox i).eraseIdx k) })
  | _ + 1 => sv.stash.head?.map fun p => (p, s.setServer i { sv with stash := sv.stash.tail })

variable [NeZero n]

/-- After phase 1, 3 and 4. -/
def send (s : State n) (i : Fin n) : Option (State n) :=
  let sv := s.servers i
  match sv.pc with
  | .prepare =>
    let s := s.post i (leader sv.round) (prepareMessage sv.round sv.color sv.colorRound)
    let pc := if i = leader sv.round then .collect 0 sv.stash.length else .wait sv.stash.length
    some (s.setServer i (sv.goto pc))
  | .propose next =>
    if h : next < n then
      let s := s.post i ⟨next, h⟩ (proposeMessage sv.round sv.color)
      some (s.setServer i (sv.goto (if next + 1 < n then .propose (next + 1) else .wait sv.stash.length)))
    else none
  | .ack proposed =>
    let s := s.post i (leader sv.round) (ackMessage sv.round proposed)
    some (s.setServer i (if i = leader sv.round then sv.goto (.count 0 0 sv.stash.length)
      else { sv with round := sv.round + 1 }.goto .prepare))
  | .decide none =>
    some ({ s with mail := s.mail ++ [decideMessage sv.color] }.setServer i (sv.goto (.decide (some 0))))
  | .decide (some next) =>
    if h : next < n then
      let s := if next = i then s else s.post i ⟨next, h⟩ (decideMessage sv.color)
      some (s.setServer i (sv.goto (if next + 1 < n then .decide (some (next + 1)) else .finished)))
    else none
  | _ => none

/-- One round of the loop of `receive`, and what the caller does with the result. -/
def receive (s : State n) (i : Fin n) (k : Nat) : Option (State n) :=
  match (s.servers i).pc with
  | .collect received left =>
    (s.next i k left).map fun (p, s) =>
      match (s.servers i).take .prepare p with
      | (sv, none) => s.setServer i (sv.resume (.collect received (left - 1)))
      | (sv, some m) =>
        let sv := sv.prepared received m
        let s := s.setServer i sv
        if sv.pc = .propose 0 then { s with proposals := (sv.round, sv.color) :: s.proposals } else s
  | .wait left =>
    (s.next i k left).map fun (p, s) =>
      match (s.servers i).take .propose p with
      | (sv, none) => s.setServer i (sv.resume (.wait (left - 1)))
      | (sv, some m) =>
        let sv := sv.proposed m
        { s.setServer i sv with accepts := (i, sv.round, sv.color) :: s.accepts }
  | .count success total left =>
    (s.next i k left).map fun (p, s) =>
      match (s.servers i).take .ack p with
      | (sv, none) => s.setServer i (sv.resume (.count success total (left - 1)))
      | (sv, some m) => s.setServer i (sv.acked success total m)
  | _ => none

/-- `attempt` gives up while `receive` waits for the network. -/
def suspect (s : State n) (i : Fin n) : Option (State n) :=
  let sv := s.servers i
  if sv.pc = .wait 0 then some (s.setServer i (sv.goto (.ack false))) else none

end State

namespace Nancy

def complain (a : Nancy) (c : Complaint) : Nancy := { a with done := true, complaint := some c }

/-- One round of Nancy's loop. -/
def hear (a : Nancy) (n : Nat) (m : Message) : Nancy :=
  if m.type ≠ .decide ∨ m.color ≠ "red" ∧ m.color ≠ "blue" then a.complain (.unexpected m)
  else if a.required ≠ "" ∧ m.color ≠ a.required ∨ a.consensus ≠ "" ∧ m.color ≠ a.consensus then
    a.complain (.disagrees m)
  else { a with
    consensus := m.color
    received := a.received + 1
    stopper := a.stopper || decide (n / 2 < a.received + 1) }

def stop (a : Nancy) (n : Nat) : Nancy :=
  if a.received ≤ n / 2 then a.complain .terminated else { a with done := true }

end Nancy

namespace State

/-- Once Nancy is done, the driver is cleared. -/
def step [NeZero n] (s : State n) (a : Action n) : Option (State n) :=
  if s.nancy.done then none
  else match a with
    | .send i => s.send i
    | .receive i k => s.receive i k
    | .suspect i => s.suspect i
    | .nancy k => s.mail[k]?.map fun m => { s with nancy := s.nancy.hear n m, mail := s.mail.eraseIdx k }
    | .stop => if s.nancy.stopper then some { s with nancy := s.nancy.stop n } else none

/-- `required_consensus`: the initial color of all servers, or the empty string. -/
def required : List Color → Color
  | [] => ""
  | c :: rest => rest.foldl (fun required color => if required ≠ color then "" else required) c

/-- `try_one_seed` -/
def start (colors : Fin n → Color) : State n where
  servers i := { color := colors i }
  inbox _ := []
  nancy := { required := required (List.ofFn colors) }

end State
end Cotamer.Consensus

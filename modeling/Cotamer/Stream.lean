import Cotamer.Stream.Buffer
import Cotamer.Transition

/-! Two `message_stream` objects at the ends of a connection. In each, the loop coroutine
and the coroutine that has the mutex wake each other through one-shot events, of which
a notifier is triggered or is waited for. -/
namespace Cotamer.Stream
open Transition

/-- `backlog` -/
def backlog : Nat := 2 ^ 20

inductive Status where
  | running | eof | error
  deriving DecidableEq, Repr

/-- Where `writer_loop` or `reader_loop` is. -/
inductive LoopPc where
  | active                    -- at the head of its loop
  | asleep                    -- in `co_await loop_notifier_.arm()`
  | polling                   -- until the descriptor is writable or readable
  | done
  deriving DecidableEq, Repr

structure Sender where
  buffer : Buffer := {}
  status : Status := .running
  client : Bool := true       -- client_notifier_ is triggered
  loop : Bool := true         -- loop_notifier_ is triggered
  pc : LoopPc := .active
  waiting : Option (List UInt8) := none   -- `send` waits with this message
  deriving DecidableEq, Repr

structure Receiver where
  buffer : Buffer := {}
  status : Status := .running
  client : Bool := true
  loop : Bool := true
  pc : LoopPc := .active
  waiting : Bool := false     -- `recv` waits
  deriving DecidableEq, Repr

/-- The answer of `::write` or `::read`, unless the loop finds its descriptor closed. -/
inductive Answer where
  | moved (k : Nat)
  | again
  | eof
  | failed
  | closed                    -- !f
  deriving DecidableEq, Repr

namespace Sender

/-- One test of the wait of `send`, and what follows it. It says whether the message is
sent; otherwise `send` waits or throws. -/
def trySend (s : Sender) (m : List UInt8) : Option (Sender × Bool) :=
  if 0 < s.buffer.len ∧ backlog < s.buffer.len + m.length ∧ s.status = .running then
    some ({ s with client := false, waiting := some m }, false)
  else if s.status ≠ .running then some ({ s with waiting := none }, false)
  else (s.buffer.append m).map fun buffer => ({ s with buffer, loop := true, waiting := none }, true)

/-- One round of `writer_loop`, with what it puts on the wire. -/
def round (s : Sender) (a : Answer) : Option (Sender × List UInt8) :=
  if s.pc ≠ .active then none
  else if a = .closed then some ({ s with status := .error, client := true, pc := .done }, [])
  else if s.buffer.len = 0 then some ({ s with loop := false, pc := .asleep }, [])
  else match a with
    | .moved k =>
      if 0 < k ∧ k ≤ s.buffer.len then
        let buffer := s.buffer.consume k
        some ({ s with buffer, client := s.client || decide (buffer.len < backlog) }, s.buffer.content.take k)
      else none
    | .again => some ({ s with pc := .polling }, [])
    | _ => some ({ s with status := .error, client := true, pc := .done }, [])

end Sender

namespace Receiver

/-- One test of the wait of `recv`, and what follows it. At the end of the input there is
no message. -/
def tryRecv (s : Receiver) : Option (Receiver × Option (List UInt8)) :=
  s.buffer.firstMessageLength.bind fun fml =>
    if s.buffer.len < fml then
      if s.status ≠ .running then some ({ s with waiting := false }, none)
      else some ({ s with loop := true, client := false, waiting := true }, none)
    else (s.buffer.remove fml).map fun (m, buffer) => ({ s with buffer, waiting := false }, some m)

/-- One round of `reader_loop`, with what it leaves on the wire. -/
def round (s : Receiver) (wire : List UInt8) (a : Answer) : Option (Receiver × List UInt8) :=
  if s.pc ≠ .active then none
  else if a = .closed then some ({ s with status := .error, client := true, pc := .done }, wire)
  else if s.client then some ({ s with loop := false, pc := .asleep }, wire)
  else s.buffer.reserve.bind fun buffer =>
    match a with
    | .moved k =>
      if 0 < k ∧ k ≤ buffer.room ∧ k ≤ wire.length then
        (buffer.fill (wire.take k)).map fun buffer => ({ s with buffer, client := true }, wire.drop k)
      else none
    | .again => some ({ s with buffer, pc := .polling }, wire)
    | .eof => some ({ s with buffer, status := .eof, client := true, pc := .done }, wire)
    | _ => some ({ s with buffer, status := .error, client := true, pc := .done }, wire)

end Receiver

/-- The loop goes on when its notifier or the descriptor lets it. -/
def LoopPc.wakes (pc : LoopPc) (loop : Bool) : Bool := pc == .polling || pc == .asleep && loop

/-- The messages sent and received are history. -/
structure Channel where
  sender : Sender := {}
  wire : List UInt8 := []
  receiver : Receiver := {}
  sent : List (List UInt8) := []
  received : List (List UInt8) := []
  deriving DecidableEq, Repr

inductive Label where
  | send (m : List UInt8)     -- the mutex is free
  | resend                    -- `client_notifier_` wakes `send`
  | write (a : Answer)
  | wakeWriter
  | recv
  | rerecv
  | read (a : Answer)
  | wakeReader
  deriving DecidableEq, Repr

namespace Channel

def trySend (s : Channel) (m : List UInt8) : Option Channel :=
  (s.sender.trySend m).map fun (sender, sent) =>
    { s with sender, sent := if sent then s.sent ++ [m] else s.sent }

def tryRecv (s : Channel) : Option Channel :=
  s.receiver.tryRecv.map fun (receiver, m) => { s with receiver, received := s.received ++ m.toList }

def step (s : Channel) : Label → Option Channel
  | .send m => if s.sender.waiting = none then s.trySend m else none
  | .resend => if s.sender.client then s.sender.waiting.bind s.trySend else none
  | .write a => (s.sender.round a).map fun (sender, bytes) => { s with sender, wire := s.wire ++ bytes }
  | .wakeWriter =>
    if s.sender.pc.wakes s.sender.loop then some { s with sender := { s.sender with pc := .active } } else none
  | .recv => if s.receiver.waiting then none else s.tryRecv
  | .rerecv => if s.receiver.waiting && s.receiver.client then s.tryRecv else none
  | .read a => (s.receiver.round s.wire a).map fun (receiver, wire) => { s with receiver, wire }
  | .wakeReader =>
    if s.receiver.pc.wakes s.receiver.loop then some { s with receiver := { s.receiver with pc := .active } }
    else none

end Channel
end Cotamer.Stream

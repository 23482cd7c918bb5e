import Cotamer.Event.Handles
import Cotamer.Transition

/-! Everything that can happen to events: client code creates, combines, copies,
drops and triggers them, coroutines wait on them and are cancelled, and drivers
visit those in their queues. A driver visits an event by calling
`driver_trigger` on it until no coroutine is returned. -/
namespace Cotamer.Event
open Transition

inductive Op where
  | create
  | combine (form : Form) (args : List Handle) (current : DriverId)
  | copy (n : EventId)
  | drop (n : EventId)
  | trigger (n : EventId) (current : DriverId)
  | await (c : CoroutineId) (n : EventId)
  | cancel (c : CoroutineId)
  | asap (d : DriverId) (n : EventId)
  | closeFd (d : DriverId) (fd : Nat)
  | migrate (d : DriverId)
  | popAsap (d : DriverId)
  | takeHandle (d : DriverId) (n : EventId)
  | driverTrigger (d : DriverId)
  deriving DecidableEq, Repr

/-- A combinator call and the event it returned. -/
structure Node where
  form : Form
  args : List Handle
  result : Handle
  deriving DecidableEq, Repr

/-- The graph with the handles outside it. Handles in timers and fd watches
count as client handles. `nodes`, `args` and `explicit` record the combinator
calls made and the events triggered by a call or a visit. -/
structure World where
  graph : Graph := {}
  outside : Outside := {}
  nodes : List Node := []
  args : EventId → List Handle := fun _ => []
  explicit : EventId → Bool := fun _ => false

namespace World
variable (home : CoroutineId → DriverId)

def mark (s : World) (n : EventId) : EventId → Bool := fun m => m = n || s.explicit m

/-- The event and its handle after a combinator call. -/
def combined (s : World) (form : Form) (args : List Handle) (current : DriverId) : World :=
  let r := form.apply home current args s.graph
  { s with
    graph := r.1
    outside := s.outside.giveHandle r.2
    nodes := ⟨form, args, r.2⟩ :: s.nodes
    args := if 2 ≤ args.length then fun q => if q = s.graph.next then args else s.args q else s.args }

/-- One `driver_trigger` call of a visit. A returned coroutine runs, and its
awaiter's handle is dropped later; a null result ends the visit. -/
def visited (s : World) (d : DriverId) (n : EventId) : World :=
  let w := s.graph.driverTrigger home d n
  match w.coh with
  | none => { s with
      graph := w.graph.deref n, outside := s.outside.visit d none, explicit := s.mark n }
  | some c => { s with
      graph := w.graph
      outside := (s.outside.giveHandle (s.outside.waiting c)).wait c none
      explicit := s.mark n }

def step (s : World) : Op → Option World
  | .create =>
    some { s with graph := s.graph.alloc {}, outside := s.outside.give s.graph.next }
  | .combine form args current =>
    if args.all s.outside.holds then some (s.combined home form args current) else none
  | .copy n =>
    if 0 < s.outside.client n then
      some { s with graph := s.graph.ref n, outside := s.outside.give n }
    else none
  | .drop n =>
    if 0 < s.outside.client n then
      some { s with graph := s.graph.deref n, outside := s.outside.take n }
    else none
  | .trigger n current =>
    if 0 < s.outside.client n then
      some { s with graph := s.graph.trigger home current n, explicit := s.mark n }
    else none
  | .await c n =>
    if 0 < s.outside.client n ∧ s.outside.waiting c = none ∧ (s.graph.body n).triggered = false then
      some { s with graph := s.graph.await c n, outside := s.outside.wait c (some n) }
    else none
  | .cancel c =>
    match s.outside.waiting c with
    | none => none
    | some n => some { s with graph := s.graph.cancel c n, outside := s.outside.wait c none }
  | .asap d n =>
    if 0 < s.outside.client n then
      some { s with graph := s.graph.postAsap d n, outside := s.outside.take n }
    else none
  | .closeFd d fd => some { s with graph := s.graph.migrateClose d fd }
  | .migrate d => some { s with graph := s.graph.finishMigrate d }
  | .popAsap d =>
    match s.outside.visiting d, (s.graph.inbox d).asap with
    | none, n :: _ =>
      some { s with graph := s.graph.popAsap d, outside := s.outside.visit d (some n) }
    | _, _ => none
  | .takeHandle d n =>
    if 0 < s.outside.client n ∧ s.outside.visiting d = none then
      some { s with outside := (s.outside.take n).visit d (some n) }
    else none
  | .driverTrigger d =>
    match s.outside.visiting d with
    | none => none
    | some n => some (s.visited home d n)

end World
end Cotamer.Event

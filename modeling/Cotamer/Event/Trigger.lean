import Cotamer.Event.Body

/-! `trigger_unlock` and what it calls: the listeners of a triggered event are
split into quorums, which are informed and may trigger in turn, and coroutines,
whose home drivers are sent the event. One call runs to its end without
returning to user code, so it is one step. -/
namespace Cotamer.Event
open SwapVector

/-- A graph with the coroutine that the triggering driver has claimed. -/
@[ext] structure Wake where
  graph : Graph
  coh : Option CoroutineId := none

/-- Who triggers: `driver_trigger` passes its driver, `trigger` passes none and
posts as the thread's current driver. -/
structure Caller where
  drv : Option DriverId
  current : DriverId
  deriving DecidableEq, Repr

def Caller.poster (k : Caller) : DriverId := k.drv.getD k.current

/-- The loop over `listeners_`: what stays in the list, the quorums to inform,
the drivers to notify and the claimed coroutine. -/
structure Scan where
  kept : List Listener := []
  quorums : List EventId := []
  drivers : List DriverId := []
  coh : Option CoroutineId := none
  deriving DecidableEq, Repr

def Listener.isOn (home : CoroutineId → DriverId) (d : DriverId) : Listener → Bool
  | .coroutine c => home c == d
  | .quorum _ => false

namespace Graph

def refBy (g : Graph) (n : EventId) (k : Nat) : Graph :=
  g.modify n fun b => { b with refcount := b.refcount + k }

/-- `asap_.emplace_back` -/
def postAsap (g : Graph) (d : DriverId) (n : EventId) : Graph :=
  g.modifyInbox d fun i => { i with asap := i.asap ++ [n] }

/-- `driver::migrate_asap` -/
def migrateAsap (g : Graph) (d : DriverId) (n : EventId) : Graph :=
  g.modifyInbox d fun i => { i with migrate := i.migrate ++ [n], nonempty := true }

/-- `driver::migrate_fd_close` -/
def migrateClose (g : Graph) (d : DriverId) (fd : Nat) : Graph :=
  g.modifyInbox d fun i => { i with migrateFdClose := i.migrateFdClose ++ [fd], nonempty := true }

def post (k : Caller) (n : EventId) (g : Graph) (d : DriverId) : Graph :=
  if d = k.poster then g.postAsap d n else g.migrateAsap d n

/-- Take one occurrence of a triggered member out of a quorum and count it. -/
def countMember (g : Graph) (e q : EventId) : Graph :=
  if e ∈ (g.body q).members then
    (g.modify q fun b =>
      { b with triggeredMembers := b.triggeredMembers + 1, members := swapErase e b.members }).deref e
  else g

end Graph

section Home
variable (home : CoroutineId → DriverId)

/-- One listener. A coroutine of the triggering driver is claimed if none is yet;
the others stay in the list. -/
def scanListener (k : Caller) (s : Scan) : Listener → Scan
  | .quorum q => { s with quorums := s.quorums ++ [q] }
  | .coroutine c =>
    if k.drv = some (home c) then
      match s.coh with
      | none => { s with coh := some c }
      | some _ => { s with kept := s.kept ++ [.coroutine c] }
    else
      { s with
        kept := s.kept ++ [.coroutine c]
        drivers := if home c ∈ s.drivers then s.drivers else s.drivers ++ [home c] }

/-- `trigger_member`, with `fire` for the `trigger_unlock` of the quorum. -/
def triggerMember (fire : Wake → EventId → Wake) (e : EventId) (w : Wake) (q : EventId) : Wake :=
  let g := w.graph.countMember e q
  let b := g.body q
  if !b.triggered && b.quorum ≤ b.triggeredMembers then fire ⟨g, w.coh⟩ q
  else if b.members.isEmpty && b.refcount == 0 then ⟨g.free q, w.coh⟩
  else ⟨g, w.coh⟩

/-- `trigger_unlock` of an untriggered event. Quorums are informed recursively;
`fuel` bounds that nesting. -/
def triggerUnlockWith (k : Caller) : Nat → Wake → EventId → Wake
  | 0, w, _ => w
  | fuel + 1, w, n =>
    let isQuorum := (w.graph.body n).isQuorum
    let g := if isQuorum then (w.graph.ref n).cullMembers n else w.graph
    let scan := (g.body n).listeners.foldl (scanListener home k) { coh := w.coh }
    let g := g.modify n fun b => { b with triggered := true, listeners := scan.kept }
    let informed := scan.quorums.foldl (triggerMember (triggerUnlockWith k fuel) n) ⟨g, scan.coh⟩
    let g := scan.drivers.foldl (Graph.post k n) (informed.graph.refBy n scan.drivers.length)
    ⟨if isQuorum then g.deref n else g, informed.coh⟩

/-- Quorums are nested at most as deep as there are bodies. -/
def triggerUnlock (k : Caller) (w : Wake) (n : EventId) : Wake :=
  triggerUnlockWith home k (w.graph.next + 1) w n

/-- `event::trigger` on a thread whose driver is `current` -/
def Graph.trigger (current : DriverId) (g : Graph) (n : EventId) : Graph :=
  if (g.body n).triggered then g else (triggerUnlock home ⟨none, current⟩ ⟨g, none⟩ n).graph

/-- `event_body::driver_trigger` -/
def Graph.driverTrigger (d : DriverId) (g : Graph) (n : EventId) : Wake :=
  if !(g.body n).triggered then triggerUnlock home ⟨some d, d⟩ ⟨g, none⟩ n
  else match (g.body n).listeners.find? (Listener.isOn home d) with
    | some (.coroutine c) => ⟨g.removeListener n (.coroutine c), some c⟩
    | _ => ⟨g, none⟩

end Home
end Cotamer.Event

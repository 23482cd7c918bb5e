import Mathlib
import Cotamer.Event.Inboxes
import Cotamer.Event.Refill

/-! Runs of events with placeholders. A promise makes its interest event when the
task first asks for it, and triggers it when the task is started or awaited. -/
namespace Cotamer.Event
open SwapVector References Transition

/-- `has_interest_` and `interest_` of a promise. -/
structure Promised where
  hasInterest : Bool := false
  interest : Handle := none
  deriving DecidableEq, Repr

/-- A combinator call and the event it returned. -/
structure ArgNode where
  form : Form
  args : List Arg
  result : Handle
  deriving DecidableEq, Repr

inductive LazyOp where
  | plain (op : Op)
  | combine (form : Form) (args : List Arg) (current : DriverId)
  | await (c : CoroutineId) (n : EventId) (current : DriverId)
  | interestEvent (c : CoroutineId)
  | start (c : CoroutineId) (current : DriverId)
  | prepareAwaiter (c : CoroutineId) (current : DriverId)
  | destroy (c : CoroutineId)
  deriving DecidableEq, Repr

def Arg.handle? : Arg → Option Handle
  | .event h => some h
  | .interest => none

def handlesOf (args : List Arg) : List Handle := args.filterMap Arg.handle?

@[simp] theorem handlesOf_event (h : Handle) : handlesOf [.event h] = [h] := rfl
@[simp] theorem handlesOf_interest : handlesOf [.interest] = [] := rfl

/-- The arguments that have to trigger, of `count`. -/
def Form.needed (count : Nat) : Form → Nat
  | .any => 1
  | .all => count

/-- `any(args...)` or `all(args...)`; a single placeholder is wrapped by
`make_event(interest)`. -/
def Form.applyArgs (home : CoroutineId → DriverId) (current : DriverId) (args : List Arg)
    (form : Form) (g : Graph) : Graph × Handle :=
  match form, args with
  | .any, [] => (g.alloc {}, some g.next)
  | .all, [] => (g, none)
  | _, [.event h] => (g.copyHandle h, h)
  | form, args => g.makeArgs home current (form.needed args.length) args

/-- A quorum is allocated. -/
def makesQuorum : List Arg → Bool
  | [] | [.event _] => false
  | _ => true

/-- The events with the promises of the tasks. A handle in `interest_` counts as
a client handle, and `kept` says of which events there is one. `nodes` records
the combinator calls, and `filled` by which handle the placeholders of a quorum
were replaced. -/
structure Lazy where
  world : World := {}
  promise : CoroutineId → Promised := fun _ => {}
  kept : EventId → Bool := fun _ => false
  nodes : List ArgNode := []
  filled : EventId → Option Handle := fun _ => none

namespace Lazy
variable (home : CoroutineId → DriverId)

def setPromise (s : Lazy) (c : CoroutineId) (p : Promised) : Lazy :=
  { s with promise := fun c' => if c' = c then p else s.promise c' }

def combined (s : Lazy) (form : Form) (args : List Arg) (current : DriverId) : Lazy :=
  let r := form.applyArgs home current args s.world.graph
  { s with
    world := { s.world with
      graph := r.1
      outside := s.world.outside.giveHandle r.2
      args :=
        if makesQuorum args then withArgs s.world.args s.world.graph.next (handlesOf args)
        else s.world.args }
    nodes := ⟨form, args, r.2⟩ :: s.nodes }

/-- `make_interest` -/
def makeInterest (s : Lazy) (c : CoroutineId) : Lazy :=
  if (s.promise c).hasInterest then s
  else
    let n := s.world.graph.next
    { s.setPromise c { hasInterest := true, interest := some n } with
      world := { s.world with graph := s.world.graph.alloc {}, outside := s.world.outside.give n }
      kept := fun m => m = n || s.kept m }

/-- `fix_want_interest` with the interest event of coroutine `c`. -/
def fixWantInterest (s : Lazy) (c : CoroutineId) (n : EventId) (current : DriverId) : Lazy :=
  let ievent := (s.promise c).interest
  let g := s.world.graph.fixWantInterest home current ievent n
  { s with
    world := { s.world with graph := g, args := refill ievent s.world.graph g s.world.args }
    filled := fun q =>
      if (g.body q).interest < (s.world.graph.body q).interest then some ievent else s.filled q }

/-- What `await_suspend` does before it locks the event. -/
def prepared (s : Lazy) (c : CoroutineId) (n : EventId) (current : DriverId) : Lazy :=
  if (s.world.graph.body n).wantInterest then (s.makeInterest c).fixWantInterest home c n current else s

/-- `interest_->trigger()` -/
def triggerInterest (s : Lazy) (current : DriverId) : Handle → Lazy
  | none => s
  | some n => { s with world := { s.world with
      graph := s.world.graph.trigger home current n
      explicit := s.world.mark n } }

/-- The operation of a client is not on the handle in a promise. -/
def spares (s : Lazy) (op : Op) : Bool :=
  match op with
  | .combine .. | .await .. => false
  | op => match op.consumes with
    | some n => !s.kept n || 1 < s.world.outside.client n
    | none => true

def step (s : Lazy) : LazyOp → Option Lazy
  | .plain op =>
    if s.spares op then (s.world.step home op).map fun world => { s with world } else none
  | .combine form args current =>
    if (handlesOf args).all s.world.outside.holds then some (s.combined home form args current) else none
  | .await c n current =>
    let o := s.world.outside
    if 0 < o.client n ∧ o.waiting c = none ∧ (s.world.graph.body n).triggered = false then
      let s := s.prepared home c n current
      if (s.world.graph.body n).triggered then some s
      else some { s with world := { s.world with
        graph := s.world.graph.await c n
        outside := s.world.outside.wait c (some n) } }
    else none
  | .interestEvent c =>
    let s := s.makeInterest c
    let h := (s.promise c).interest
    some { s with world := { s.world with
      graph := s.world.graph.copyHandle h
      outside := s.world.outside.giveHandle h } }
  | .start c current =>
    match (s.promise c).interest with
    | some n => some (s.triggerInterest home current (some n))
    | none => some (s.setPromise c { hasInterest := true })
  | .prepareAwaiter c current => some (s.triggerInterest home current (s.promise c).interest)
  | .destroy c =>
    if s.world.outside.waiting c = none then
      match (s.promise c).interest with
      | none => some (s.setPromise c {})
      | some n => some { s.setPromise c {} with
          world := { s.world with graph := s.world.graph.deref n, outside := s.world.outside.take n }
          kept := fun m => m != n && s.kept m }
    else none

end Lazy
end Cotamer.Event

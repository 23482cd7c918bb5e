import Cotamer.Event.Trigger

/-! `any()` and `all()`. A form with several arguments allocates a quorum and
adds its arguments one by one; it may have triggered by the time it is sealed. -/
namespace Cotamer.Event

namespace Graph

def copyHandle (g : Graph) : Handle → Graph
  | none => g
  | some n => g.ref n

/-- `add_member`, given its own copy of the argument's handle. -/
def addMember (q : EventId) (g : Graph) : Handle → Graph
  | none => g.modify q fun b => { b with triggeredMembers := b.triggeredMembers + 1 }
  | some n =>
    if (g.body n).triggered then
      (g.modify q fun b => { b with triggeredMembers := b.triggeredMembers + 1 }).deref n
    else (g.addListener n (.quorum q)).modify q fun b =>
      { b with members := b.members ++ [n], wantInterest := b.wantInterest || (g.body n).wantInterest }

def addCopy (q : EventId) (g : Graph) (h : Handle) : Graph := (g.copyHandle h).addMember q h

/-- A fresh quorum with all its members, not yet sealed. -/
def openQuorum (quorum : Nat) (args : List Handle) (g : Graph) : Graph :=
  args.foldl (addCopy g.next) (g.alloc { isQuorum := true, quorum })

/-- `seal` -/
def sealQuorum (home : CoroutineId → DriverId) (current : DriverId) (g : Graph) (q : EventId) : Graph :=
  if (g.body q).quorum ≤ (g.body q).triggeredMembers then
    (triggerUnlock home ⟨none, current⟩ ⟨g, none⟩ q).graph
  else g

/-- `quorum_event_body::make` -/
def make (home : CoroutineId → DriverId) (current : DriverId) (quorum : Nat) (args : List Handle)
    (g : Graph) : Graph × Handle :=
  ((g.openQuorum quorum args).sealQuorum home current g.next, some g.next)

end Graph

inductive Form where
  | any
  | all
  deriving DecidableEq, Repr

/-- The argument positions that have to trigger. -/
def Form.threshold (args : List Handle) : Form → Nat
  | .any => 1
  | .all => args.length

/-- `any(args...)` or `all(args...)` -/
def Form.apply (home : CoroutineId → DriverId) (current : DriverId) (args : List Handle)
    (form : Form) (g : Graph) : Graph × Handle :=
  match form, args with
  | .any, [] => (g.alloc {}, some g.next)
  | .all, [] => (g, none)
  | _, [h] => (g.copyHandle h, h)
  | form, args => g.make home current (form.threshold args) args

end Cotamer.Event

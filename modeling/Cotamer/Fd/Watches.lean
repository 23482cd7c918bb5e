import Cotamer.Nibbles
import Cotamer.Transition
import Mathlib.Data.List.AList

/-! The watches of one driver: `fd_event_set`, the driver's copy of what the kernel
notifier has registered, and the notifier itself. A chain of watches is a list, and
a descriptor is on the update list when its number is in it. -/
namespace Cotamer.Fd.Watches

/-- `fdevent`: read is 1, write 2 and close 4. -/
abbrev FdEvent := BitVec 4

abbrev Epoch := BitVec 32

def userEpoch : Epoch := 2

/-- `watchrec`. -/
structure Watch where
  ev : Nat
  mask : FdEvent
  deriving DecidableEq, Repr

/-- `fdrec`; the default is what the array grows by. -/
structure FdRec where
  body : Option Nat := none
  epoch : Epoch := 0
  watches : List Watch := []
  deriving DecidableEq, Repr

structure FdUpdate where
  fd : Nat
  mask : FdEvent
  epoch : Epoch

/-- `fd_body`: the number it has, and whether it is open. -/
structure Body where
  baseFd : Nat
  isOpen : Bool := true
  deriving DecidableEq, Repr

structure State where
  bodies : List Body := []
  fdrs : Nat → FdRec := fun _ => {}
  updates : List Nat := []           -- from update_link_
  fdctl : List (BitVec 64) := []
  nfdctl : Nat := 0
  kernel : AList fun _ : Nat => FdEvent × Epoch := ∅
  emptied : List Nat := []           -- events that have triggered or were abandoned
  detached : List Watch := []        -- returned by take_watch_list
  next : Nat := 0

inductive Label where
  | create (fd : Nat)                -- a new fd_body
  | close (b : Nat)                  -- fd_ = -1, by any thread
  | watch (b : Nat) (mask : FdEvent)
  | notifyClose (fd : Nat)
  | take (fd : Nat) (mask : FdEvent) (epoch : Epoch)
  | pop
  | empty (e : Nat)                  -- an event triggers or is abandoned
  | update                           -- pop_update, then apply_fd_update
  deriving DecidableEq, Repr

namespace State

def setRec (s : State) (fd : Nat) (r : FdRec) : State := { s with fdrs := Function.update s.fdrs fd r }

/-- Puts the descriptor on the update list. -/
def queue (s : State) (fd : Nat) : State :=
  if fd ∈ s.updates then s else { s with updates := fd :: s.updates }

/-- `fileno() >= 0`. -/
def isOpen (s : State) (b : Nat) : Bool := (s.bodies[b]?.map (·.isOpen)).getD false

def fdClose (s : State) (fd : Nat) : State × Option (Nat × Epoch) :=
  let fdi := s.fdrs fd
  match fdi.body with
  | none => (s, none)
  | some body =>
    if s.isOpen body then (s, none)
    else
      let epoch := fdi.epoch + 1
      let closed := { s.setRec fd { epoch } with emptied := s.emptied ++ fdi.watches.map Watch.ev }
      (closed.queue fd, some (body, epoch - 1))

/-- `epoll_ctl`, which succeeds. -/
def epollCtl (s : State) (fdu : FdUpdate) : AList fun _ : Nat => FdEvent × Epoch :=
  if fdu.mask = 0 then s.kernel.erase fdu.fd else s.kernel.insert fdu.fd (fdu.mask, fdu.epoch)

def applyFdUpdate (s : State) (fdu : FdUpdate) : State :=
  let fdctl := Nibbles.ensure s.fdctl fdu.fd
  let oldMask := Nibbles.get fdctl fdu.fd
  if oldMask = fdu.mask then { s with fdctl }
  else
    { s with
      kernel := s.epollCtl fdu
      fdctl := Nibbles.flip fdctl fdu.fd (oldMask ^^^ fdu.mask)
      nfdctl :=
        if oldMask = 0 then s.nfdctl + 1 else if fdu.mask = 0 then s.nfdctl - 1 else s.nfdctl }

def notifyClose (s : State) (fd : Nat) : State :=
  match s.fdClose fd with
  | (closed, some (_, epoch)) => closed.applyFdUpdate { fd, mask := 0, epoch }
  | (same, none) => same

/-- The watch joins the chain of its descriptor. -/
def install (s : State) (fd body : Nat) (mask : FdEvent) : State :=
  let fdi := s.fdrs fd
  let watched := s.setRec fd { fdi with body, watches := fdi.watches ++ [{ ev := s.next, mask }] }
  { watched.queue fd with next := s.next + 1 }

/-- `watch` for a descriptor number that was read while the body was open. It
dereferences what `fd_close` returns, so a record of another open body is undefined. -/
def watch (s : State) (fd body : Nat) (mask : FdEvent) : Option State :=
  if mask = 0 then some { s with next := s.next + 1 }
  else
    match (s.fdrs fd).body with
    | none => some (s.install fd body mask)
    | some other =>
      if other = body then some (s.install fd body mask)
      else
        match s.fdClose fd with
        | (closed, some _) => some (closed.install fd body mask)
        | (_, none) => none

/-- `ev.empty()`. -/
def empty (s : State) (w : Watch) : Bool := w.ev ∈ s.emptied

def takeWatchList (s : State) (fd : Nat) (mask : FdEvent) (epoch : Epoch) : State :=
  let fdi := s.fdrs fd
  if fdi.watches = [] ∨ (epoch ≠ 0 ∧ epoch ≠ fdi.epoch) then s
  else
    let wanted (w : Watch) : Bool := mask &&& w.mask ≠ 0 || s.empty w
    let whead := fdi.watches.filter wanted
    let left := { s.setRec fd { fdi with watches := fdi.watches.filter (!wanted ·) } with
      detached := s.detached ++ whead }
    if whead = [] then left else left.queue fd

def watchListMask (s : State) (watches : List Watch) : FdEvent :=
  watches.foldl (fun mask w => if s.empty w then mask else mask ||| w.mask) 0

def popUpdate (s : State) : Option (FdUpdate × State) :=
  match s.updates with
  | [] => none
  | fd :: updates =>
    let fdi := s.fdrs fd
    let s := { s with updates }
    let mask := s.watchListMask fdi.watches
    if mask = 0 then some ({ fd, mask, epoch := fdi.epoch }, s.setRec fd { fdi with epoch := fdi.epoch + 1 })
    else if fdi.epoch < userEpoch then
      some ({ fd, mask, epoch := userEpoch }, s.setRec fd { fdi with epoch := userEpoch })
    else some ({ fd, mask, epoch := fdi.epoch }, s)

/-- No two open bodies have one number. -/
def step (s : State) : Label → Option State
  | .create fd =>
    if s.bodies.any fun b => b.isOpen && b.baseFd == fd then none
    else some { s with bodies := s.bodies ++ [{ baseFd := fd }] }
  | .close b =>
    match s.bodies[b]? with
    | none => none
    | some body => some { s with bodies := s.bodies.set b { body with isOpen := false } }
  | .watch b mask => s.bodies[b]?.bind fun body => s.watch body.baseFd b mask
  | .notifyClose fd => some (s.notifyClose fd)
  | .take fd mask epoch => some (s.takeWatchList fd mask epoch)
  | .pop => some { s with detached := s.detached.tail }
  | .empty e => some { s with emptied := s.emptied ++ [e] }
  | .update => s.popUpdate.map fun (fdu, s) => s.applyFdUpdate fdu

/-- What the notifier reports for a descriptor. -/
def kernelMask (s : State) (fd : Nat) : FdEvent := ((s.kernel.lookup fd).map Prod.fst).getD 0

/-- What the live watches of a descriptor wait for. -/
def liveMask (s : State) (fd : Nat) : FdEvent := s.watchListMask (s.fdrs fd).watches

end State
end Cotamer.Fd.Watches

import Cotamer.Fd.Epoll
import Mathlib

/-! `fd_event_set` as it is stored: the records by descriptor number, and the slots of
`ws_`, through which the chains of watches, the free list and the lists being drained
are threaded. A link is an index plus one; those of slots have no bound, since memory
is exhausted before they are. A loop over a chain has one step of fuel for every slot,
and gives none when that does not do. -/
namespace Cotamer.Fd.Table
open Watches (FdEvent Epoch FdUpdate userEpoch)

def linkClean : Nat := 0

def linkSentinel : Nat := 2 ^ 32 - 1

def firstCapacity : Nat := 128

def blockCapacity : Nat := 1024

/-- `fdrec`. -/
structure FdRec where
  body : Option Nat := none
  epoch : Epoch := 0
  whead : Nat := linkClean
  wtail : Nat := linkClean
  updateLink : Nat := linkClean
  deriving DecidableEq, Repr

/-- `watchrec`. -/
structure WatchRec where
  ev : Option Nat := none
  mask : FdEvent := 0
  wlink : Nat := linkClean
  deriving DecidableEq, Repr

structure FdEventSet where
  fdrs : List FdRec := []              -- of length fdr_capacity_
  updateLink : Nat := linkSentinel
  ws : List WatchRec := []
  freeWlink : Nat := linkClean
  deriving DecidableEq, Repr

/-- Where a link is stored: at the head of a list, or in a slot. -/
inductive Place where
  | head
  | slot (wix : Nat)
  deriving DecidableEq, Repr

/-- The variables of the loop of `take_watch_list`. -/
structure Taking where
  ws : List WatchRec
  whead : Nat := linkClean             -- of the watches that are taken
  fdhead : Nat                         -- fdi.whead
  wtail : Nat := linkClean
  wpprev : Place := .head
  fdpprev : Place := .head

/-- `while (ufd >= ncapacity) ncapacity *= 2`. -/
def fit (ufd : Nat) : Nat → Nat → Nat
  | 0, ncapacity => ncapacity
  | fuel + 1, ncapacity => if ufd < ncapacity then ncapacity else fit ufd fuel (ncapacity * 2)

/-- `ws_[wix - 1]`. -/
def slot (ws : List WatchRec) (wix : Nat) : WatchRec := ws.getD (wix - 1) {}

def setSlot (ws : List WatchRec) (wix : Nat) (wr : WatchRec) : List WatchRec := ws.set (wix - 1) wr

def setLink (ws : List WatchRec) (wix link : Nat) : List WatchRec :=
  setSlot ws wix { slot ws wix with wlink := link }

/-- `*place = link`, for a list with the given head. -/
def Place.store (place : Place) (link head : Nat) (ws : List WatchRec) : Nat × List WatchRec :=
  match place with
  | .head => (link, ws)
  | .slot wix => (head, setLink ws wix link)

namespace Taking

/-- `*wpprev = link`. -/
def storeTaken (v : Taking) (link : Nat) : Taking :=
  let (whead, ws) := v.wpprev.store link v.whead v.ws
  { v with whead, ws }

/-- `*fdpprev = link`. -/
def storeLeft (v : Taking) (link : Nat) : Taking :=
  let (fdhead, ws) := v.fdpprev.store link v.fdhead v.ws
  { v with fdhead, ws }

def loop (wanted : WatchRec → Option Bool) : Nat → Nat → Taking → Option Taking
  | _, 0, v => some v
  | 0, _ + 1, _ => none
  | fuel + 1, wix@(_ + 1), v =>
    let wr := slot v.ws wix
    match wanted wr with
    | none => none
    | some true => loop wanted fuel wr.wlink { v.storeTaken wix with wpprev := .slot wix }
    | some false => loop wanted fuel wr.wlink { v.storeLeft wix with wtail := wix, fdpprev := .slot wix }

end Taking

namespace FdEventSet

variable (t : FdEventSet)

def fdr (ufd : Nat) : FdRec := t.fdrs.getD ufd {}

def setFdr (ufd : Nat) (fdi : FdRec) : FdEventSet := { t with fdrs := t.fdrs.set ufd fdi }

def hardEnsure (ufd : Nat) : FdEventSet :=
  let ncapacity :=
    if blockCapacity ≤ ufd then (ufd / blockCapacity + 1) * blockCapacity
    else fit ufd ufd (max firstCapacity (t.fdrs.length * 2))
  { t with fdrs := t.fdrs ++ List.replicate (ncapacity - t.fdrs.length) {} }

def ensure (ufd : Nat) : FdEventSet := if t.fdrs.length ≤ ufd then t.hardEnsure ufd else t

/-- Puts a record on the update list unless it is there. -/
def queue (ufd : Nat) : FdEventSet :=
  let fdi := t.fdr ufd
  if fdi.updateLink = linkClean then
    { t.setFdr ufd { fdi with updateLink := t.updateLink } with updateLink := ufd + 1 }
  else t

/-- The slot for a new watch. -/
def allocate (mask : FdEvent) : Nat × FdEventSet :=
  let wix := t.freeWlink
  if wix = linkClean then
    (t.ws.length + 1, { t with ws := t.ws ++ [{ mask }] })
  else
    let wr := slot t.ws wix
    (wix, { t with freeWlink := wr.wlink, ws := setSlot t.ws wix { wr with mask, wlink := linkClean } })

/-- The end of `watch`: a watch joins the chain of the record. -/
def append (ufd : Nat) (mask : FdEvent) (ev : Nat) : FdEventSet :=
  let (wix, t) := t.allocate mask
  let fdi := t.fdr ufd
  let t :=
    if fdi.whead = linkClean then t.setFdr ufd { fdi with whead := wix, wtail := wix }
    else { t.setFdr ufd { fdi with wtail := wix } with ws := setLink t.ws fdi.wtail wix }
  { t with ws := setSlot t.ws wix { slot t.ws wix with ev } }

/-- The loop of `fd_close`, with the events that it triggers. -/
def closeLoop (ufd : Nat) : Nat → FdEventSet → List Nat → Option (FdEventSet × List Nat)
  | 0, t, triggered => if (t.fdr ufd).whead = linkClean then some (t, triggered) else none
  | fuel + 1, t, triggered =>
    let fdi := t.fdr ufd
    let wix := fdi.whead
    if wix = linkClean then some (t, triggered)
    else
      let wr := slot t.ws wix
      wr.ev.bind fun ev =>
        let t := t.setFdr ufd { fdi with whead := wr.wlink }
        closeLoop ufd fuel
          { t with ws := setSlot t.ws wix { wr with ev := none, wlink := t.freeWlink }, freeWlink := wix }
          (triggered ++ [ev])

def fdClose (isOpen : Nat → Bool) (ufd : Nat) : Option (FdEventSet × List Nat × Option (Nat × Epoch)) :=
  if t.fdrs.length ≤ ufd then some (t, [], none)
  else
    match (t.fdr ufd).body with
    | none => some (t, [], none)
    | some body =>
      if isOpen body then some (t, [], none)
      else
        (closeLoop ufd t.ws.length t []).map fun (t, triggered) =>
          let fdi := t.fdr ufd
          let t := (t.setFdr ufd { fdi with wtail := linkClean, epoch := fdi.epoch + 1 }).queue ufd
          (t.setFdr ufd { t.fdr ufd with body := none }, triggered, some (body, fdi.epoch))

/-- Does a notification take the watch? It asks the event only when the masks do not meet. -/
def wanted (empty : Nat → Bool) (imask : FdEvent) (wr : WatchRec) : Option Bool :=
  if imask &&& wr.mask ≠ 0 then some true else wr.ev.map empty

def takeWatchList (empty : Nat → Bool) (ufd : Nat) (imask : FdEvent) (epoch : Epoch) :
    Option (Nat × FdEventSet) :=
  if t.fdrs.length ≤ ufd then some (linkClean, t)
  else
    let fdi := t.fdr ufd
    if fdi.whead = linkClean ∨ (epoch ≠ 0 ∧ epoch ≠ fdi.epoch) then some (linkClean, t)
    else
      (Taking.loop (wanted empty imask) t.ws.length fdi.whead { ws := t.ws, fdhead := fdi.whead }).map fun v =>
        let v := (v.storeTaken linkClean).storeLeft linkClean
        let t := { t.setFdr ufd { fdi with whead := v.fdhead, wtail := v.wtail } with ws := v.ws }
        (v.whead, if v.whead = linkClean then t else t.queue ufd)

/-- The event of the slot, the link after it, and the slot freed. -/
def popWatchListEvent (wix : Nat) : Option Nat × Nat × FdEventSet :=
  let wr := slot t.ws wix
  (wr.ev, wr.wlink,
    { t with freeWlink := wix, ws := setSlot t.ws wix { wr with ev := none, wlink := t.freeWlink } })

/-- A handle without an event is empty. -/
def watchListMask (empty : Nat → Bool) : Nat → Nat → FdEvent → Option FdEvent
  | _, 0, mask => some mask
  | 0, _ + 1, _ => none
  | fuel + 1, wix@(_ + 1), mask =>
    let wr := slot t.ws wix
    watchListMask empty fuel wr.wlink (if wr.ev.all empty then mask else mask ||| wr.mask)

def popUpdate (empty : Nat → Bool) : Option (FdUpdate × FdEventSet) :=
  if t.updateLink = linkSentinel then none
  else
    let ufd := t.updateLink - 1
    let fdi := t.fdr ufd
    (t.watchListMask empty t.ws.length fdi.whead 0).map fun mask =>
      let t := { t with updateLink := fdi.updateLink }
      let fdi := { fdi with updateLink := linkClean }
      if mask = 0 then
        ({ fd := ufd, mask, epoch := fdi.epoch }, t.setFdr ufd { fdi with epoch := fdi.epoch + 1 })
      else if fdi.epoch < userEpoch then
        ({ fd := ufd, mask, epoch := userEpoch }, t.setFdr ufd { fdi with epoch := userEpoch })
      else ({ fd := ufd, mask, epoch := fdi.epoch }, t.setFdr ufd fdi)

end FdEventSet

/-- One driver, with the bodies of all descriptors and the kernel. -/
structure State where
  fds : FdEventSet := {}
  detached : List Nat := []            -- what is left of the lists returned by take_watch_list
  bodies : List Watches.Body := []
  listed : List Nat := []              -- the bodies whose drivers_ has the driver
  elsewhere : List Nat := []           -- those whose drivers_ has another driver
  released : List Nat := []            -- those whose base_fd_ is -1
  emptied : List Nat := []             -- events that have triggered or were abandoned
  next : Nat := 0
  epoll : Epoll := {}

inductive Label where
  | openFile (fd : Nat)                -- the number is given to a new file
  | closeFile (fd : Nat)               -- closed by somebody else
  | create (fd : Nat)                  -- a new fd_body, for whatever number
  | close (b : Nat)                    -- by any thread
  | listen (b : Nat)                   -- add_listener by another driver
  | unlisten (b : Nat)                 -- remove_listener by another driver
  | watch (fd : Int) (mask : FdEvent) (b : Nat)
  | notifyClose (fd : Nat)
  | take (fd : Nat) (mask : FdEvent) (epoch : Epoch)
  | pop (i : Nat)                      -- from one of the lists being drained
  | empty (e : Nat)                    -- an event triggers or is abandoned
  | update                             -- pop_update, then apply_fd_update
  deriving DecidableEq, Repr

namespace State

def isOpen (s : State) (b : Nat) : Bool := (s.bodies[b]?.map (·.isOpen)).getD false

def isEmpty (s : State) (e : Nat) : Bool := e ∈ s.emptied

/-- The number of a closed body that no driver has any more, unless it was closed. -/
def closable (s : State) (b : Nat) : Option Nat :=
  s.bodies[b]?.bind fun body =>
    if body.isOpen = true ∨ b ∈ s.listed ∨ b ∈ s.elsewhere ∨ b ∈ s.released then none else some body.baseFd

/-- The end of `close` and of `remove_listener`. -/
def release (s : State) (b : Nat) : State :=
  match s.closable b with
  | none => s
  | some fd => { s with released := b :: s.released, epoll := s.epoll.closeFile fd }

def removeListener (s : State) (b : Nat) : State := release { s with listed := s.listed.erase b } b

/-- The record gets the body. -/
def setBody (s : State) (ufd b : Nat) : State :=
  { s with fds := s.fds.setFdr ufd { s.fds.fdr ufd with body := b }, listed := b :: s.listed }

/-- The body of the record becomes `b`. What `fd_close` returns for another body is
dereferenced. -/
def register (s : State) (ufd b : Nat) : Option State :=
  match (s.fds.fdr ufd).body with
  | none => some (s.setBody ufd b)
  | some other =>
    if other = b then some s
    else
      match s.fds.fdClose s.isOpen ufd with
      | some (fds, triggered, some (old, _)) =>
        let closed := { s with fds, emptied := s.emptied ++ triggered }
        some ((closed.removeListener old).setBody ufd b)
      | _ => none

def watch (s : State) (fd : Int) (mask : FdEvent) (b : Nat) : Option State :=
  if fd < 0 ∨ mask = 0 then some { s with next := s.next + 1 }
  else
    let ufd := fd.toNat
    let ensured := { s with fds := s.fds.ensure ufd }
    (ensured.register ufd b).map fun s =>
      { s with fds := (s.fds.queue ufd).append ufd mask s.next, next := s.next + 1 }

/-- An exception from `apply_fd_update` leaves the driver among those of the body. -/
def notifyClose (s : State) (fd : Nat) : Option State :=
  (s.fds.fdClose s.isOpen fd).map fun (fds, triggered, pair) =>
    let closed := { s with fds, emptied := s.emptied ++ triggered }
    match pair with
    | none => closed
    | some (body, epoch) =>
      let (epoll, returns) := s.epoll.applyFdUpdate { fd, mask := 0, epoch }
      let applied := { closed with epoll }
      if returns then applied.removeListener body else applied

/-- `pop_watch_list_event`, then `driver_trigger`. -/
def pop (s : State) (i : Nat) : Option State :=
  s.detached[i]?.bind fun wix =>
    if wix = linkClean then none
    else
      match s.fds.popWatchListEvent wix with
      | (some ev, rest, fds) =>
        some { s with fds, detached := s.detached.set i rest, emptied := s.emptied ++ [ev] }
      | (none, _, _) => none

/-- A descriptor number is an `int`, a number that has a file is not given to another,
and only an event that was made can trigger. -/
def step (s : State) : Label → Option State
  | .openFile fd => if s.epoll.opened fd then none else some { s with epoll := s.epoll.openFile fd }
  | .closeFile fd => some { s with epoll := s.epoll.closeFile fd }
  | .create fd => some { s with bodies := s.bodies ++ [{ baseFd := fd }] }
  | .close b =>
    s.bodies[b]?.map fun body =>
      if body.isOpen then release { s with bodies := s.bodies.set b { body with isOpen := false } } b else s
  | .listen b => if b < s.bodies.length then some { s with elsewhere := b :: s.elsewhere } else none
  | .unlisten b =>
    if b ∈ s.elsewhere then some (release { s with elsewhere := s.elsewhere.erase b } b) else none
  | .watch fd mask b => if fd < 2 ^ 31 ∧ b < s.bodies.length then s.watch fd mask b else none
  | .notifyClose fd => s.notifyClose fd
  | .take fd mask epoch =>
    (s.fds.takeWatchList s.isEmpty fd mask epoch).map fun (whead, fds) =>
      { s with fds, detached := s.detached ++ [whead] }
  | .pop i => s.pop i
  | .empty e => if e < s.next then some { s with emptied := s.emptied ++ [e] } else none
  | .update =>
    (s.fds.popUpdate s.isEmpty).map fun (fdu, fds) => { s with fds, epoll := (s.epoll.applyFdUpdate fdu).1 }

end State
end Cotamer.Fd.Table

import Cotamer.SwapVector

/-! Event bodies, the graph they form, and their reference counts. A body is
changed under its own spin lock and never calls user code while it is held, so
each function here is one atomic step of the program; the lock bit `ef_lock`
itself is not represented. -/
namespace Cotamer.Event
open SwapVector

abbrev EventId := Nat
abbrev CoroutineId := Nat
abbrev DriverId := Nat

/-- `event_handle`: null, or a counted pointer to an event body. -/
abbrev Handle := Option EventId

/-- An entry of `listeners_`; `lf_quorum` tells the two kinds apart. -/
inductive Listener where
  | coroutine (c : CoroutineId)
  | quorum (q : EventId)
  deriving DecidableEq, Repr

/-- `event_body`, with the further fields of `quorum_event_body`. The flags
`ef_empty` and `ef_empty_members` always say that `listeners_` and `members_`
are empty, so they are read off the lists. -/
structure EventBody where
  isQuorum : Bool := false          -- ef_quorum
  triggered : Bool := false         -- ef_triggered
  wantInterest : Bool := false      -- ef_want_interest
  userFlags : Nat := 0              -- efm_user, shifted down by efs_user
  interest : Nat := 0               -- ef_interest, added once per interest{}
  refcount : Nat := 1
  listeners : List Listener := []
  members : List EventId := []
  triggeredMembers : Nat := 0       -- triggered_
  quorum : Nat := 0                 -- quorum_
  freed : Nat := 0                  -- how many times the body has been deleted
  deriving DecidableEq, Repr

/-- `event_body::empty`: triggered, or without listeners and other references. -/
def EventBody.empty (b : EventBody) : Bool :=
  b.triggered || (b.listeners.isEmpty && b.refcount == 1)

/-- What `trigger_unlock` returns: somebody may have been waiting. -/
def EventBody.awaited (b : EventBody) : Bool :=
  !b.listeners.isEmpty || decide (1 < b.refcount)

/-- The queues of a driver that triggering an event writes to. `nonempty` is
the bit `df_nonempty` of `lock_`. -/
structure Inbox where
  asap : List EventId := []
  migrate : List EventId := []
  migrateFdClose : List Nat := []
  nonempty : Bool := false
  deriving DecidableEq, Repr

/-- A driver with anything to migrate has its flag set. -/
def Inbox.Flagged (i : Inbox) : Prop :=
  i.nonempty = false → i.migrate = [] ∧ i.migrateFdClose = []

/-- All event bodies ever allocated, with the inboxes of all drivers. A deleted
body keeps its last contents and has `freed` counted up; an identifier that is
not allocated yet has no references. -/
structure Graph where
  body : EventId → EventBody := fun _ => { refcount := 0 }
  next : EventId := 0
  inbox : DriverId → Inbox := fun _ => {}

namespace Graph

def modify (g : Graph) (n : EventId) (f : EventBody → EventBody) : Graph :=
  { g with body := fun m => if m = n then f (g.body m) else g.body m }

def modifyInbox (g : Graph) (d : DriverId) (f : Inbox → Inbox) : Graph :=
  { g with inbox := fun d' => if d' = d then f (g.inbox d') else g.inbox d' }

/-- `new event_body`, or the allocation of a quorum body. -/
def alloc (g : Graph) (b : EventBody) : Graph :=
  { g with body := fun m => if m = g.next then b else g.body m, next := g.next + 1 }

/-- `event_handle::triggered` -/
def handleTriggered (g : Graph) : Handle → Bool
  | none => true
  | some n => (g.body n).triggered

/-- `event_handle::empty` -/
def handleEmpty (g : Graph) : Handle → Bool
  | none => true
  | some n => (g.body n).empty

def ref (g : Graph) (n : EventId) : Graph :=
  g.modify n fun b => { b with refcount := b.refcount + 1 }

def unref (g : Graph) (n : EventId) : Graph :=
  g.modify n fun b => { b with refcount := b.refcount - 1 }

/-- `delete this` -/
def free (g : Graph) (n : EventId) : Graph :=
  g.modify n fun b => { b with freed := b.freed + 1 }

/-- `add_listener_unlock` -/
def addListener (g : Graph) (n : EventId) (l : Listener) : Graph :=
  g.modify n fun b => { b with listeners := b.listeners ++ [l] }

/-- `remove_listener_unlock` -/
def removeListener (g : Graph) (n : EventId) (l : Listener) : Graph :=
  g.modify n fun b => { b with listeners := swapErase l b.listeners }

/-- Take member `m`, at position `i`, out of quorum `q`: the quorum leaves the
member's listeners and the member leaves `members_`. -/
def detachMember (g : Graph) (q : EventId) (i : Nat) (m : EventId) : Graph :=
  (g.removeListener m (.quorum q)).modify q fun b => { b with members := swapRemove i b.members }

/-- The loop of `cull_members`, with `k` members left to examine from position
`i`. A triggered member has not yet removed itself and stays; `drop` releases
the handle of a member that is taken out. -/
def cullFrom (drop : Graph → EventId → Graph) (q : EventId) : Nat → Nat → Graph → Graph
  | 0, _, g => g
  | k + 1, i, g =>
    match (g.body q).members[i]? with
    | none => g
    | some m =>
      if (g.body m).triggered then cullFrom drop q k (i + 1) g
      else cullFrom drop q k i (drop (g.detachMember q i m) m)

/-- `~event_handle`, with `hard_deref` for a quorum that has members. Dropping
the last handle of an untriggered quorum culls its members, whose handles are
dropped in turn; `fuel` bounds that nesting. A quorum left with triggered
members is deleted later, by the trigger that is still running. -/
def derefWith : Nat → Graph → EventId → Graph
  | 0, g, _ => g
  | fuel + 1, g, n =>
    let b := g.body n
    let g' := g.unref n
    if b.refcount ≠ 1 then g'
    else if b.isQuorum && !b.members.isEmpty then
      let culled := if b.triggered then g' else cullFrom (derefWith fuel) n b.members.length 0 g'
      if (culled.body n).members.isEmpty then culled.free n else culled
    else g'.free n

/-- Members of a quorum are nested at most as deep as there are bodies. -/
def deref (g : Graph) (n : EventId) : Graph := derefWith (g.next + 1) g n

/-- `cull_members` -/
def cullMembers (g : Graph) (q : EventId) : Graph :=
  cullFrom (derefWith (g.next + 1)) q (g.body q).members.length 0 g

/-! Reading a graph after one update. -/

section Updates
variable (g : Graph) (n m : EventId) (f : EventBody → EventBody)

@[simp] theorem modify_body :
    (g.modify n f).body m = if m = n then f (g.body m) else g.body m := rfl
@[simp] theorem modify_next : (g.modify n f).next = g.next := rfl
@[simp] theorem modify_inbox : (g.modify n f).inbox = g.inbox := rfl
@[simp] theorem ref_body : (g.ref n).body m =
    if m = n then { g.body m with refcount := (g.body m).refcount + 1 } else g.body m := rfl
@[simp] theorem ref_next : (g.ref n).next = g.next := rfl
@[simp] theorem ref_inbox : (g.ref n).inbox = g.inbox := rfl
@[simp] theorem unref_body : (g.unref n).body m =
    if m = n then { g.body m with refcount := (g.body m).refcount - 1 } else g.body m := rfl
@[simp] theorem unref_next : (g.unref n).next = g.next := rfl
@[simp] theorem unref_inbox : (g.unref n).inbox = g.inbox := rfl
@[simp] theorem free_body : (g.free n).body m =
    if m = n then { g.body m with freed := (g.body m).freed + 1 } else g.body m := rfl
@[simp] theorem free_next : (g.free n).next = g.next := rfl
@[simp] theorem free_inbox : (g.free n).inbox = g.inbox := rfl
@[simp] theorem modifyInbox_body (h : Inbox → Inbox) : (g.modifyInbox n h).body = g.body := rfl
@[simp] theorem modifyInbox_next (h : Inbox → Inbox) : (g.modifyInbox n h).next = g.next := rfl
@[simp] theorem modifyInbox_inbox (h : Inbox → Inbox) : (g.modifyInbox n h).inbox m =
    if m = n then h (g.inbox m) else g.inbox m := rfl
@[simp] theorem alloc_body (b : EventBody) :
    (g.alloc b).body m = if m = g.next then b else g.body m := rfl
@[simp] theorem alloc_next (b : EventBody) : (g.alloc b).next = g.next + 1 := rfl
@[simp] theorem alloc_inbox (b : EventBody) : (g.alloc b).inbox = g.inbox := rfl
@[simp] theorem addListener_body (l : Listener) : (g.addListener n l).body m =
    if m = n then { g.body m with listeners := (g.body m).listeners ++ [l] } else g.body m := rfl
@[simp] theorem addListener_next (l : Listener) : (g.addListener n l).next = g.next := rfl
@[simp] theorem addListener_inbox (l : Listener) : (g.addListener n l).inbox = g.inbox := rfl
@[simp] theorem removeListener_body (l : Listener) : (g.removeListener n l).body m =
    if m = n then { g.body m with listeners := swapErase l (g.body m).listeners }
    else g.body m := rfl
@[simp] theorem removeListener_next (l : Listener) : (g.removeListener n l).next = g.next := rfl
@[simp] theorem removeListener_inbox (l : Listener) : (g.removeListener n l).inbox = g.inbox := rfl

end Updates

end Graph
end Cotamer.Event

import Cotamer.SwapVector
import Cotamer.Totals
import Cotamer.Transition

/-! One `fd_body`, the threads that hold references to it, and their drivers. The
thread with index `i` has driver `i`. Each atomic access outside the lock, and
each section under the lock, is one step; what a thread has still to do in the
function it is in is a list of such steps. -/
namespace Cotamer.Fd
open SwapVector Transition

/-- `fd_body`, with how often its descriptor was closed and the body deleted. -/
structure Body where
  isOpen : Bool := true        -- fd_ >= 0
  base : Bool := true          -- base_fd_ >= 0
  ref : Nat := 1               -- ref_
  drivers : List Nat := []     -- drivers_
  closes : Nat := 0
  deletes : Nat := 0
  deriving DecidableEq, Repr

inductive Act where
  | fetchSub                         -- deref, not the last reference
  | close (becauseDeref : Bool)      -- close, under the lock
  | addListener
  | append (e : Nat)                 -- watch: the new event joins the chain
  | removeListener
  | osClose                          -- ::close
  | notify (d : Nat)                 -- notify_close or migrate_fd_close
  | delete
  deriving DecidableEq, Repr

structure Thread where
  refs : Nat := 0                    -- cot::fd objects
  registered : Bool := false         -- fdrec.body is the body
  closing : Nat := 0                 -- entries of migrate_fd_close_
  chain : List Nat := []             -- watched events
  acts : List Act := []
  deriving DecidableEq, Repr

structure State where
  body : Body := {}
  threads : List Thread := [{ refs := 1 }]
  requested : List Nat := []         -- events returned by file_event
  triggered : List Nat := []
  next : Nat := 0
  deriving DecidableEq, Repr

inductive Label where
  | spawn
  | copy (i : Nat)
  | give (i j : Nat)                 -- an fd object is moved to another thread
  | drop (i : Nat)
  | close (i : Nat)
  | watch (i : Nat) (none : Bool)    -- file_event; is the mask empty?
  | fire (i : Nat) (taken : List Nat)    -- watches taken off the chain by the loop
  | process (i : Nat)                -- finish_migrate takes one entry
  | act (i : Nat)
  deriving DecidableEq, Repr

/-- The thread that calls a function. -/
def Label.caller : Label → Option Nat
  | .copy i | .drop i | .close i | .watch i _ | .fire i _ | .process i => some i
  | _ => none

namespace State

def setThread (s : State) (i : Nat) (t : Thread) : State := { s with threads := s.threads.set i t }

/-- `notify_close` on the thread's own driver. -/
def notifyClose (s : State) (i : Nat) (t : Thread) (rest : List Act) : State :=
  if t.registered && !s.body.isOpen then
    { s.setThread i { t with registered := false, chain := [], acts := .removeListener :: rest } with
      triggered := s.triggered ++ t.chain }
  else s.setThread i { t with acts := rest }

/-- `migrate_fd_close` of another driver. -/
def migrateClose (s : State) (d : Nat) : State :=
  match s.threads[d]? with
  | none => s
  | some t => s.setThread d { t with closing := t.closing + 1 }

/-- The section of `close` under the lock. -/
def closeSection (s : State) (i : Nat) (t : Thread) (becauseDeref : Bool) (rest : List Act) : State :=
  let b := s.body
  let drivers := if b.isOpen then b.drivers else []
  let hasBase := b.isOpen && b.base
  let osClose := hasBase && drivers.isEmpty
  let deletable := becauseDeref && b.drivers.isEmpty
  let after := if osClose then [.osClose] else if hasBase then drivers.map .notify else []
  { s.setThread i { t with acts := after ++ (if deletable then [.delete] else []) ++ rest } with
    body := { b with
      isOpen := false
      base := b.base && !osClose
      ref := if becauseDeref then b.ref - 1 else b.ref } }

/-- The section of `remove_listener` under the lock. -/
def removeSection (s : State) (i : Nat) (t : Thread) (rest : List Act) : State :=
  let b := s.body
  let drivers := swapErase i b.drivers
  let closable := drivers.isEmpty && !b.isOpen && b.base
  let deletable := drivers.isEmpty && b.ref == 0
  { s.setThread i { t with acts :=
      (if closable then [.osClose] else []) ++ (if deletable then [.delete] else []) ++ rest } with
    body := { b with drivers, base := b.base && !closable } }

def exec (s : State) (i : Nat) (t : Thread) (rest : List Act) : Act → State
  | .fetchSub =>
    { s.setThread i { t with acts := rest } with body := { s.body with ref := s.body.ref - 1 } }
  | .close becauseDeref => s.closeSection i t becauseDeref rest
  | .addListener =>
    { s.setThread i { t with acts := rest } with
      body := { s.body with drivers := s.body.drivers ++ [i] } }
  | .append e => s.setThread i { t with acts := rest, chain := t.chain ++ [e] }
  | .removeListener => s.removeSection i t rest
  | .osClose =>
    { s.setThread i { t with acts := rest } with body := { s.body with closes := s.body.closes + 1 } }
  | .notify d =>
    if d = i then s.notifyClose i t rest else (s.setThread i { t with acts := rest }).migrateClose d
  | .delete =>
    { s.setThread i { t with acts := rest } with
      body := { s.body with
        closes := s.body.closes + s.body.base.toNat, base := false, deletes := s.body.deletes + 1 } }

/-- What a thread that is in none of the functions may start. -/
def start (s : State) (i : Nat) (t : Thread) : Label → Option State
  | .copy _ =>
    if 0 < t.refs then
      some { s.setThread i { t with refs := t.refs + 1 } with body := { s.body with ref := s.body.ref + 1 } }
    else none
  | .drop _ =>
    if 0 < t.refs then
      some (s.setThread i { t with
        refs := t.refs - 1, acts := [if s.body.ref = 1 then .close true else .fetchSub] })
    else none
  | .close _ => if 0 < t.refs then some (s.setThread i { t with acts := [.close false] }) else none
  | .watch _ noMask =>
    if 0 < t.refs then
      let e := s.next
      let t' :=
        if !s.body.isOpen || noMask then t
        else if t.registered then { t with acts := [.append e] }
        else { t with registered := true, acts := [.addListener, .append e] }
      some { s.setThread i t' with requested := s.requested ++ [e], next := e + 1 }
    else none
  | .fire _ taken =>
    some { s.setThread i { t with chain := t.chain.filter (· ∉ taken) } with
      triggered := s.triggered ++ t.chain.filter (· ∈ taken) }
  | .process _ =>
    if 0 < t.closing then
      some (s.notifyClose i { t with closing := t.closing - 1 } [])
    else none
  | _ => none

def step (s : State) : Label → Option State
  | .spawn => some { s with threads := s.threads ++ [{}] }
  | .give i j =>
    match s.threads[i]?, s.threads[j]? with
    | some t, some u =>
      if i ≠ j ∧ 0 < t.refs ∧ t.acts = [] then
        some ((s.setThread i { t with refs := t.refs - 1 }).setThread j { u with refs := u.refs + 1 })
      else none
    | _, _ => none
  | .act i =>
    s.threads[i]?.bind fun t =>
      match t.acts with
      | [] => none
      | a :: rest => some (s.exec i t rest a)
  | l =>
    l.caller.bind fun i => s.threads[i]?.bind fun t => if t.acts = [] then s.start i t l else none

end State
end Cotamer.Fd

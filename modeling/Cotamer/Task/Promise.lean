import Cotamer.Event.Body

/-! Promises of tasks. The results of a coroutine are kept apart from what all promises have in
common. -/
namespace Cotamer.Task
open Event

/-- A coroutine, by its promise. -/
abbrev TaskId := Nat

/-- `awaiter_`: a coroutine, or an event, by the low bit. -/
inductive Awaiter where
  | nobody
  | task (a : TaskId)
  | event (e : EventId)
  deriving DecidableEq, Repr

/-- `task_promise_base` -/
structure Promise where
  detached : Bool := false
  hasInterest : Bool := false
  resolving : Bool := false
  forwarded : Bool := false
  inResolve : Bool := false
  home : DriverId := 0
  resolution : Handle := none
  interest : Handle := none
  awaiter : Awaiter := .nobody
  forward : Option TaskId := none
  deriving DecidableEq, Repr

/-- The promises of the coroutines that have not been destroyed. -/
abbrev Promises := TaskId → Option Promise

namespace Promises

def set (s : Promises) (t : TaskId) (p : Promise) : Promises := fun u => if u = t then some p else s u

def destroy (s : Promises) (t : TaskId) : Promises := fun u => if u = t then none else s u

@[simp] theorem set_self (s : Promises) (t : TaskId) (p : Promise) : s.set t p t = some p := if_pos rfl

theorem set_ne (s : Promises) (p : Promise) (other : u ≠ t) : s.set t p u = s u := if_neg other

/-- `clear_awaiter` of a task with this `awaiter_`; `none` when that names a destroyed coroutine. -/
def clearAwaiter (s : Promises) : Awaiter → Option Promises
  | .task a => (s a).map fun aw =>
      if aw.forward.isSome then
        s.set a { aw with forward := none, resolving := false, resolution := none }
      else s
  | .nobody | .event _ => some s

end Promises

end Cotamer.Task

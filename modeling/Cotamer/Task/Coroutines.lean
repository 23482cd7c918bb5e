import Cotamer.Task.Promise
import Cotamer.Transition

/-! The functions that read and write the promises of tasks. A run takes them one at a
time and in any order, so that the coroutines are free to do what they like; what a
function reads of a destroyed promise, or of a quorum that is freed, is undefined. -/
namespace Cotamer.Task
open Event Transition

/-- A combinator that is suspended in `co_await ax.make_event()`. Its arguments are task objects,
some of them references to objects of its caller, which may be detached or moved from. -/
structure Race where
  quorum : EventId
  tasks : List TaskId                  -- those that `make_quorum_s` has found in its arguments
  args : List TaskId                   -- those in its arguments by now
  deriving DecidableEq, Repr

structure Coroutines where
  promises : Promises := fun _ => none
  done : List TaskId := []             -- at their final suspension
  races : TaskId → Option Race := fun _ => none
  next : TaskId := 0
  triggered : List EventId := []
  freed : List EventId := []
  nextEvent : EventId := 0
  obtained : TaskId → List Handle := fun _ => []   -- what make_interest has returned
  wanted : List TaskId := []           -- tasks that were awaited or started

/-- What becomes of `co_await`, of `resolve` and of a combinator's poll. -/
inductive Ends where
  | returns (completed : Bool)
  | resumes                            -- the awaiter goes on
  | suspends
  | transfers                          -- the awaiter suspends and the task runs
  | crossDriver
  | detachedAwait
  | terminates                         -- an exception leaves a function that is noexcept
  deriving DecidableEq, Repr

inductive Label where
  | create (home : DriverId)
  | destroy (ts : List TaskId)         -- a coroutine, with the tasks that its frame owns
  | detach (t : TaskId) (owned : List TaskId)
  | move (t : TaskId) (into : List TaskId)   -- to an argument of some suspended combinators
  | forward (t : TaskId)               -- cot::forward
  | start (t : TaskId)
  | interest (t : TaskId)              -- interest{} or interest_event{} is awaited
  | resolution (t : TaskId)
  | pass (t : TaskId)                  -- resolve() goes past a resolution point
  | drive (t : TaskId) (inResolve : Bool)
  | prepare (t a : TaskId)             -- a suspends in co_await t
  | resume (t : TaskId)                -- await_resume
  | point (t : TaskId) (owned : List TaskId)
  | finish (t : TaskId) (owned : List TaskId)
  | race (r : TaskId) (args : List TaskId)
  | after (r : TaskId)                 -- ax.after_event()
  | trigger (e : EventId)
  deriving DecidableEq, Repr

namespace Promises

def modify (s : Promises) (t : TaskId) (f : Promise → Promise) : Promises :=
  fun u => if u = t then (s u).map f else s u

def setAwaiters (s : Promises) (args : List TaskId) (awaiter : Awaiter) : Promises :=
  fun u => if u ∈ args then (s u).map ({ · with awaiter }) else s u

/-- `active_awaiter`, from an awaiter on. -/
def activeAwaiter (s : Promises) : Nat → Awaiter → Option (Option TaskId)
  | _, .nobody | _, .event _ => some none
  | 0, .task _ => none
  | fuel + 1, .task a =>
    (s a).bind fun aw => if aw.forward.isSome then s.activeAwaiter fuel aw.awaiter else some (some a)

end Promises

namespace Coroutines

variable (w : Coroutines)

def modify (t : TaskId) (f : Promise → Promise) : Coroutines := { w with promises := w.promises.modify t f }

/-- A null handle counts as triggered. -/
def isTriggered (h : Handle) : Bool := h.all (· ∈ w.triggered)

def trigger (h : Handle) : Coroutines := { w with triggered := h.toList ++ w.triggered }

/-- `make_interest` -/
def makeInterest (t : TaskId) (p : Promise) : Handle × Coroutines :=
  if p.hasInterest then (p.interest, w)
  else
    (some w.nextEvent,
      { w.modify t ({ · with interest := some w.nextEvent, hasInterest := true }) with
        nextEvent := w.nextEvent + 1 })

/-- `start` of a task with this promise. -/
def start (t : TaskId) (p : Promise) : Coroutines :=
  if t ∈ w.done then w
  else if p.interest.isSome then w.trigger p.interest
  else w.modify t ({ · with hasInterest := true })

/-- `resolution` -/
def resolution (t : TaskId) (p : Promise) : Coroutines :=
  if p.resolution = none ∧ p.resolving = false then
    { w.modify t ({ · with resolution := some w.nextEvent }) with nextEvent := w.nextEvent + 1 }
  else w

/-- `resolution_point` -/
def resolutionPoint : Nat → Coroutines → TaskId → Option Coroutines
  | 0, _, _ => none
  | fuel + 1, w, t =>
    (w.promises t).bind fun p =>
      let w := (w.modify t ({ · with resolving := true })).trigger p.resolution
      match p.awaiter with
      | .nobody => some w
      | .task a =>
        (w.promises a).bind fun aw => if aw.forward.isSome then resolutionPoint fuel w a else some w
      | .event e => if e ∈ w.freed then none else some (w.trigger (some e))

/-- Past a resolution point: the stale resolution event is dropped. -/
def pass (t : TaskId) : Coroutines := w.modify t ({ · with resolving := false, resolution := none })

def drive (t : TaskId) (inResolve : Bool) : Coroutines := w.modify t ({ · with inResolve })

/-- `task_promise_base::resolve` on driver `d`; `resume` runs a coroutine until it suspends. -/
def resolve (resume : Coroutines → TaskId → Option Coroutines) (d : DriverId) :
    Nat → Coroutines → TaskId → Option (Ends × Coroutines)
  | 0, _, _ => none
  | fuel + 1, w, t =>
    (w.promises t).bind fun p =>
      if t ∈ w.done then some (.returns true, w)
      else if p.resolving = false then some (.returns false, w)
      else if p.forwarded then some (.returns false, w)
      else
        let passed := w.pass t
        let forwarded : Option (Ends × Coroutines) :=
          match p.forward with
          | none => some (.returns true, passed)
          | some c => resolve resume d fuel passed c
        forwarded.bind fun (ends, w) =>
          match ends with
          | .returns false => resolve resume d fuel w t
          | .returns true =>
            if p.home ≠ d then some (.crossDriver, w)
            else (resume (w.drive t true) t).bind fun w => resolve resume d fuel (w.drive t false) t
          | thrown => some (thrown, w)

/-- Task `t`, which has the promise, is awaited by coroutine `a`. -/
def link (t a : TaskId) (p : Promise) : Coroutines :=
  let awaited := (w.trigger p.interest).modify t ({ · with awaiter := .task a, forwarded := false })
  if p.forwarded then awaited.modify a ({ · with forward := some t }) else awaited

/-- `prepare_awaiter` of task `t` for coroutine `a`. -/
def prepareAwaiter (w : Coroutines) (fuel : Nat) (t a : TaskId) : Option (Ends × Coroutines) :=
  (w.promises t).bind fun p => (w.promises a).bind fun aw =>
    if p.home ≠ aw.home then some (.crossDriver, w)
    else if p.detached then some (.detachedAwait, w)
    else
      let w := w.link t a p
      if p.resolving then
        (w.promises.activeAwaiter fuel (.task a)).bind fun active =>
          if active.isSome then some (.transfers, w.pass t)
          else (w.resolutionPoint fuel a).map fun w => (.suspends, w)
      else some (.suspends, w)

/-- `await_resume` of a task, up to its result. -/
def awaitResume (w : Coroutines) (t : TaskId) : Option Coroutines :=
  (w.promises t).bind fun p => (w.promises.clearAwaiter p.awaiter).map fun promises => { w with promises }

/-- `task<T>::resolve`, which a combinator's poll calls too. -/
def taskResolve (w : Coroutines) (resume : Coroutines → TaskId → Option Coroutines) (d : DriverId) (fuel : Nat)
    (t : TaskId) : Option (Ends × Coroutines) :=
  (w.promises t).bind fun p =>
    if p.resolving then resolve resume d fuel w t else some (.returns (decide (t ∈ w.done)), w)

/-- `co_await t` in coroutine `a`, which runs on its home driver. `await_ready` is `noexcept`. -/
def coAwait (w : Coroutines) (resume : Coroutines → TaskId → Option Coroutines) (fuel : Nat) (t a : TaskId) :
    Option (Ends × Coroutines) :=
  (w.promises a).bind fun aw => (resolve resume aw.home fuel w t).bind fun (ends, w) =>
    match ends with
    | .returns true => (w.awaitResume t).map fun w => (.resumes, w)
    | .returns false => w.prepareAwaiter fuel t a
    | _ => some (.terminates, w)

/-- The object that holds the task is detached or moved from, and one that these combinators
have as an argument may hold it now. -/
def move (t : TaskId) (into : List TaskId) : Coroutines :=
  { w with races := fun r => (w.races r).map fun race =>
      { race with args := race.args.filter (· ≠ t) ++ if r ∈ into then [t] else [] } }

/-- The quorum of a combinator is freed, and `clear_awaiter_s` finds the tasks that are in its
arguments. -/
def endRace (r : TaskId) : Coroutines :=
  match w.races r with
  | none => w
  | some race =>
    { w with
      promises := w.promises.setAwaiters race.args .nobody
      races := fun u => if u = r then none else w.races u
      freed := race.quorum :: w.freed }

def endRaces (w : Coroutines) (ts : List TaskId) : Coroutines := ts.foldl endRace w

def destroyed (s : Promises) (ts : List TaskId) : Promises := fun u => if u ∈ ts then none else s u

/-- Frames are destroyed; one of a suspended combinator ends its race. -/
def destroy (w : Coroutines) (ts : List TaskId) : Coroutines :=
  let w := w.endRaces ts
  { w with promises := destroyed w.promises ts }

/-- `make_quorum_s`; the combinator suspends. -/
def race (r : TaskId) (args : List TaskId) : Coroutines :=
  { w with
    promises := w.promises.setAwaiters args (.event w.nextEvent)
    races := fun u => if u = r then some ⟨w.nextEvent, args, args⟩ else w.races u
    nextEvent := w.nextEvent + 1 }

/-- `co_await resolve{}` -/
def point (w : Coroutines) (t : TaskId) (owned : List TaskId) : Option Coroutines :=
  (w.promises t).bind fun p => (w.promises.activeAwaiter w.next p.awaiter).bind fun active =>
    if active.isSome then some w
    else (w.resolutionPoint (w.next + 1) t).map fun w => if p.detached then w.destroy (t :: owned) else w

/-- The final suspension. A coroutine that is resumed directly has a frame. -/
def finish (w : Coroutines) (t : TaskId) (owned : List TaskId) : Option Coroutines :=
  (w.promises t).bind fun p => ({ w with done := t :: w.done }.resolutionPoint (w.next + 1) t).bind fun w =>
    match p.awaiter, p.inResolve with
    | .task a, false => (w.promises a).map fun _ => w
    | _, _ => some (if p.detached then w.destroy (t :: owned) else w)

def step (w : Coroutines) : Label → Option Coroutines
  | .create home =>
    some { w with promises := w.promises.set w.next { home }, next := w.next + 1 }
  | .destroy ts => some (w.destroy ts)
  | .detach t owned =>
    (w.promises t).map fun p =>
      let w := w.move t []
      if p.resolving then w.destroy (t :: owned) else w.modify t ({ · with detached := true })
  | .move t into => (w.promises t).map fun _ => w.move t into
  | .forward t => (w.promises t).map fun _ => if t ∈ w.done then w else w.modify t ({ · with forwarded := true })
  | .start t => (w.promises t).map fun p => { w.start t p with wanted := t :: w.wanted }
  | .interest t =>
    (w.promises t).map fun p =>
      let made := w.makeInterest t p
      { made.2 with obtained := fun u => if u = t then made.1 :: w.obtained u else w.obtained u }
  | .resolution t => (w.promises t).map (w.resolution t)
  | .pass t => (w.promises t).map fun _ => w.pass t
  | .drive t inResolve => (w.promises t).map fun _ => w.drive t inResolve
  | .prepare t a =>
    (w.prepareAwaiter (w.next + 1) t a).map fun (ends, w) =>
      match ends with
      | .suspends | .transfers => { w with wanted := t :: w.wanted }
      | _ => w
  | .resume t => w.awaitResume t
  | .point t owned => w.point t owned
  | .finish t owned => w.finish t owned
  | .race r args =>
    (w.promises r).bind fun _ => if w.races r = none then some (w.race r args) else none
  | .after r => (w.races r).map fun _ => w.endRace r
  | .trigger e => if e < w.nextEvent then some (w.trigger (some e)) else none

end Coroutines
end Cotamer.Task

import Cotamer.Fd.Watches
import Cotamer.Transition
import Mathlib.Logic.Function.Basic

/-! `curl_driver`: it opens and closes sockets for libcurl, has a coroutine for each
socket that libcurl wants polled and one for libcurl's timer. libcurl calls back only
while one of its own functions is on the stack. -/
namespace Cotamer.Curl
open Fd.Watches (FdEvent)
open Transition

def curlPollIn : Nat := 1
def curlPollOut : Nat := 2
def curlPollRemove : Nat := 4

def interest (mask : Nat) : FdEvent :=
  (if mask &&& curlPollIn ≠ 0 then 1 else 0) ||| if mask &&& curlPollOut ≠ 0 then 2 else 0

/-- `ev_bits`; CURL_CSELECT_IN is 1 and CURL_CSELECT_OUT 2. -/
def evBits (fired : FdEvent) : Nat :=
  (if fired &&& 1 ≠ 0 then 1 else 0) ||| if fired &&& 2 ≠ 0 then 2 else 0

/-- The event of a watch: a `file_event`, or one with its user flags. -/
inductive WatchEvent where
  | pending (mask : FdEvent)
  | triggered (flags : FdEvent)
  deriving DecidableEq, Repr

def WatchEvent.trigger : WatchEvent → WatchEvent
  | .pending _ => .triggered 0
  | .triggered flags => .triggered flags

/-- `watch_state`, and the frame of its `watch_task`. -/
structure Watch where
  id : Nat                        -- its address
  mask : Nat
  ev : WatchEvent
  f : Nat                         -- the body of the handle in the frame
  deriving DecidableEq, Repr

structure Body where
  fileno : Nat := 0
  refs : Nat := 0
  deriving DecidableEq, Repr

/-- The event `expiry_`; a plain event has no deadline. -/
structure Expiry where
  deadline : Option Nat := none
  triggered : Bool := false
  userFlags : Nat := 0
  deriving DecidableEq, Repr

/-- The call of libcurl that is on the stack. -/
inductive Call where
  | client                        -- curl_multi_add_handle or curl_multi_remove_handle
  | watch (sock id bits : Nat)    -- curl_multi_socket_action, from `watch_task`
  | timer                         -- curl_multi_socket_action, from `timer_task`
  deriving DecidableEq, Repr

/-- Where libcurl's last request of a timeout is. -/
inductive Stage where
  | asked | armed | served
  deriving DecidableEq, Repr

structure CurlDriver where
  expiry : Expiry := {}
  nextTimeout : Int := -1
  fds : Nat → Option Nat := fun _ => none
  watches : Nat → Option Watch := fun _ => none
  currentSocket : Option Nat := none
  bodies : Nat → Body := fun _ => {}
  kernel : Nat → Option Nat := fun _ => none   -- the descriptors open for it, with their bodies
  next : Nat := 0                               -- of bodies
  nextWatch : Nat := 0
  call : Option Call := none
  crashed : Bool := false                       -- a frame was destroyed while it ran
  -- history
  closed : List Nat := []
  strays : List Nat := []                       -- bodies that closed a descriptor not theirs
  wanted : Nat → Nat := fun _ => curlPollRemove
  request : Int := -1
  stage : Stage := .served

inductive Op where
  | enter                                       -- a client calls libcurl
  | ret                                         -- the call returns
  | openSocket (n : Nat) (nonblocking : Bool)   -- `::socket` answers n
  | closeSocket (n : Nat)
  | socketCb (n what : Nat)
  | timerCb (timeout : Int)
  | fire (n : Nat) (bits : FdEvent)             -- the kernel reports
  | resume (n : Nat)
  | expire
  | resumeTimer
  deriving DecidableEq, Repr

namespace CurlDriver

/-- The destructor of a handle: the last one calls `::close`. -/
def dropHandle (s : CurlDriver) (b : Nat) : CurlDriver :=
  let body := s.bodies b
  let s := { s with bodies := Function.update s.bodies b { body with refs := body.refs - 1 } }
  if body.refs = 1 then
    if s.kernel body.fileno = some b then
      { s with kernel := Function.update s.kernel body.fileno none, closed := s.closed ++ [b] }
    else { s with strays := s.strays ++ [b] }
  else s

def isRunning (s : CurlDriver) (n id : Nat) : Bool :=
  match s.call with
  | some (.watch sock id' _) => sock == n && id' == id
  | _ => false

/-- `watches_.erase` destroys the frame. -/
def eraseWatch (s : CurlDriver) (n : Nat) : CurlDriver :=
  match s.watches n with
  | none => s
  | some w =>
    { s with
      watches := Function.update s.watches n none
      crashed := s.crashed || s.isRunning n w.id }.dropHandle w.f

/-- The head of the loop of `watch_task`. At its end the entry is detached and erased,
if it is still there, and the frame ends. -/
def watchLoop (s : CurlDriver) (n : Nat) (w : Watch) : CurlDriver :=
  if w.mask ≠ curlPollRemove then
    { s with watches := Function.update s.watches n (some { w with ev := .pending (interest w.mask) }) }
  else if (s.watches n).map Watch.id = some w.id then
    { s with watches := Function.update s.watches n none }.dropHandle w.f
  else s.dropHandle w.f

/-- `fds_.emplace(s, fd(s))`; when the number has an entry the new handle is destroyed. -/
def openSocketCb (s : CurlDriver) (n : Nat) : CurlDriver :=
  let b := s.next
  let s := { s with
    bodies := Function.update s.bodies b ⟨n, 1⟩
    kernel := Function.update s.kernel n (some b)
    next := b + 1
    wanted := Function.update s.wanted n curlPollRemove }
  match s.fds n with
  | none => { s with fds := Function.update s.fds n (some b) }
  | some _ => s.dropHandle b

def closeSocketCb (s : CurlDriver) (n : Nat) : CurlDriver :=
  match s.fds n with
  | none => s
  | some b => { s with fds := Function.update s.fds n none }.dropHandle b

def socketCb (s : CurlDriver) (n what : Nat) : CurlDriver :=
  let s := { s with wanted := Function.update s.wanted n what }
  if what = curlPollRemove ∧ s.currentSocket ≠ some n then s.eraseWatch n
  else match s.watches n with
    | some w => { s with watches := Function.update s.watches n (some { w with mask := what, ev := w.ev.trigger }) }
    | none =>
      if what = curlPollRemove then s
      else match s.fds n with
        | none => s
        | some b =>
          -- the new task runs to its first `co_await`
          { s with
            bodies := Function.update s.bodies b { s.bodies b with refs := (s.bodies b).refs + 1 }
            nextWatch := s.nextWatch + 1 }.watchLoop n ⟨s.nextWatch, what, .triggered 0, b⟩

def timerCb (s : CurlDriver) (timeout : Int) : CurlDriver :=
  { s with
    expiry := if s.expiry.triggered then s.expiry else { s.expiry with userFlags := 1, triggered := true }
    nextTimeout := timeout
    request := timeout
    stage := .asked }

/-- The head of the loop of `timer_task`. -/
def timerLoop (s : CurlDriver) : CurlDriver :=
  if s.expiry.triggered then
    { s with
      expiry := if s.nextTimeout < 0 then {} else { deadline := some s.nextTimeout.toNat }
      nextTimeout := -1
      stage := if s.stage = .asked then .armed else s.stage }
  else s

def step (s : CurlDriver) : Op → Option CurlDriver
  | .enter => if s.call = none then some { s with call := some .client } else none
  | .ret =>
    match s.call with
    | none => none
    | some .client => some { s with call := none }
    | some .timer => some { s with call := none }.timerLoop
    | some (.watch n id _) =>
      match s.watches n with
      | none => none
      | some w => if w.id = id then some ({ s with call := none, currentSocket := none }.watchLoop n w) else none
  | .openSocket n nonblocking =>
    -- a descriptor that cannot be made non-blocking is closed again
    if s.call = none ∨ s.kernel n ≠ none then none else some (if nonblocking then s.openSocketCb n else s)
  | .closeSocket n => if s.call = none then none else some (s.closeSocketCb n)
  | .socketCb n what => if s.call = none then none else some (s.socketCb n what)
  | .timerCb timeout => if s.call = none then none else some (s.timerCb timeout)
  | .fire n bits =>
    match s.watches n with
    | some ⟨id, mask, .pending _, f⟩ =>
      if s.call = none ∧ bits ≠ 0 then
        some { s with watches := Function.update s.watches n (some ⟨id, mask, .triggered bits, f⟩) }
      else none
    | _ => none
  | .resume n =>
    match s.call, s.watches n with
    | none, some w =>
      match w.ev with
      | .pending _ => none
      | .triggered flags =>
        if flags = 0 then some (s.watchLoop n w)
        else some { s with call := some (.watch n w.id (evBits flags)), currentSocket := some n }
    | _, _ => none
  | .expire =>
    if s.call = none ∧ s.expiry.triggered = false ∧ s.expiry.deadline.isSome then
      some { s with expiry := { s.expiry with triggered := true } }
    else none
  | .resumeTimer =>
    if s.call = none ∧ s.expiry.triggered = true then
      if s.expiry.userFlags ≠ 0 then some s.timerLoop
      else some { s with
        call := some .timer
        stage := if s.stage = .armed then .served else s.stage }
    else none

/-- libcurl has a socket polled only while it has it open, and no longer when it closes it. -/
def Kept (s : CurlDriver) : Op → Prop
  | .socketCb n what => what ≠ curlPollRemove → s.fds n ≠ none ∨ s.kernel n = none
  | .closeSocket n => s.wanted n = curlPollRemove
  | _ => True

instance : ∀ (s : CurlDriver) (l : Op), Decidable (s.Kept l)
  | s, .socketCb n what =>
    inferInstanceAs (Decidable (what ≠ curlPollRemove → s.fds n ≠ none ∨ s.kernel n = none))
  | s, .closeSocket n => inferInstanceAs (Decidable (s.wanted n = curlPollRemove))
  | _, .enter | _, .ret | _, .openSocket .. | _, .timerCb _ | _, .fire .. | _, .resume _ | _, .expire
  | _, .resumeTimer => isTrue trivial

end CurlDriver

end Cotamer.Curl

import Cotamer.Counts
import Cotamer.Event.Inboxes
import Cotamer.TimerHeap

/-! The driver loop. One driver `me` runs on its thread; between any two of its
steps other threads may work on the same events. Coroutines are arbitrary: while
one runs, its code does whatever the user operations allow. The watch table
`fds_` is a list of watched events, and what the kernel reports is arbitrary. -/
namespace Cotamer
open Event Transition

inductive Phase where
  | idle                       -- the loop is not running
  | imports                    -- top of an iteration
  | closes                     -- the closes found by finish_migrate
  | aliquot (n : Nat)          -- `n` more events may be taken from asap_
  | keepalives
  | clearWatches               -- process_clearing
  | clearTimers
  | updates                    -- apply_fd_update
  | test                       -- exit test and timeout
  | block                      -- watch_fds
  | fdEvents (had : Bool)
  | clock (had : Bool)         -- update time
  | timers
  | returned (more : Bool)
  deriving DecidableEq, Repr

/-- The driver's own fields. `left` and `posted` record, for the current
iteration, how many events the aliquot left in `asap_` and how many
`process_clearing` put there. -/
structure Loop where
  phase : Phase := .idle
  running : Bool := false            -- a resumed coroutine has control
  poll : Bool := false               -- looptype
  snow : Int := 0                    -- snow_
  clearing : Bool := false
  realTime : Bool := false
  guardCount : Int := 0
  guards : Nat := 0                  -- live driver_guards that count
  timed : TimerHeap EventId := {}
  keepalives : List EventId := []
  closing : List Nat := []           -- migrate_fd_close of finish_migrate
  fdctl : Nat → Nat := fun _ => 0
  nfdctl : Nat := 0
  updates : List Nat := []           -- the update list of fds_
  watched : List (Nat × EventId) := []
  left : Nat := 0
  posted : Nat := 0

structure Driver where
  world : World := {}
  loop : Loop := {}

namespace Driver

inductive Label where
  -- code on the driver's thread
  | op (o : Op)
  | atTime (t : Int) (n : EventId)
  | keepalive (n : EventId)
  | guard
  | unguard
  | clear
  | setClock (real : Bool)
  | watch (fd : Nat)
  | closeWatch (fd : Nat) (n : EventId)
  | closed (fd : Nat)
  | enter (poll : Bool)
  | suspend
  -- other threads
  | remote (o : Op)
  -- the loop
  | imports
  | endCloses
  | take
  | call
  | endAliquot
  | dropKeepalive
  | endKeepalives
  | clearWatch (fd : Nat) (n : EventId)
  | endWatches
  | clearTimer
  | endClearing
  | update (mask : Nat)
  | endUpdates
  | test (now : Int)
  | wake (had : Bool)
  | fdEvent (fd : Nat) (n : EventId)
  | endFdEvents
  | clock (now : Int)
  | timer
  | endTimers
  | leave

/-- `asap_quota` -/
def asapQuota : Nat := 0x1000

/-- `duration(1h)` in nanoseconds -/
def hour : Int := 3600000000000

end Driver

namespace Loop

/-- Handles in `timed_`, `keepalives_` and `fds_`. -/
def owned (l : Loop) (n : EventId) : Nat :=
  l.timed.values.count n + l.keepalives.count n + (l.watched.map Prod.snd).count n

/-- Somebody else has a handle to the event. -/
def spare (l : Loop) (w : World) (n : EventId) : Bool := l.owned n < w.outside.client n

def spares (l : Loop) (w : World) (o : Op) : Bool :=
  match o.consumes with
  | none => true
  | some n => l.spare w n

/-- User code has control of the thread. -/
def userCode (l : Loop) : Bool := l.phase == .idle || l.running

/-- Phases that visit events. -/
def visits (l : Loop) : Bool :=
  match l.phase with
  | .aliquot _ | .clearWatches | .clearTimers | .fdEvents _ | .timers => true
  | _ => false

def addUpdate (l : Loop) (fd : Nat) : Loop :=
  if fd ∈ l.updates then l else { l with updates := fd :: l.updates }

/-- `apply_fd_update` -/
def applyFdUpdate (l : Loop) (fd mask : Nat) : Loop :=
  if l.fdctl fd = mask then l
  else { l with
    fdctl := fun fd' => if fd' = fd then mask else l.fdctl fd'
    nfdctl :=
      if l.fdctl fd = 0 then l.nfdctl + 1 else if mask = 0 then l.nfdctl - 1 else l.nfdctl }

/-- `steady_now`; `now` is the real clock. -/
def steadyNow (l : Loop) (now : Int) : Int := if l.realTime then now else l.snow

/-- The exit test, after `timed_.cull()`. -/
def finished (l : Loop) (nonempty : Bool) : Bool :=
  l.timed.isEmpty && l.nfdctl == 0 && !nonempty && l.guardCount == 0 && l.keepalives.isEmpty

def timeout (l : Loop) (inbox : Inbox) (now : Int) : Int :=
  if !inbox.asap.isEmpty || !l.realTime || inbox.nonempty || l.poll || l.clearing then 0
  else match l.timed.topTime? with
    | some t => rep (t - l.steadyNow now)
    | none => Driver.hour

/-- "update time" -/
def tick (l : Loop) (inbox : Inbox) (had : Bool) (now : Int) : Loop :=
  if l.realTime then { l with snow := now }
  else match l.timed.topTime? with
    | none => l
    | some t => if inbox.asap.isEmpty && !had then { l with snow := t } else l

/-- `step_time`, after a coroutine outside `process_clearing` -/
def stepTime (l : Loop) : Loop :=
  match l.phase with
  | .clearWatches | .clearTimers | .idle => l
  | _ => if l.realTime then l else { l with snow := rep (l.snow + 1) }

end Loop

namespace Driver
variable (home : CoroutineId → DriverId) (me : DriverId)

def inbox (s : Driver) : Inbox := s.world.graph.inbox me

/-- The visit of the last event is over. -/
def quiet (s : Driver) : Bool := s.world.outside.visiting me == none && !s.loop.running

/-- `timed_` after `cull`, and the handles dropped. -/
def culled (s : Driver) : TimerHeap EventId × List EventId :=
  s.loop.timed.cull fun n => s.world.graph.handleEmpty (some n)

/-- `timed_` after `emplace`, and the handles dropped. -/
def emplaced (s : Driver) (t : Int) (n : EventId) : TimerHeap EventId × List EventId :=
  s.loop.timed.emplace (fun n => s.world.graph.handleEmpty (some n)) t n

/-- What a step does to the events. -/
def ops (s : Driver) : Label → List Op
  | .op o | .remote o => [o]
  | .atTime t n => (s.emplaced t n).2.map .drop
  | .keepalive n => if (s.world.graph.body n).triggered then [.drop n] else []
  | .watch _ => [.create, .copy s.world.graph.next]
  | .closeWatch _ n => [.trigger n me, .drop n]
  | .imports => if (s.inbox me).nonempty then [.migrate me] else []
  | .take => [.popAsap me]
  | .call => [.driverTrigger me]
  | .dropKeepalive => s.loop.keepalives.getLast?.toList.map .drop
  | .endKeepalives => if s.loop.clearing then s.loop.keepalives.map .drop else []
  | .clearWatch _ n | .fdEvent _ n => [.takeHandle me n]
  | .clearTimer | .timer => s.loop.timed.top?.toList.map (.takeHandle me)
  | .test _ => s.culled.2.map .drop
  | _ => []

/-- What a step does to the driver, when it is enabled. `w` is what it has made
of the events. -/
def next (s : Driver) (w : World) : Label → Option Loop
  | .op o => if s.loop.userCode && o.isLocal me && s.loop.spares s.world o then some s.loop else none
  | .atTime t n =>
    if s.loop.userCode && s.loop.spare s.world n then
      some { s.loop with timed := (s.emplaced t n).1 }
    else none
  | .keepalive n =>
    if s.loop.userCode && s.loop.spare s.world n then
      some (if (s.world.graph.body n).triggered then s.loop
        else { s.loop with keepalives := s.loop.keepalives ++ [n] })
    else none
  | .guard =>
    if !s.loop.userCode then none
    else if s.loop.clearing then some s.loop
    else some { s.loop with guardCount := s.loop.guardCount + 1, guards := s.loop.guards + 1 }
  | .unguard =>
    if s.loop.userCode && 0 < s.loop.guards then
      some { s.loop with
        guards := s.loop.guards - 1
        guardCount := if s.loop.clearing then s.loop.guardCount else s.loop.guardCount - 1 }
    else none
  | .clear => if s.loop.userCode then some { s.loop with clearing := true } else none
  | .setClock real => if s.loop.userCode then some { s.loop with realTime := real } else none
  | .watch fd =>
    if s.loop.userCode then
      some { s.loop.addUpdate fd with watched := s.loop.watched ++ [(fd, s.world.graph.next)] }
    else none
  | .closeWatch fd n =>
    if (s.loop.userCode || s.loop.phase == .closes && s.loop.closing.head? == some fd) &&
        s.loop.watched.contains (fd, n) then
      some { s.loop with watched := s.loop.watched.erase (fd, n) }
    else none
  | .closed fd =>
    if s.loop.userCode then some ((s.loop.addUpdate fd).applyFdUpdate fd 0)
    else if s.loop.phase = .closes ∧ s.loop.closing.head? = some fd then
      some { (s.loop.addUpdate fd).applyFdUpdate fd 0 with closing := s.loop.closing.tail }
    else none
  | .enter poll =>
    if s.loop.phase = .idle then some { s.loop with phase := .imports, poll } else none
  | .suspend => if s.loop.running then some { s.loop.stepTime with running := false } else none
  | .remote o => if o.isRemote me && s.loop.spares s.world o then some s.loop else none
  | .imports =>
    if s.loop.phase = .imports then
      some { s.loop with
        phase := .closes
        closing := if (s.inbox me).nonempty then (s.inbox me).migrateFdClose else [] }
    else none
  | .endCloses =>
    if s.loop.phase = .closes ∧ s.loop.closing = [] then
      some { s.loop with phase := .aliquot asapQuota }
    else none
  | .take =>
    match s.loop.phase with
    | .aliquot (n + 1) => if s.quiet me then some { s.loop with phase := .aliquot n } else none
    | _ => none
  | .call =>
    if s.loop.visits && !s.loop.running then
      some { s.loop with running := (w.outside.visiting me).isSome }
    else none
  | .endAliquot =>
    match s.loop.phase with
    | .aliquot n =>
      if (n == 0 || (s.inbox me).asap.isEmpty) && s.quiet me then
        some { s.loop with phase := .keepalives, left := (s.inbox me).asap.length, posted := 0 }
      else none
    | _ => none
  | .dropKeepalive =>
    match s.loop.keepalives.getLast? with
    | some n =>
      if s.loop.phase = .keepalives ∧ (s.world.graph.body n).triggered then
        some { s.loop with keepalives := s.loop.keepalives.dropLast }
      else none
    | none => none
  | .endKeepalives =>
    if s.loop.phase = .keepalives ∧
        ∀ n ∈ s.loop.keepalives.getLast?, (s.world.graph.body n).triggered = false then
      some (if s.loop.clearing then
          { s.loop with phase := .clearWatches, keepalives := [], guardCount := 0 }
        else { s.loop with phase := .updates })
    else none
  | .clearWatch fd n =>
    if s.loop.phase = .clearWatches ∧ s.quiet me ∧ s.loop.watched.contains (fd, n) then
      some { s.loop.addUpdate fd with watched := s.loop.watched.erase (fd, n) }
    else none
  | .endWatches =>
    if s.loop.phase = .clearWatches ∧ s.quiet me then some { s.loop with phase := .clearTimers }
    else none
  | .clearTimer =>
    if s.loop.phase = .clearTimers ∧ s.quiet me ∧ !s.loop.timed.isEmpty then
      some { s.loop with timed := s.loop.timed.pop }
    else none
  | .endClearing =>
    if s.loop.phase = .clearTimers ∧ s.quiet me ∧ s.loop.timed.isEmpty then
      some { s.loop with phase := .updates, posted := (s.inbox me).asap.length - s.loop.left }
    else none
  | .update mask =>
    match s.loop.updates with
    | fd :: rest =>
      if s.loop.phase = .updates then
        some ({ s.loop with updates := rest }.applyFdUpdate fd mask)
      else none
    | [] => none
  | .endUpdates =>
    if s.loop.phase = .updates ∧ s.loop.updates = [] then some { s.loop with phase := .test }
    else none
  | .test now =>
    if s.loop.phase = .test then
      let l := { s.loop with timed := s.culled.1 }
      some (if l.finished (s.inbox me).nonempty then
          { l with clearing := false, phase := .returned false }
        else if l.nfdctl = 0 ∧ l.timeout (s.inbox me) now ≤ 0 then { l with phase := .clock false }
        else { l with phase := .block })
    else none
  | .wake had => if s.loop.phase = .block then some { s.loop with phase := .fdEvents had } else none
  | .fdEvent fd n =>
    if s.loop.phase = .fdEvents true ∧ s.quiet me ∧ s.loop.watched.contains (fd, n) then
      some { s.loop.addUpdate fd with watched := s.loop.watched.erase (fd, n) }
    else none
  | .endFdEvents =>
    match s.loop.phase with
    | .fdEvents had => if s.quiet me then some { s.loop with phase := .clock had } else none
    | _ => none
  | .clock now =>
    match s.loop.phase with
    | .clock had => some { s.loop.tick (s.inbox me) had now with phase := .timers }
    | _ => none
  | .timer =>
    if s.loop.phase = .timers ∧ s.quiet me ∧ ∃ t ∈ s.loop.timed.topTime?, t ≤ s.loop.snow then
      some { s.loop with timed := s.loop.timed.pop }
    else none
  | .endTimers =>
    if s.loop.phase = .timers ∧ s.quiet me ∧ ∀ t ∈ s.loop.timed.topTime?, s.loop.snow < t then
      some { s.loop with phase := if s.loop.poll then .returned true else .imports }
    else none
  | .leave =>
    match s.loop.phase with
    | .returned _ => some { s.loop with phase := .idle }
    | _ => none

def step (s : Driver) (l : Label) : Option Driver :=
  (run (World.step home) s.world (s.ops me l)).bind fun w =>
    (s.next me w l).map fun loop => ⟨w, loop⟩

end Driver
end Cotamer

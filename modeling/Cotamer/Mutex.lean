import Cotamer.Event.Body

/-! `cotamer::mutex`. A latched section runs from `latch` to `unlatch` and is
one atomic step; a lock-free path is one atomic compare-exchange. The value a
lock-free path loaded beforehand may be stale, so it is an argument. -/
namespace Cotamer
open Event

namespace Mutex

abbrev Latch := BitVec 32

def mfLatch : Latch := 1#32
def mfNextExcl : Latch := 2#32
def mfNextShared : Latch := 4#32
def mfmNext : Latch := 6#32
def mfLockExcl : Latch := 8#32
def mfLockShared : Latch := 16#32

/-- An entry of `waiters_`: an event, held by address, and the flag to set on
the grant. The body is the mutex's own, so its state is kept in the entry. -/
structure Waiter where
  event : EventId
  body : EventBody
  notify : Option Nat := none
  deriving DecidableEq, Repr

/-- `waiter_shared`: `ef_user` is the first of the user flags. -/
def Waiter.shared (w : Waiter) : Bool := w.body.userFlags % 2 == 1

end Mutex

structure Mutex where
  latch : Mutex.Latch := 0#32             -- latch_
  waiters : List Mutex.Waiter := []       -- waiters_
  deriving DecidableEq, Repr

namespace Mutex

def allow (isShared : Bool) (l : Latch) : Bool :=
  if isShared then l &&& mfLockExcl = 0#32 else l < mfLockExcl

/-- The amount one grant adds to the latch word. -/
def lockUnit (isShared : Bool) : Latch := if isShared then mfLockShared else mfLockExcl

/-- The latch word and queue after `notify_locked`, with the waiters granted. -/
structure Notified where
  l : Latch
  waiters : List Waiter
  granted : List Waiter
  deriving DecidableEq, Repr

/-- Grant the front waiters while their modes allow it. A waiter whose event is
empty was cancelled and is skipped. -/
def notifyLocked : Latch → List Waiter → Notified
  | l, [] => ⟨l, [], []⟩
  | l, fw :: rest =>
    if fw.body.empty then notifyLocked l rest
    else if !allow fw.shared l then ⟨l, fw :: rest, []⟩
    else if !fw.body.triggered && fw.body.awaited then
      let r := notifyLocked (l + lockUnit fw.shared) rest
      { r with granted := fw :: r.granted }
    else notifyLocked l rest

/-- `latch`: the word with the latch bit taken and the next-in-line bits cleared. -/
def latched (m : Mutex) : Latch := m.latch &&& ~~~mfmNext

def unlatch (l : Latch) (waiters : List Waiter) : Mutex :=
  match waiters with
  | [] => ⟨l, []⟩
  | fw :: rest => ⟨l + (if fw.shared then mfNextShared else mfNextExcl), fw :: rest⟩

/-- The event body `lock_impl` allocates for a request that has to wait: one
reference is the caller's `mutex_event`, the other the queue entry. -/
def newWaiter (isShared : Bool) (event : EventId) (notify : Option Nat) : Waiter :=
  ⟨event, { refcount := 2, userFlags := if isShared then 1 else 0 }, notify⟩

/-- A mutex after an operation. `now` says that the operation itself took the
lock; `granted` are the queued waiters it granted. -/
structure Result where
  mutex : Mutex
  now : Bool
  granted : List Waiter
  deriving DecidableEq, Repr

/-- `lock_impl`, called with a null event handle by every caller. -/
def lockImpl (isShared : Bool) (event : EventId) (notify : Option Nat) (m : Mutex) : Result :=
  let r := notifyLocked (latched m) m.waiters
  if r.waiters.isEmpty && allow isShared r.l then
    ⟨unlatch (r.l + lockUnit isShared) r.waiters, true, r.granted⟩
  else ⟨unlatch r.l (r.waiters ++ [newWaiter isShared event notify]), false, r.granted⟩

def unlockImpl (isShared : Bool) (m : Mutex) : Result :=
  let r := notifyLocked (latched m - lockUnit isShared) m.waiters
  ⟨unlatch r.l r.waiters, false, r.granted⟩

/-- `compare_exchange_strong` of the latch word. -/
def exchange (m : Mutex) (expected desired : Latch) : Option Mutex :=
  if m.latch = expected then some { m with latch := desired } else none

def tryLock (m : Mutex) : Result :=
  match exchange m 0#32 mfLockExcl with
  | some m' => ⟨m', true, []⟩
  | none => ⟨m, false, []⟩

def tryLockShared (l : Latch) (m : Mutex) : Result :=
  if l &&& (mfLatch ||| mfmNext ||| mfLockExcl) ≠ 0#32 then ⟨m, false, []⟩
  else match exchange m l (l + mfLockShared) with
    | some m' => ⟨m', true, []⟩
    | none => ⟨m, false, []⟩

def unlock (l : Latch) (m : Mutex) : Result :=
  if l &&& (mfLatch ||| mfmNext) = 0#32 then
    match exchange m l (l - mfLockExcl) with
    | some m' => ⟨m', false, []⟩
    | none => unlockImpl false m
  else unlockImpl false m

def unlockShared (l : Latch) (m : Mutex) : Result :=
  if l &&& (mfLatch ||| mfNextShared) = 0#32 ∧
      (l &&& mfNextExcl = 0#32 ∨ 2#32 * mfLockShared ≤ l) then
    match exchange m l (l - mfLockShared) with
    | some m' => ⟨m', false, []⟩
    | none => unlockImpl true m
  else unlockImpl true m

/-- Change the event body of a queued waiter: its listeners and its outside
references belong to the code that waits on it. -/
def updateWaiter (event : EventId) (f : EventBody → EventBody) (m : Mutex) : Mutex :=
  { m with waiters := m.waiters.map fun w =>
      if w.event = event then { w with body := f w.body } else w }

end Mutex
end Cotamer

import Cotamer.Mutex.Ownership

/-! `attempt` of a lock request: a coroutine that waits for the request or for other
events, and gives up when one of those triggers first. Its frame has the request's
event as a parameter, until the task is destroyed. The request is a temporary, as in
`attempt(m.lock(), after(1s))`: nobody else has a handle to its event. -/
namespace Cotamer.Mutex
open Event SwapVector Transition

inductive Stage where
  | asked                       -- `lock` has returned, the coroutine is not started
  | waits                       -- in `co_await any(...)`
  | woken                       -- the quorum has triggered
  | locked                      -- it has returned the lock
  | missed                      -- it has returned nullopt
  | destroyed (gaveUp : Bool)   -- the frame is gone
  deriving DecidableEq, Repr

/-- It has returned nullopt. -/
def Stage.gaveUp : Stage → Bool
  | .missed => true
  | .destroyed gaveUp => gaveUp
  | .asked | .waits | .woken | .locked => false

/-- An attempt whose request was put in the queue. -/
structure Attempt where
  event : EventId
  isShared : Bool
  quorum : EventId := 0
  stage : Stage := .asked
  granted : Bool := false       -- the event is triggered
  deriving DecidableEq, Repr

/-- `late` are the grants of requests whose attempts had returned nullopt. -/
structure Attempts where
  accounts : Accounts := {}
  attempts : List Attempt := []
  late : List EventId := []
  deriving DecidableEq, Repr

inductive AttemptOp where
  | op (o : Op)                 -- other requests, unlocks and their owners
  | request (isShared : Bool)   -- the argument of `attempt`
  | start (i : Nat) (quorum : EventId)
  | timeout (i : Nat)           -- another member triggers the quorum
  | resume (i : Nat)
  | destroy (i : Nat)
  deriving DecidableEq, Repr

/-- The event that its owner changes. -/
def Op.owned : Op → Option EventId
  | .listen event _ | .unlisten event _ | .copyHandle event | .dropHandle event | .trigger event => some event
  | .lock .. | .tryLock | .tryLockShared _ | .unlock _ | .unlockShared _ => none

namespace Attempt

/-- The grant triggers the event, and with it the quorum. -/
def grant (events : List EventId) (a : Attempt) : Attempt :=
  if a.event ∈ events then
    { a with granted := true, stage := if a.stage = .waits then .woken else a.stage }
  else a

/-- The event's body in the queue: the queue and the frame refer to it, and the quorum
while it waits. -/
def body (a : Attempt) : EventBody :=
  { refcount := match a.stage with
      | .waits => 3
      | .asked | .woken | .locked | .missed => 2
      | .destroyed _ => 1
    userFlags := if a.isShared then 1 else 0
    listeners := if a.stage = .waits then [.quorum a.quorum] else [] }

end Attempt

/-- `add_member` of the quorum. -/
def addMember (quorum : EventId) (b : EventBody) : EventBody :=
  { b with refcount := b.refcount + 1, listeners := b.listeners ++ [.quorum quorum] }

/-- `cull_members` of the quorum. -/
def removeMember (quorum : EventId) (b : EventBody) : EventBody :=
  { b with refcount := b.refcount - 1, listeners := swapErase (.quorum quorum) b.listeners }

def dropHandle (b : EventBody) : EventBody := { b with refcount := b.refcount - 1 }

namespace Attempts

/-- Run one operation on the mutex and trigger the requests it grants. -/
def perform (s : Attempts) (o : Op) : Option Attempts :=
  (s.accounts.step o).map fun accounts =>
    let events := (s.accounts.outcome o).granted.map Waiter.event
    { accounts
      attempts := s.attempts.map (Attempt.grant events)
      late := s.late ++ events.filter fun e => s.attempts.any fun a => a.event == e && a.stage.gaveUp }

/-- An attempt goes on, and its event's body changes. -/
def move (s : Attempts) (i : Nat) (a : Attempt) (f : EventBody → EventBody) : Attempts :=
  { s with
    accounts := { s.accounts with mutex := updateWaiter a.event f s.accounts.mutex }
    attempts := s.attempts.set i a }

/-- The coroutine looks at its event before and after it waits. -/
def step (s : Attempts) : AttemptOp → Option Attempts
  | .op o => if ∀ a ∈ s.attempts, o.owned ≠ some a.event then s.perform o else none
  | .request isShared =>
    (s.perform (.lock isShared none)).map fun t =>
      if (s.accounts.outcome (.lock isShared none)).now then t
      else { t with attempts := t.attempts ++ [{ event := s.accounts.next, isShared }] }
  | .start i quorum =>
    s.attempts[i]?.bind fun a =>
      if a.stage ≠ .asked then none
      else if a.granted then some (s.move i { a with stage := .locked } id)
      else some (s.move i { a with stage := .waits, quorum } (addMember quorum))
  | .timeout i =>
    s.attempts[i]?.bind fun a =>
      if a.stage = .waits then some (s.move i { a with stage := .woken } (removeMember a.quorum)) else none
  | .resume i =>
    s.attempts[i]?.bind fun a =>
      if a.stage = .woken then
        some (s.move i { a with stage := if a.granted then .locked else .missed } id)
      else none
  | .destroy i =>
    s.attempts[i]?.bind fun a =>
      match a.stage with
      | .destroyed _ => none
      | .waits => some (s.move i { a with stage := .destroyed false } (dropHandle ∘ removeMember a.quorum))
      | stage => some (s.move i { a with stage := .destroyed stage.gaveUp } dropHandle)

end Attempts

/-- The walk of `notify_locked` from the word comes to the request: those before it are
cancelled or allowed, and it is allowed. -/
def Comes (e : EventId) : Latch → List Waiter → Prop
  | _, [] => False
  | l, fw :: rest =>
    if fw.body.empty then Comes e l rest
    else allow fw.shared l = true ∧
      (fw.event = e ∨ Comes e (if !fw.body.triggered && fw.body.awaited then l + lockUnit fw.shared else l) rest)

/-- The word from which the operation walks the queue, if it does. -/
def Accounts.walk (s : Accounts) : Op → Option Latch
  | .lock .. => some (latched s.mutex)
  | .unlock seen =>
    if seen &&& (mfLatch ||| mfmNext) = 0#32 ∧ s.mutex.latch = seen then none
    else some (latched s.mutex - lockUnit false)
  | .unlockShared seen =>
    if (seen &&& (mfLatch ||| mfNextShared) = 0#32 ∧
        (seen &&& mfNextExcl = 0#32 ∨ 2#32 * mfLockShared ≤ seen)) ∧ s.mutex.latch = seen then none
    else some (latched s.mutex - lockUnit true)
  | _ => none

namespace Attempts

/-- What the operation does to the mutex. -/
def mutexOp : AttemptOp → Option Op
  | .op o => some o
  | .request isShared => some (.lock isShared none)
  | _ => none

/-- No walk comes to the request of an attempt that has returned nullopt and whose task
is still there. -/
def Careful (s : Attempts) (l : AttemptOp) : Prop :=
  ∀ o ∈ mutexOp l, ∀ word ∈ s.accounts.walk o, ∀ a ∈ s.attempts, a.stage = .missed →
    ¬Comes a.event word s.accounts.mutex.waiters

end Attempts

theorem mem_updateWaiter {m : Mutex} {w : Waiter} (member : w ∈ (updateWaiter event f m).waiters) :
    ∃ v ∈ m.waiters, (if v.event = event then { v with body := f v.body } else v) = w := by
  rw [Guarded.updateWaiter_waiters] at member
  exact List.mem_map.mp member

theorem updateWaiter_events (event : EventId) (f : EventBody → EventBody) (m : Mutex) :
    (updateWaiter event f m).waiters.map Waiter.event = m.waiters.map Waiter.event := by
  rw [Guarded.updateWaiter_waiters, List.map_map]
  apply List.map_congr_left
  intro w _
  simp only [Function.comp_apply]
  split <;> rfl

/-! What a walk grants, it comes to. -/

theorem comes_of_granted {l : Latch} {waiters : List Waiter} {w : Waiter}
    (granted : w ∈ (notifyLocked l waiters).granted) : Comes w.event l waiters := by
  induction waiters generalizing l with
  | nil => cases granted
  | cons fw rest ih =>
      rw [notifyLocked] at granted
      rw [Comes]
      split at granted
      · rw [if_pos ‹_›]
        exact ih granted
      · rw [if_neg ‹_›]
        split at granted
        · cases granted
        · rename_i allowed
          refine ⟨by simpa using allowed, ?_⟩
          split at granted
          · rw [if_pos ‹_›]
            rcases List.mem_cons.mp granted with rfl | later
            · exact .inl rfl
            · exact .inr (ih later)
          · rw [if_neg ‹_›]
            exact .inr (ih granted)

/-- A request that has an owner is granted when the walk comes to it. -/
theorem granted_of_comes {l : Latch} {waiters : List Waiter} (comes : Comes e l waiters)
    (owned : ∀ w ∈ waiters, w.event = e → w.body.triggered = false ∧ 1 < w.body.refcount) :
    ∃ w ∈ (notifyLocked l waiters).granted, w.event = e := by
  induction waiters generalizing l with
  | nil => exact comes.elim
  | cons fw rest ih =>
      have tail : ∀ w ∈ rest, w.event = e → w.body.triggered = false ∧ 1 < w.body.refcount :=
        fun w later => owned w (List.mem_cons_of_mem _ later)
      rw [Comes] at comes
      rw [notifyLocked]
      split at comes
      · rw [if_pos ‹_›]
        exact ih comes tail
      · obtain ⟨allowed, comes⟩ := comes
        rw [if_neg ‹_›, if_neg (by simp [allowed])]
        split at comes
        · rw [if_pos ‹_›]
          rcases comes with here | later
          · exact ⟨fw, List.mem_cons_self, here⟩
          · obtain ⟨w, granted, here⟩ := ih later tail
            exact ⟨w, List.mem_cons_of_mem _ granted, here⟩
        · rename_i silent
          rw [if_neg silent]
          rcases comes with here | later
          · obtain ⟨fresh, several⟩ := owned fw List.mem_cons_self here
            simp [fresh, several, EventBody.awaited] at silent
          · exact ih later tail

namespace Accounts

variable {s : Accounts} {o : Op} {w : Waiter}

/-- What an operation grants is what its walk grants. -/
theorem outcome_granted (s : Accounts) (o : Op) : (s.outcome o).granted =
    (s.walk o).elim [] fun word => (notifyLocked word s.mutex.waiters).granted := by
  cases o with
  | lock isShared notify =>
      simp only [outcome, lockImpl, walk, Option.elim_some]
      split <;> rfl
  | tryLock => exact (Ordered.try_waiters (.inl rfl) s).2
  | tryLockShared seen => exact (Ordered.try_waiters (.inr ⟨seen, rfl⟩) s).2
  | unlock seen =>
      simp only [outcome, Mutex.unlock, exchange, walk]
      by_cases alone : seen &&& (mfLatch ||| mfmNext) = 0#32
      · by_cases same : s.mutex.latch = seen
        · simp [alone, same]
        · simp only [alone, same, if_true, if_false, and_false, Option.elim_some]
          rfl
      · simp only [alone, if_false, false_and, Option.elim_some]
        rfl
  | unlockShared seen =>
      simp only [outcome, Mutex.unlockShared, exchange, walk]
      by_cases alone : seen &&& (mfLatch ||| mfNextShared) = 0#32 ∧
          (seen &&& mfNextExcl = 0#32 ∨ 2#32 * mfLockShared ≤ seen)
      · by_cases same : s.mutex.latch = seen
        · rw [if_pos alone, if_pos same, if_pos ⟨alone, same⟩]
          rfl
        · rw [if_pos alone, if_neg same, if_neg fun h => same h.2]
          rfl
      · rw [if_neg alone, if_neg fun h => alone h.1]
        rfl
  | listen | unlisten | copyHandle | dropHandle | trigger => rfl

theorem walk_of_granted (granted : w ∈ (s.outcome o).granted) :
    ∃ word ∈ s.walk o, Comes w.event word s.mutex.waiters := by
  rw [outcome_granted] at granted
  cases walked : s.walk o with
  | none =>
      rw [walked] at granted
      exact nomatch granted
  | some word =>
      rw [walked] at granted
      exact ⟨word, rfl, comes_of_granted granted⟩

/-- An operation moves the queue on, or changes the body of one event. -/
theorem shifts_or_touches (s : Accounts) (o : Op) :
    (∃ rest, s.Shifts o rest) ∨ ∃ event f, o.owned = some event ∧ s.outcome o = s.touch event f := by
  cases o with
  | lock isShared notify => exact .inl (shifts_lock s isShared notify)
  | tryLock => exact .inl ⟨_, shifts_try false 0#32⟩
  | tryLockShared seen => exact .inl ⟨_, shifts_try true seen⟩
  | unlock seen => exact .inl (shifts_unlock false seen)
  | unlockShared seen => exact .inl (shifts_unlock true seen)
  | listen | unlisten | copyHandle | dropHandle | trigger => exact .inr ⟨_, _, rfl, rfl⟩

end Accounts

namespace Attempts

variable {s t : Attempts} {l : AttemptOp} {o : Op} {a b : Attempt} {w : Waiter} {i : Nat}
  {f : EventBody → EventBody}

/-- The queue has each event once, with the body that its attempt's stage says, and no
attempt that had given up has been granted its request. -/
structure Sound (s : Attempts) : Prop where
  queue : (s.accounts.mutex.waiters.map Waiter.event).Nodup
  queued : ∀ w ∈ s.accounts.mutex.waiters, w.event < s.accounts.next
  events : (s.attempts.map Attempt.event).Nodup
  known : ∀ a ∈ s.attempts, a.event < s.accounts.next
  bodies : ∀ a ∈ s.attempts, ∀ w ∈ s.accounts.mutex.waiters, w.event = a.event →
    a.granted = false ∧ w.body = a.body
  late : s.late = []

theorem initial_sound : ({} : Attempts).Sound where
  queue := List.nodup_nil
  queued := fun _ h => nomatch h
  events := List.nodup_nil
  known := fun _ h => nomatch h
  bodies := fun _ h => nomatch h
  late := rfl

theorem grant_event (events : List EventId) (a : Attempt) : (a.grant events).event = a.event := by
  unfold Attempt.grant
  split <;> rfl

/-- A destroyed frame leaves the queue's reference only. -/
theorem destroyed_empty (gone : a.stage = .destroyed gaveUp) : a.body.empty = true := by
  simp [Attempt.body, EventBody.empty, gone]

theorem gaveUp_cases {stage : Stage} (gaveUp : stage.gaveUp = true) :
    stage = .missed ∨ ∃ late, stage = .destroyed late := by
  cases stage with
  | missed => exact .inl rfl
  | destroyed late => exact .inr ⟨late, rfl⟩
  | asked | waits | woken | locked => contradiction

/-- What is granted is queued, and its attempt has not given up. -/
theorem Sound.granted (sound : s.Sound) (shifts : s.accounts.Shifts o rest)
    (careful : ∀ word ∈ s.accounts.walk o, ∀ a ∈ s.attempts, a.stage = .missed →
      ¬Comes a.event word s.accounts.mutex.waiters)
    (member : a ∈ s.attempts) (granted : w ∈ (s.accounts.outcome o).granted)
    (same : w.event = a.event) : a.stage.gaveUp = false := by
  obtain ⟨front, split, sub⟩ := shifts.front
  have inside : w ∈ s.accounts.mutex.waiters := by
    rw [split]
    exact List.mem_append_left _ (sub.subset granted)
  have body := (sound.bodies a member w inside same).2
  cases up : a.stage.gaveUp with
  | false => rfl
  | true =>
      rcases gaveUp_cases up with missed | ⟨late, gone⟩
      · obtain ⟨word, walked, comes⟩ := Accounts.walk_of_granted granted
        exact absurd (same ▸ comes) (careful word walked a member missed)
      · have live := shifts.live w granted
        rw [body, destroyed_empty gone] at live
        contradiction

/-- After a walk, every queued request is one that was queued before and was not
granted, or it is the new one. -/
theorem Sound.shifted (sound : s.Sound) (shifts : s.accounts.Shifts o rest)
    (inside : w ∈ (s.accounts.outcome o).mutex.waiters) :
    (w ∈ s.accounts.mutex.waiters ∧ ∀ v ∈ (s.accounts.outcome o).granted, v.event ≠ w.event) ∨
    ∃ isShared notify, o = .lock isShared notify ∧ w = newWaiter isShared s.accounts.next notify := by
  obtain ⟨front, split, sub⟩ := shifts.front
  have old : w ∈ rest → w ∈ s.accounts.mutex.waiters ∧
      ∀ v ∈ (s.accounts.outcome o).granted, v.event ≠ w.event := by
    intro later
    refine ⟨split ▸ List.mem_append_right _ later, fun v granted => ?_⟩
    have nodup := sound.queue
    rw [split, List.map_append] at nodup
    exact List.disjoint_iff_ne.mp (List.disjoint_of_nodup_append nodup) _
      (List.mem_map_of_mem (sub.subset granted)) _ (List.mem_map_of_mem later)
  rcases shifts.back with same | ⟨isShared, notify, asked, _, pushed⟩
  · exact .inl (old (same ▸ inside))
  · rw [pushed] at inside
    rcases List.mem_append.mp inside with later | last
    · exact .inl (old later)
    · exact .inr ⟨isShared, notify, asked, List.mem_singleton.mp last⟩

theorem Sound.shifted_nodup (sound : s.Sound) (shifts : s.accounts.Shifts o rest) :
    ((s.accounts.outcome o).mutex.waiters.map Waiter.event).Nodup := by
  obtain ⟨front, split, _⟩ := shifts.front
  have nodup := sound.queue
  rw [split, List.map_append] at nodup
  rcases shifts.back with same | ⟨isShared, notify, _, _, pushed⟩
  · rw [same]
    exact nodup.of_append_right
  · rw [pushed, List.map_append, List.map_singleton]
    refine List.Nodup.append nodup.of_append_right (List.nodup_singleton _) ?_
    intro e first last
    obtain ⟨w, later, rfl⟩ := List.mem_map.mp first
    have low := sound.queued w (split ▸ List.mem_append_right _ later)
    exact absurd (List.mem_singleton.mp last) (Nat.ne_of_lt low)

/-- One operation on the mutex, for all requests but the one it may add. -/
theorem Sound.shift (sound : s.Sound) (shifts : s.accounts.Shifts o rest)
    (careful : ∀ word ∈ s.accounts.walk o, ∀ a ∈ s.attempts, a.stage = .missed →
      ¬Comes a.event word s.accounts.mutex.waiters)
    (performed : s.perform o = some t) : t.Sound := by
  obtain ⟨accounts, stepped, rfl⟩ := Option.map_eq_some_iff.mp performed
  obtain ⟨_, rfl⟩ := Accounts.step_eq_some.mp stepped
  have events : (s.attempts.map (Attempt.grant ((s.accounts.outcome o).granted.map Waiter.event))).map
      Attempt.event = s.attempts.map Attempt.event := by
    rw [List.map_map]
    exact List.map_congr_left fun a _ => grant_event _ a
  constructor
  · exact sound.shifted_nodup shifts
  · intro w inside
    rcases sound.shifted shifts inside with ⟨old, _⟩ | ⟨isShared, notify, _, rfl⟩
    · exact Nat.lt_succ_of_lt (sound.queued w old)
    · exact Nat.lt_succ_self _
  · dsimp only
    rw [events]
    exact sound.events
  · intro a member
    obtain ⟨b, old, rfl⟩ := List.mem_map.mp member
    rw [grant_event]
    exact Nat.lt_succ_of_lt (sound.known b old)
  · intro a member w inside same
    obtain ⟨b, old, rfl⟩ := List.mem_map.mp member
    rw [grant_event] at same
    rcases sound.shifted shifts inside with ⟨queued, spared⟩ | ⟨isShared, notify, _, rfl⟩
    · have free : b.event ∉ (s.accounts.outcome o).granted.map Waiter.event := by
        intro granted
        obtain ⟨v, granted, here⟩ := List.mem_map.mp granted
        exact spared v granted (here.trans same.symm)
      rw [Attempt.grant, if_neg free]
      exact sound.bodies b old w queued same
    · exact absurd same (Nat.ne_of_gt (sound.known b old))
  · dsimp only
    rw [sound.late, List.nil_append, List.filter_eq_nil_iff]
    intro e granted found
    obtain ⟨w, taken, rfl⟩ := List.mem_map.mp granted
    obtain ⟨a, member, here⟩ := List.any_eq_true.mp found
    obtain ⟨same, up⟩ := Bool.and_eq_true_iff.mp here
    rw [sound.granted shifts careful member taken (beq_iff_eq.mp same).symm] at up
    contradiction

/-- A change of the body of a request of others. -/
theorem Sound.touch (sound : s.Sound) (apart : ∀ a ∈ s.attempts, event ≠ a.event)
    (same : s.accounts.outcome o = s.accounts.touch event f) (performed : s.perform o = some t) :
    t.Sound := by
  obtain ⟨accounts, stepped, rfl⟩ := Option.map_eq_some_iff.mp performed
  obtain ⟨_, rfl⟩ := Accounts.step_eq_some.mp stepped
  have idle : Attempt.grant [] = id := by
    funext a
    exact if_neg List.not_mem_nil
  simp only [same, Accounts.touch, Accounts.settle, List.map_nil, idle, List.map_id, List.filter_nil,
    List.append_nil]
  refine ⟨(updateWaiter_events event f s.accounts.mutex) ▸ sound.queue, ?_, sound.events,
    fun a member => Nat.lt_succ_of_lt (sound.known a member), ?_, sound.late⟩
  · intro w inside
    obtain ⟨v, old, rfl⟩ := mem_updateWaiter inside
    have low := Nat.lt_succ_of_lt (sound.queued v old)
    split <;> exact low
  · intro a member w inside here
    obtain ⟨v, old, rfl⟩ := mem_updateWaiter inside
    split at here
    · exact absurd (‹v.event = event›.symm.trans here) (apart a member)
    · rw [if_neg ‹_›]
      exact sound.bodies a member v old here

/-- `m.lock()`, and the attempt that is made of it. -/
theorem Sound.ask (sound : s.Sound) (careful : Careful s (.request isShared))
    (performed : s.perform (.lock isShared none) = some t) :
    Sound { t with attempts := t.attempts ++ [{ event := s.accounts.next, isShared }] } := by
  obtain ⟨rest, shifts⟩ := Accounts.shifts_lock s.accounts isShared none
  have later := sound.shift shifts (careful _ rfl) performed
  obtain ⟨accounts, stepped, rfl⟩ := Option.map_eq_some_iff.mp performed
  obtain ⟨_, rfl⟩ := Accounts.step_eq_some.mp stepped
  refine ⟨later.queue, later.queued, ?_, ?_, ?_, later.late⟩
  · rw [List.map_append, List.map_map]
    have events := List.map_congr_left fun a (_ : a ∈ s.attempts) =>
      grant_event ((s.accounts.outcome (.lock isShared none)).granted.map Waiter.event) a
    simp only [Function.comp_def, events, List.map_singleton]
    refine List.Nodup.append sound.events (List.nodup_singleton _) ?_
    intro e first last
    obtain ⟨a, member, rfl⟩ := List.mem_map.mp first
    exact absurd (List.mem_singleton.mp last) (Nat.ne_of_lt (sound.known a member))
  · intro a member
    rcases List.mem_append.mp member with old | new
    · exact later.known a old
    · rw [List.mem_singleton.mp new]
      exact Nat.lt_succ_self _
  · intro a member w inside same
    rcases List.mem_append.mp member with old | new
    · exact later.bodies a old w inside same
    · obtain rfl := List.mem_singleton.mp new
      rcases sound.shifted shifts inside with ⟨queued, _⟩ | ⟨_, _, made, rfl⟩
      · exact absurd same (Nat.ne_of_lt (sound.queued w queued))
      · cases made
        exact ⟨rfl, by simp [newWaiter, Attempt.body]⟩

/-- An attempt goes on, and the body of its event is what its new stage says. -/
theorem Sound.move (sound : s.Sound) (found : s.attempts[i]? = some a) (event : b.event = a.event)
    (granted : a.granted = false → b.granted = false) (body : f a.body = b.body) :
    (s.move i b f).Sound := by
  obtain ⟨inside, rfl⟩ := List.getElem?_eq_some_iff.mp found
  have member : s.attempts[i] ∈ s.attempts := List.getElem_mem inside
  have events : (s.attempts.set i b).map Attempt.event = s.attempts.map Attempt.event := by
    apply List.ext_getElem (by simp)
    intro j _ _
    by_cases here : i = j
    · subst here
      simp [event]
    · simp [here]
  have nodup : ((s.attempts.set i b).map Attempt.event).Nodup := events ▸ sound.events
  have other : ∀ c ∈ s.attempts.set i b, c.event ≠ b.event → c ∈ s.attempts := by
    intro c moved apart
    rcases List.mem_or_eq_of_mem_set moved with old | rfl
    · exact old
    · exact absurd rfl apart
  refine ⟨?_, ?_, nodup, ?_, ?_, sound.late⟩
  · have queue : (updateWaiter b.event f s.accounts.mutex).waiters.map Waiter.event =
        s.accounts.mutex.waiters.map Waiter.event := updateWaiter_events b.event f _
    exact queue ▸ sound.queue
  · intro w queued
    obtain ⟨v, old, rfl⟩ := mem_updateWaiter queued
    have low := sound.queued v old
    split <;> exact low
  · intro c moved
    have known : c.event ∈ s.attempts.map Attempt.event := events ▸ List.mem_map_of_mem moved
    obtain ⟨d, old, same⟩ := List.mem_map.mp known
    exact same ▸ sound.known d old
  · intro c moved w queued same
    obtain ⟨v, old, rfl⟩ := mem_updateWaiter queued
    by_cases mine : c.event = b.event
    · obtain rfl : c = b := List.inj_on_of_nodup_map nodup moved (List.mem_set inside b) mine
      have here : v.event = c.event := by
        split at same <;> exact same
      rw [if_pos here]
      obtain ⟨free, before⟩ := sound.bodies _ member v old (here.trans event)
      exact ⟨granted free, (congrArg f before).trans body⟩
    · have here : v.event = c.event := by
        split at same <;> exact same
      rw [if_neg fun h => mine (here.symm.trans h)]
      exact sound.bodies c (other c moved mine) v old here

/-- One step. -/
theorem step_sound (sound : s.Sound) (careful : Careful s l) (moved : s.step l = some t) : t.Sound := by
  cases l with
  | op o =>
      obtain ⟨apart, performed⟩ := Option.ite_none_right_eq_some.mp moved
      rcases Accounts.shifts_or_touches s.accounts o with ⟨rest, shifts⟩ | ⟨event, f, owned, same⟩
      · exact sound.shift shifts (careful o rfl) performed
      · refine sound.touch (fun a member here => ?_) same performed
        exact apart a member (owned.trans (congrArg some here))
  | request isShared =>
      simp only [step] at moved
      obtain ⟨u, performed, rfl⟩ := Option.map_eq_some_iff.mp moved
      split
      · obtain ⟨rest, shifts⟩ := Accounts.shifts_lock s.accounts isShared none
        exact sound.shift shifts (careful _ rfl) performed
      · exact sound.ask careful performed
  | start i quorum =>
      obtain ⟨a, found, moved⟩ := Option.bind_eq_some_iff.mp moved
      obtain ⟨asked, moved⟩ := Option.ite_none_left_eq_some.mp moved
      have asked : a.stage = .asked := not_not.mp asked
      split at moved <;> cases Option.some.inj moved
      · exact sound.move found rfl id (by simp [Attempt.body, asked])
      · exact sound.move found rfl id (by simp [Attempt.body, addMember, asked])
  | timeout i =>
      obtain ⟨a, found, moved⟩ := Option.bind_eq_some_iff.mp moved
      obtain ⟨waits, moved⟩ := Option.ite_none_right_eq_some.mp moved
      cases Option.some.inj moved
      exact sound.move found rfl id (by simp [Attempt.body, removeMember, waits, Guarded.swapErase_singleton])
  | resume i =>
      obtain ⟨a, found, moved⟩ := Option.bind_eq_some_iff.mp moved
      obtain ⟨woken, moved⟩ := Option.ite_none_right_eq_some.mp moved
      cases Option.some.inj moved
      refine sound.move found rfl id ?_
      cases held : a.granted <;> simp [Attempt.body, woken]
  | destroy i =>
      obtain ⟨a, found, moved⟩ := Option.bind_eq_some_iff.mp moved
      cases stage : a.stage with
      | destroyed late =>
          rw [stage] at moved
          exact nomatch moved
      | waits =>
          rw [stage] at moved
          cases Option.some.inj moved
          exact sound.move found rfl id
            (by simp [Attempt.body, removeMember, dropHandle, stage, Guarded.swapErase_singleton])
      | asked | woken | locked | missed =>
          rw [stage] at moved
          cases Option.some.inj moved
          exact sound.move found rfl id (by simp [Attempt.body, dropHandle, stage])

/-- A walk that comes to the request of a finished attempt grants it. -/
theorem Sound.late_of_comes {word : Latch} (sound : s.Sound) (walked : s.accounts.walk o = some word)
    (member : a ∈ s.attempts) (missed : a.stage = .missed)
    (comes : Comes a.event word s.accounts.mutex.waiters) (performed : s.perform o = some t) :
    t.late ≠ [] := by
  obtain ⟨accounts, stepped, rfl⟩ := Option.map_eq_some_iff.mp performed
  obtain ⟨w, granted, here⟩ := granted_of_comes comes fun w inside same => by
    rw [(sound.bodies a member w inside same).2]
    simp [Attempt.body, missed]
  have taken : w ∈ (s.accounts.outcome o).granted := by
    rw [Accounts.outcome_granted, walked]
    exact granted
  apply List.ne_nil_of_mem (a := a.event)
  refine List.mem_append_right _ (List.mem_filter.mpr ⟨?_, ?_⟩)
  · exact here ▸ List.mem_map_of_mem taken
  · refine List.any_eq_true.mpr ⟨a, member, ?_⟩
    simp [missed, Stage.gaveUp]

theorem careful_of_late (sound : s.Sound) (moved : s.step l = some t) (none : t.late = []) :
    Careful s l := by
  intro o mutex word walked a member missed comes
  cases l with
  | op o' =>
      cases mutex
      exact sound.late_of_comes walked member missed comes
        (Option.ite_none_right_eq_some.mp moved).2 none
  | request isShared =>
      cases mutex
      simp only [step] at moved
      obtain ⟨u, performed, rfl⟩ := Option.map_eq_some_iff.mp moved
      refine sound.late_of_comes walked member missed comes performed ?_
      split at none <;> exact none
  | start | timeout | resume | destroy => exact nomatch mutex

/-- No request is granted after its attempt has returned nullopt, if and only if no walk
ever comes to the request of a finished attempt whose task is still there. -/
theorem timed_out_never_granted (path : Reaches step {} ls s) :
    Always step (fun s => s.late = []) {} ls ↔ Meets step Careful {} ls := by
  refine always_iff_meets (Q := Sound) (fun sound _ careful moved => step_sound sound careful moved) ?_
    path initial_sound rfl
  intro s l t sound _ moved
  exact ⟨careful_of_late sound moved, fun careful => (step_sound sound careful moved).late⟩

/-- The task of a finished attempt is kept: the unlock grants its request. -/
theorem timed_out_never_granted_kept : ¬Meets step Careful {} [.op (.lock false none), .request true,
    .start 0 9, .timeout 0, .resume 0, .op (.unlock 0#32)] := by
  intro careful
  obtain ⟨s, ran⟩ := Option.isSome_iff_exists.mp (by decide : (run step {} [.op (.lock false none),
    .request true, .start 0 9, .timeout 0, .resume 0, .op (.unlock 0#32)]).isSome = true)
  have never := (timed_out_never_granted (run_iff_reaches.mp ran)).mpr careful
  revert never
  decide

end Attempts
end Cotamer.Mutex

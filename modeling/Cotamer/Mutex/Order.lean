import Cotamer.Mutex.Blocked
import Mathlib.Data.List.Sort

/-! The order of grants. Requests are numbered by the events they would wait on;
the requests made, and those granted, are recorded in the order in which
`lock_impl` and `notify_locked` see them. -/
namespace Cotamer.Mutex
open Event Transition

/-- A waiter that somebody still waits for. -/
def Waiter.live (w : Waiter) : Bool := !w.body.triggered && w.body.awaited

/-- A mutex with the requests made so far and the requests granted so far. -/
structure Ordered where
  accounts : Accounts := {}
  asked : List EventId := []
  granted : List EventId := []
  deriving DecidableEq, Repr

def Op.isLock : Op → Bool
  | .lock _ _ => true
  | _ => false

namespace Ordered

/-- The request an operation makes. -/
def request (s : Ordered) (op : Op) : List EventId := if op.isLock then [s.accounts.next] else []

def step (s : Ordered) (op : Op) : Option Ordered :=
  (s.accounts.step op).map fun accounts =>
    let r := s.accounts.outcome op
    { accounts
      asked := s.asked ++ s.request op
      granted := s.granted ++ r.granted.map Waiter.event ++ if r.now then s.request op else [] }

variable {s t : Ordered} {op : Op} {ops : List Op}

def queue (s : Ordered) : List EventId := s.accounts.mutex.waiters.map Waiter.event

/-- Requests are granted, and queued, in the order in which they were made. -/
structure InOrder (s : Ordered) : Prop where
  balanced : s.accounts.Balanced
  sorted : s.asked.Pairwise (· < ·)
  fresh : ∀ A ∈ s.asked, A < s.accounts.next
  served : (s.granted ++ s.queue).Sublist s.asked

/-- What an operation does to the queue: it takes a front part off, grants some
of it, and appends a request that has to wait. -/
structure Serves (s : Ordered) (op : Op) (r : Result) : Prop where
  front : ∃ front, s.accounts.mutex.waiters.map Waiter.event ++ (if r.now then [] else s.request op) =
      front ++ r.mutex.waiters.map Waiter.event ∧ (r.granted.map Waiter.event).Sublist front
  now : r.now = true → r.mutex.waiters = []
  waits : r.now = false → ∀ A ∈ s.request op, A ∈ r.mutex.waiters.map Waiter.event
  live : ∀ w ∈ s.accounts.mutex.waiters, w.live = true →
    w ∈ r.granted ∨ w.event ∈ r.mutex.waiters.map Waiter.event

theorem live_nonempty {w : Waiter} (live : w.live = true) : w.body.empty = false := by
  simp only [Waiter.live, Bool.and_eq_true, Bool.not_eq_true', EventBody.awaited] at live
  simp only [EventBody.empty, live.1, Bool.false_or]
  obtain ⟨_, awaited⟩ := live
  cases idle : w.body.listeners.isEmpty with
  | false => rfl
  | true =>
      rw [idle] at awaited
      have several : 1 < w.body.refcount := by simpa using awaited
      have other : w.body.refcount ≠ 1 := by omega
      simp [other]

theorem notifyLocked_live (l : Latch) (waiters : List Waiter) {w : Waiter} (member : w ∈ waiters)
    (live : w.live = true) :
    w ∈ (notifyLocked l waiters).granted ∨ w ∈ (notifyLocked l waiters).waiters := by
  induction waiters generalizing l with
  | nil => exact nomatch member
  | cons fw rest ih =>
      rcases List.mem_cons.mp member with rfl | later
      · rw [notifyLocked, if_neg (by rw [live_nonempty live]; exact Bool.false_ne_true)]
        split
        · exact .inr List.mem_cons_self
        · rw [Waiter.live] at live
          rw [if_pos live]
          exact .inl List.mem_cons_self
      · rcases notifyLocked_cons l fw rest with skipped | ⟨_, stopped⟩ | ⟨_, _, taken⟩
        · rw [skipped]
          exact ih l later
        · rw [stopped]
          exact .inr member
        · rw [taken]
          exact (ih (l + lockUnit fw.shared) later).imp (List.mem_cons_of_mem _) id

/-- An operation that takes nobody off the queue. -/
theorem serves_kept {r : Result} (events : r.mutex.waiters.map Waiter.event = s.queue)
    (same : r.granted = []) (silent : s.request op = []) (now : r.now = true → s.queue = []) :
    Serves s op r := by
  constructor
  · refine ⟨[], ?_, by simp [same]⟩
    rw [events, silent]
    simp [queue]
  · intro took
    rw [now took] at events
    exact List.map_eq_nil_iff.mp events
  · rw [silent]
    exact fun _ A asks => nomatch asks
  · intro w member _
    rw [events]
    exact .inr (List.mem_map_of_mem member)

theorem serves_notify {r : Result} (l : Latch)
    (waiters : r.mutex.waiters = (notifyLocked l s.accounts.mutex.waiters).waiters)
    (granted : r.granted = (notifyLocked l s.accounts.mutex.waiters).granted)
    (later : r.now = true → r.mutex.waiters = []) (silent : r.now = true ∨ s.request op = []) :
    Serves s op r := by
  obtain ⟨front, split, sub, _⟩ := notifyLocked_front l s.accounts.mutex.waiters
  constructor
  · refine ⟨front.map Waiter.event, ?_, ?_⟩
    · have none : (if r.now = true then [] else s.request op) = [] := by
        rcases silent with took | none
        · rw [took, if_pos rfl]
        · rw [none, ite_self]
      rw [none, List.append_nil, waiters]
      conv_lhs => rw [split]
      rw [List.map_append]
    · rw [granted]
      exact sub.map _
  · exact later
  · intro waits A asks
    rcases silent with took | none
    · rw [waits] at took
      contradiction
    · rw [none] at asks
      exact nomatch asks
  · intro w member live
    rw [granted, waiters]
    exact (notifyLocked_live l _ member live).imp id List.mem_map_of_mem

theorem serves_lock (s : Ordered) (isShared : Bool) (notify : Option Nat) :
    Serves s (.lock isShared notify) (s.accounts.outcome (.lock isShared notify)) := by
  simp only [Accounts.outcome, lockImpl]
  split
  · rename_i grant
    have drained := List.isEmpty_iff.mp (Bool.and_eq_true_iff.mp grant).1
    apply serves_notify (latched s.accounts.mutex)
    · exact unlatch_waiters _ _
    · rfl
    · exact fun _ => (unlatch_waiters _ _).trans drained
    · exact .inl rfl
  · obtain ⟨front, split, sub, _⟩ :=
      notifyLocked_front (latched s.accounts.mutex) s.accounts.mutex.waiters
    constructor
    · refine ⟨front.map Waiter.event, ?_, sub.map _⟩
      rw [unlatch_waiters, List.map_append, ← List.append_assoc, ← List.map_append, ← split]
      rfl
    · rintro ⟨⟩
    · intro _ A asks
      rw [unlatch_waiters, List.map_append, List.mem_append]
      exact .inr asks
    · intro w member live
      rw [unlatch_waiters, List.map_append, List.mem_append]
      rcases notifyLocked_live (latched s.accounts.mutex) _ member live with given | kept
      · exact .inl given
      · exact .inr (.inl (List.mem_map_of_mem kept))

theorem serves_touch (same : s.accounts.outcome op = s.accounts.touch event f)
    (silent : op.isLock = false) : Serves s op (s.accounts.outcome op) := by
  apply serves_kept
  · rw [same]
    simp only [Accounts.touch, updateWaiter, List.map_map, queue]
    apply List.map_congr_left
    intro w _
    simp only [Function.comp_apply]
    split <;> rfl
  · rw [same]
    rfl
  · simp [request, silent]
  · rw [same]
    rintro ⟨⟩

/-- Paths that leave the queue alone, and those that notify it. -/
theorem serves_release {isShared : Bool} (paths : s.accounts.outcome op = unlockImpl isShared s.accounts.mutex ∨
    s.accounts.Lockless (s.accounts.outcome op)) (silent : op.isLock = false) :
    Serves s op (s.accounts.outcome op) := by
  have none : s.request op = [] := by simp [request, silent]
  rcases paths with slow | ⟨same, idle, waiters⟩
  · rw [slow]
    apply serves_notify (latched s.accounts.mutex - lockUnit isShared)
    · exact unlatch_waiters _ _
    · rfl
    · exact fun took => nomatch took
    · exact .inr none
  · apply serves_kept
    · rw [waiters]
      rfl
    · exact same
    · exact none
    · rw [idle]
      exact fun took => nomatch took

theorem try_waiters (tries : op = .tryLock ∨ ∃ seen, op = .tryLockShared seen) (s : Accounts) :
    (s.outcome op).mutex.waiters = s.mutex.waiters ∧ (s.outcome op).granted = [] := by
  rcases tries with rfl | ⟨seen, rfl⟩
  · simp only [Accounts.outcome, Mutex.tryLock]
    split
    · exact ⟨Accounts.exchange_waiters ‹_›, rfl⟩
    · exact ⟨rfl, rfl⟩
  · simp only [Accounts.outcome, Mutex.tryLockShared]
    split
    · exact ⟨rfl, rfl⟩
    · split
      · exact ⟨Accounts.exchange_waiters ‹_›, rfl⟩
      · exact ⟨rfl, rfl⟩

theorem try_nobody {s : Accounts} (balanced : s.Balanced)
    (tries : op = .tryLock ∨ ∃ seen, op = .tryLockShared seen)
    (took : (s.outcome op).now = true) : s.mutex.waiters = [] := by
  rcases tries with rfl | ⟨seen, rfl⟩
  · exact Accounts.tryLock_nobody balanced took
  · exact Accounts.tryLockShared_nobody balanced took

theorem serves_try (balanced : s.accounts.Balanced)
    (tries : op = .tryLock ∨ ∃ seen, op = .tryLockShared seen) :
    Serves s op (s.accounts.outcome op) := by
  obtain ⟨waiters, same⟩ := try_waiters tries s.accounts
  apply serves_kept
  · rw [waiters]
    rfl
  · exact same
  · rcases tries with rfl | ⟨_, rfl⟩ <;> rfl
  · intro took
    rw [queue, try_nobody balanced tries took, List.map_nil]

theorem serves (balanced : s.accounts.Balanced) (op : Op) : Serves s op (s.accounts.outcome op) := by
  cases op with
  | lock isShared notify => exact serves_lock s isShared notify
  | tryLock => exact serves_try balanced (.inl rfl)
  | tryLockShared seen => exact serves_try balanced (.inr ⟨seen, rfl⟩)
  | unlock seen => exact serves_release (Accounts.unlock_paths s.accounts seen) rfl
  | unlockShared seen => exact serves_release (Accounts.unlockShared_paths s.accounts seen) rfl
  | listen event l => exact serves_touch rfl rfl
  | unlisten event l => exact serves_touch rfl rfl
  | copyHandle event => exact serves_touch rfl rfl
  | dropHandle event => exact serves_touch rfl rfl
  | trigger event => exact serves_touch rfl rfl

theorem step_accounts (moved : s.step op = some t) :
    s.accounts.step op = some t.accounts ∧ t.asked = s.asked ++ s.request op ∧
      t.granted = s.granted ++ (s.accounts.outcome op).granted.map Waiter.event ++
        (if (s.accounts.outcome op).now then s.request op else []) ∧
      t.queue = (s.accounts.outcome op).mutex.waiters.map Waiter.event ∧
      t.accounts.next = s.accounts.next + 1 := by
  obtain ⟨accounts, stepped, rfl⟩ := Option.map_eq_some_iff.mp moved
  obtain ⟨_, rfl⟩ := Accounts.step_eq_some.mp stepped
  exact ⟨stepped, rfl, rfl, rfl, rfl⟩

theorem request_fresh (A : EventId) (asks : A ∈ s.request op) : A = s.accounts.next := by
  unfold request at asks
  split at asks
  · exact List.mem_singleton.mp asks
  · exact nomatch asks

theorem InOrder.step (order : s.InOrder) (moved : s.step op = some t) : t.InOrder := by
  obtain ⟨stepped, asked, granted, queue, next⟩ := step_accounts moved
  have serves := serves order.balanced op
  constructor
  · exact Accounts.step_balanced order.balanced stepped
  · rw [asked, List.pairwise_append]
    refine ⟨order.sorted, ?_, fun A old B new => ?_⟩
    · unfold request
      split <;> simp
    · rw [request_fresh B new]
      exact order.fresh A old
  · intro A member
    rw [asked, List.mem_append] at member
    rw [next]
    rcases member with old | new
    · exact Nat.lt_succ_of_lt (order.fresh A old)
    · rw [request_fresh A new]
      exact Nat.lt_succ_self _
  · obtain ⟨front, split, sub⟩ := serves.front
    have kept := order.served.append (List.Sublist.refl (s.request op))
    rw [granted, asked, queue]
    cases took : (s.accounts.outcome op).now with
    | true =>
        rw [serves.now took, List.map_nil, took, if_pos rfl, List.append_nil, List.append_nil] at split
        rw [serves.now took, List.map_nil, List.append_nil, if_pos rfl]
        apply List.Sublist.trans _ kept
        rw [Ordered.queue, split]
        exact ((List.Sublist.refl _).append sub).append (List.Sublist.refl _)
    | false =>
        rw [took, if_neg Bool.false_ne_true] at split
        rw [if_neg Bool.false_ne_true, List.append_nil]
        have shape : s.granted ++ s.queue ++ s.request op =
            s.granted ++ front ++ (s.accounts.outcome op).mutex.waiters.map Waiter.event := by
          rw [List.append_assoc, Ordered.queue, split, List.append_assoc]
        apply List.Sublist.trans _ kept
        rw [shape]
        exact ((List.Sublist.refl _).append sub).append (List.Sublist.refl _)

/-- Request `A` is not cancelled while it is queued. -/
def Uncancelled (A : EventId) (s : Ordered) : Prop :=
  ∀ w ∈ s.accounts.mutex.waiters, w.event = A → w.live = true

instance : DecidablePred (Uncancelled A) := fun s =>
  inferInstanceAs (Decidable (∀ w ∈ s.accounts.mutex.waiters, w.event = A → w.live = true))

/-- A request that is not cancelled is granted or still queued. -/
def Pends (A : EventId) (s : Ordered) : Prop := A ∈ s.asked → A ∈ s.granted ∨ A ∈ s.queue

theorem Pends.step (pends : Pends A s) (order : s.InOrder) (live : Uncancelled A s)
    (moved : s.step op = some t) : Pends A t := by
  obtain ⟨_, asked, granted, queue, _⟩ := step_accounts moved
  have serves := serves order.balanced op
  intro asks
  rw [asked, List.mem_append] at asks
  rw [granted, queue, List.mem_append, List.mem_append]
  rcases asks with old | new
  · rcases pends old with done | waits
    · exact .inl (.inl (.inl done))
    · obtain ⟨w, member, rfl⟩ := List.mem_map.mp waits
      rcases serves.live w member (live w member rfl) with given | kept
      · exact .inl (.inl (.inr (List.mem_map_of_mem given)))
      · exact .inr kept
  · cases took : (s.accounts.outcome op).now with
    | true => exact .inl (.inr new)
    | false => exact .inr (serves.waits took A new)

theorem initial_order : InOrder {} where
  balanced := rfl
  sorted := List.Pairwise.nil
  fresh _ member := nomatch member
  served := List.Sublist.refl _

theorem reached_order (path : Reaches step {} ops s) : s.InOrder :=
  path.invariant (fun order moved => order.step moved) initial_order

theorem reached_pends (path : Reaches step {} ops s)
    (live : Always step (Uncancelled A) {} ops) : Pends A s := by
  have both := path.within (Q := fun s => s.InOrder ∧ Pends A s)
    (fun both live _ moved => ⟨both.1.step moved, both.2.step both.1 live moved⟩) live
    ⟨initial_order, fun asks => nomatch asks⟩
  exact both.2

/-- Of two requests the one made first is granted first, unless it is cancelled
while it is queued; and no try operation succeeds past a queued request. -/
theorem lock_requests_fifo (path : Reaches step {} ops s) :
    (∀ A B, [A, B].Sublist s.asked → Always step (Uncancelled A) {} ops → B ∈ s.granted →
      [A, B].Sublist s.granted) ∧
    ∀ op, (op = .tryLock ∨ ∃ seen, op = .tryLockShared seen) → (s.accounts.outcome op).now = true →
      s.accounts.mutex.waiters = [] := by
  have order := reached_order path
  constructor
  · intro A B asks live given
    have first : A < B := List.pairwise_iff_forall_sublist.mp order.sorted asks
    have member : A ∈ s.asked := asks.subset List.mem_cons_self
    rcases reached_pends path live member with done | waits
    · have sorted := order.sorted.sublist ((List.sublist_append_left _ _).trans order.served)
      apply List.sublist_of_subperm_of_pairwise _ (by simpa using first) sorted
      apply List.subperm_of_subset
      · simpa using Nat.ne_of_lt first
      · simp [done, given]
    · have both : [B, A].Sublist s.asked := by
        have parts := (List.singleton_sublist.mpr given).append (List.singleton_sublist.mpr waits)
        exact parts.trans order.served
      have second : B < A := List.pairwise_iff_forall_sublist.mp order.sorted both
      exact absurd first (Nat.lt_asymm second)
  · exact fun op tries took => try_nobody order.balanced tries took

/-- Requests 1 and 3 queue behind a shared lock, request 2 is cancelled, and the
last unlock grants the other two. -/
theorem lock_requests_fifo_cancelled :
    let ops : List Op := [.lock false none, .lock true none, .lock false none, .lock true none,
      .dropHandle 2, .unlock 12#32]
    ∃ s, Reaches step {} ops s ∧ 3 ∈ s.granted ∧ [1, 3].Sublist s.granted := by
  intro ops
  have path : Reaches step {} ops _ := run_iff_reaches.mp rfl
  have live : Always step (Uncancelled 1) {} ops := by decide
  exact ⟨_, path, by decide, (lock_requests_fifo path).1 1 3 (by decide) live (by decide)⟩

end Ordered
end Cotamer.Mutex

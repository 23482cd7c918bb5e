import Cotamer.Mutex.Accounting
import Mathlib.Data.List.Nodup

/-! Coroutines that take a mutex only through lock guards, and that may be
destroyed wherever they are suspended. A guard exists once `co_await` on the
lock request has returned; until then a grant belongs to the pending request. -/
namespace Cotamer.Mutex
open Event SwapVector Transition

/-- A coroutine inside `guard(co_await m.lock())`, or `lock_shared`. -/
structure Pending where
  owner : CoroutineId
  event : EventId
  isShared : Bool
  suspended : Bool := false     -- it listens on the event
  triggered : Bool := false     -- the mutex has granted the lock
  deriving DecidableEq, Repr

/-- The mutex with the guards and the requests of all coroutines. `orphans` are
grants whose coroutine was destroyed before it built its guard. -/
structure Guarded where
  accounts : Accounts := {}
  guards : List (CoroutineId × Bool) := []
  pendings : List Pending := []
  ended : List CoroutineId := []
  orphans : List Bool := []
  deriving DecidableEq, Repr

inductive GuardOp where
  | request (c : CoroutineId) (isShared : Bool)
  | suspend (c : CoroutineId)
  | resume (c : CoroutineId)
  | release (c : CoroutineId) (isShared : Bool) (seen : Latch)
  | finish (c : CoroutineId)
  | destroy (c : CoroutineId)
  deriving DecidableEq, Repr

namespace Guarded

def pending? (s : Guarded) (c : CoroutineId) : Option Pending := s.pendings.find? (·.owner == c)

def mark (event : EventId) (pendings : List Pending) : List Pending :=
  pendings.map fun p => if p.event = event then { p with triggered := true } else p

def markAll (granted : List Waiter) (pendings : List Pending) : List Pending :=
  granted.foldl (fun ps w => mark w.event ps) pendings

/-- Run one operation on the mutex and trigger the requests it grants. -/
def perform (s : Guarded) (op : Op) : Option Guarded :=
  (s.accounts.step op).map fun accounts =>
    { s with accounts, pendings := markAll (s.accounts.outcome op).granted s.pendings }

/-- `await_resume` has returned and the guard is built. -/
def build (s : Guarded) (p : Pending) : Guarded :=
  { s with pendings := s.pendings.erase p, guards := (p.owner, p.isShared) :: s.guards }

def unlockOp (isShared : Bool) (seen : Latch) : Op :=
  if isShared then .unlockShared seen else .unlock seen

/-- The pending request of a destroyed coroutine: its awaiter stops listening
and drops the event. -/
def abandon (s : Guarded) (p : Pending) : Option Guarded :=
  ((s.perform (.unlisten p.event (.coroutine p.owner))).bind (·.perform (.dropHandle p.event))).map
    fun s => { s with
      pendings := s.pendings.erase p
      orphans := if p.triggered then p.isShared :: s.orphans else s.orphans }

def step (s : Guarded) : GuardOp → Option Guarded
  | .request c isShared =>
    if c ∈ s.ended ∨ (s.pending? c).isSome then none
    else (s.perform (.lock isShared none)).map fun t =>
      if (s.accounts.outcome (.lock isShared none)).now then
        { t with guards := (c, isShared) :: t.guards }
      else { t with pendings := ⟨c, s.accounts.next, isShared, false, false⟩ :: t.pendings }
  | .suspend c =>
    match s.pending? c with
    | none => none
    | some p =>
      if p.suspended then none
      else if p.triggered then some (s.build p)
      else (s.perform (.listen p.event (.coroutine c))).map fun t =>
        { t with pendings := { p with suspended := true } :: t.pendings.erase p }
  | .resume c =>
    match s.pending? c with
    | none => none
    | some p => if p.suspended && p.triggered then some (s.build p) else none
  | .release c isShared seen =>
    if (c, isShared) ∈ s.guards then
      (s.perform (unlockOp isShared seen)).map fun t =>
        { t with guards := t.guards.erase (c, isShared) }
    else none
  | .finish c =>
    if c ∈ s.ended ∨ (s.pending? c).isSome then none else some { s with ended := c :: s.ended }
  | .destroy c =>
    if c ∈ s.ended then none
    else match s.pending? c with
      | none => some { s with ended := c :: s.ended }
      | some p => if p.suspended then (s.abandon p).map fun t => { t with ended := c :: t.ended } else none

end Guarded

/-- No count is left in the latch word, and the next request does not wait. -/
def Free (m : Mutex) : Prop :=
  m.latch.toNat < 8 ∧ ∀ isShared event notify, (lockImpl isShared event notify m).now = true

namespace Guarded

/-- No coroutine waits or owns a guard; so it is when all have ended and their
locals are gone. -/
def Quiet (s : Guarded) : Prop := s.pendings = [] ∧ s.guards = []

/-- The step does not destroy a coroutine that was granted the lock and has not
resumed. -/
def Spares (s : Guarded) : GuardOp → Prop
  | .destroy c => ∀ p ∈ s.pending? c, p.triggered = false
  | _ => True

instance : ∀ s op, Decidable (Spares s op)
  | s, .destroy c => by unfold Spares; infer_instance
  | _, .request .. => isTrue trivial
  | _, .suspend _ => isTrue trivial
  | _, .resume _ => isTrue trivial
  | _, .release .. => isTrue trivial
  | _, .finish _ => isTrue trivial

/-! Requests and the queue. -/

/-- The event of a request that waits in the queue. -/
def body (p : Pending) : EventBody :=
  { refcount := 2
    userFlags := if p.isShared then 1 else 0
    listeners := if p.suspended then [.coroutine p.owner] else [] }

def Waiting (ps : List Pending) (w : Waiter) : Prop :=
  ∃ p ∈ ps, p.event = w.event ∧ p.triggered = false ∧ w.body = body p

def Cancelled (ps : List Pending) (w : Waiter) : Prop :=
  w.body.empty = true ∧ ∀ p ∈ ps, p.event ≠ w.event

/-- Requests and queue entries have events of their own, and every entry is a
live request or an empty event. -/
structure Queued (next : EventId) (ps : List Pending) (ws : List Waiter) : Prop where
  events : (ps.map Pending.event).Nodup
  fresh : ∀ p ∈ ps, p.event < next
  entries : (ws.map Waiter.event).Nodup
  entriesFresh : ∀ w ∈ ws, w.event < next
  served : ∀ w ∈ ws, Waiting ps w ∨ Cancelled ps w

theorem Waiting.shared (waiting : Waiting ps w) :
    ∃ p ∈ ps, p.event = w.event ∧ p.triggered = false ∧ p.isShared = w.shared := by
  obtain ⟨p, member, event, untriggered, body_eq⟩ := waiting
  refine ⟨p, member, event, untriggered, ?_⟩
  rw [Waiter.shared, body_eq, body]
  cases p.isShared <;> rfl

theorem same_pending {ps : List Pending} (nodup : (ps.map Pending.event).Nodup) (left : p ∈ ps)
    (right : q ∈ ps) (same : p.event = q.event) : p = q :=
  (List.inj_on_of_nodup_map nodup) left right same

theorem mem_erase {ps : List Pending} (nodup : (ps.map Pending.event).Nodup) :
    q ∈ ps.erase p ↔ q ≠ p ∧ q ∈ ps :=
  List.Nodup.mem_erase_iff (List.Nodup.of_map _ nodup)

/-! Granting requests. -/

def triggeredCount (ps : List Pending) (isShared : Bool) : Nat :=
  ps.countP fun p => p.triggered && p.isShared == isShared

theorem mark_events (event : EventId) (ps : List Pending) :
    (mark event ps).map Pending.event = ps.map Pending.event := by
  simp only [mark, List.map_map]
  refine List.map_congr_left fun p _ => ?_
  simp only [Function.comp]
  split <;> rfl

theorem mem_mark_of_ne (member : p ∈ ps) (ne : p.event ≠ event) : p ∈ mark event ps :=
  List.mem_map.mpr ⟨p, member, if_neg ne⟩

theorem mark_absent (absent : ∀ p ∈ ps, p.event ≠ event) : mark event ps = ps := by
  rw [mark]
  conv_rhs => rw [← List.map_id ps]
  exact List.map_congr_left fun p member => if_neg (absent p member)

theorem triggeredCount_mark {ps : List Pending} (nodup : (ps.map Pending.event).Nodup)
    (member : p ∈ ps) (untriggered : p.triggered = false) (isShared : Bool) :
    triggeredCount (mark p.event ps) isShared =
      triggeredCount ps isShared + if p.isShared = isShared then 1 else 0 := by
  induction ps with
  | nil => cases member
  | cons q ps ih =>
      obtain ⟨distinct, nodup⟩ := List.nodup_cons.mp nodup
      rcases List.mem_cons.mp member with rfl | later
      · have rest : mark p.event ps = ps := by
          refine mark_absent fun q inside same => distinct ?_
          rw [← same]
          exact List.mem_map_of_mem inside
        have head : mark p.event (p :: ps) = { p with triggered := true } :: ps := by
          rw [← List.singleton_append, mark, List.map_append, ← mark, ← mark, rest]
          simp [mark]
        rw [head]
        simp only [triggeredCount, List.countP_cons, untriggered, Bool.true_and, Bool.false_and,
          beq_iff_eq, Bool.false_eq_true, if_false, Nat.add_zero]
      · have ne : q.event ≠ p.event := fun same => distinct (same ▸ List.mem_map_of_mem later)
        have head : mark p.event (q :: ps) = q :: mark p.event ps := by
          simp [mark, ne]
        rw [head]
        have tail := ih nodup later
        simp only [triggeredCount, List.countP_cons] at tail ⊢
        omega

theorem markAll_events (granted : List Waiter) (ps : List Pending) :
    (markAll granted ps).map Pending.event = ps.map Pending.event := by
  induction granted generalizing ps with
  | nil => rfl
  | cons w granted ih => exact (ih (mark w.event ps)).trans (mark_events w.event ps)

theorem mem_markAll_of_ne (member : p ∈ ps) (ne : ∀ w ∈ granted, p.event ≠ w.event) :
    p ∈ markAll granted ps := by
  induction granted generalizing ps with
  | nil => exact member
  | cons w granted ih =>
      exact ih (mem_mark_of_ne member (ne w List.mem_cons_self))
        fun w' inside => ne w' (List.mem_cons_of_mem _ inside)

theorem triggeredCount_markAll {ps : List Pending} (nodup : (ps.map Pending.event).Nodup)
    (distinct : (granted.map Waiter.event).Nodup) (live : ∀ w ∈ granted, Waiting ps w)
    (isShared : Bool) : triggeredCount (markAll granted ps) isShared =
      triggeredCount ps isShared + granted.countP (·.shared == isShared) := by
  induction granted generalizing ps with
  | nil => rfl
  | cons w granted ih =>
      obtain ⟨apart, distinct⟩ := List.nodup_cons.mp distinct
      obtain ⟨p, member, event, untriggered, mode⟩ := (live w List.mem_cons_self).shared
      have marked := triggeredCount_mark nodup member untriggered isShared
      rw [event] at marked
      have later : ∀ w' ∈ granted, Waiting (mark w.event ps) w' := by
        intro w' inside
        obtain ⟨p', member', event', rest⟩ := live w' (List.mem_cons_of_mem _ inside)
        refine ⟨p', mem_mark_of_ne member' ?_, event', rest⟩
        rw [event']
        exact fun same => apart (same ▸ List.mem_map_of_mem inside)
      have tail := ih (by rwa [mark_events]) distinct later
      rw [markAll, List.foldl_cons, ← markAll, tail, marked, List.countP_cons, mode]
      simp only [beq_iff_eq]
      omega

theorem mem_of_mem_markAll (member : p ∈ markAll granted ps) : ∃ q ∈ ps, q.event = p.event := by
  have listed := List.mem_map_of_mem (f := Pending.event) member
  rw [markAll_events] at listed
  exact List.mem_map.mp listed

/-- Granting part of a removed prefix keeps the rest of the queue in order. -/
theorem Queued.grant (queued : Queued next ps (front ++ ws)) (sub : granted.Sublist front)
    (nonempty : ∀ w ∈ granted, w.body.empty = false) :
    Queued next (markAll granted ps) ws ∧ (∀ w ∈ granted, Waiting ps w) ∧
      (granted.map Waiter.event).Nodup := by
  obtain ⟨events, fresh, entries, entriesFresh, served⟩ := queued
  rw [List.map_append, List.nodup_append] at entries
  obtain ⟨frontNodup, backNodup, apart⟩ := entries
  refine ⟨⟨by rwa [markAll_events], ?_, backNodup, ?_, ?_⟩, ?_, frontNodup.sublist (sub.map _)⟩
  · intro p member
    obtain ⟨q, inside, same⟩ := mem_of_mem_markAll member
    exact same ▸ fresh q inside
  · exact fun w member => entriesFresh w (List.mem_append_right _ member)
  · intro w member
    rcases served w (List.mem_append_right _ member) with ⟨p, inside, event, rest⟩ | ⟨empty, absent⟩
    · refine .inl ⟨p, mem_markAll_of_ne inside ?_, event, rest⟩
      intro w' taken same
      exact apart w'.event (List.mem_map_of_mem (sub.subset taken)) w.event
        (List.mem_map_of_mem member) (by rw [← same, event])
    · refine .inr ⟨empty, fun p inside same => ?_⟩
      obtain ⟨q, inside, event⟩ := mem_of_mem_markAll inside
      exact absent q inside (event.trans same)
  · intro w taken
    rcases served w (List.mem_append_left _ (sub.subset taken)) with waiting | ⟨empty, _⟩
    · exact waiting
    · rw [nonempty w taken] at empty
      contradiction

/-! The queue under the other changes. -/

theorem Queued.enqueue (queued : Queued next ps ws) (c : CoroutineId) (isShared : Bool) :
    Queued (next + 1) (⟨c, next, isShared, false, false⟩ :: ps)
      (ws ++ [newWaiter isShared next none]) := by
  obtain ⟨events, fresh, entries, entriesFresh, served⟩ := queued
  refine ⟨?_, ?_, ?_, ?_, ?_⟩
  · refine List.nodup_cons.mpr ⟨fun listed => ?_, events⟩
    obtain ⟨p, inside, event⟩ := List.mem_map.mp listed
    exact absurd (fresh p inside) (by rw [event]; exact Nat.lt_irrefl _)
  · intro p member
    rcases List.mem_cons.mp member with rfl | inside
    · exact Nat.lt_succ_self _
    · exact Nat.lt_succ_of_lt (fresh p inside)
  · rw [List.map_append, List.nodup_append]
    refine ⟨entries, List.nodup_singleton _, fun e listed e' last => ?_⟩
    obtain ⟨w, inside, rfl⟩ := List.mem_map.mp listed
    rw [List.map_singleton, List.mem_singleton] at last
    subst last
    exact Nat.ne_of_lt (entriesFresh w inside)
  · intro w member
    rcases List.mem_append.mp member with inside | last
    · exact Nat.lt_succ_of_lt (entriesFresh w inside)
    · rw [List.mem_singleton.mp last]
      exact Nat.lt_succ_self _
  · intro w member
    rcases List.mem_append.mp member with inside | last
    · rcases served w inside with ⟨p, pending, rest⟩ | ⟨empty, absent⟩
      · exact .inl ⟨p, List.mem_cons_of_mem _ pending, rest⟩
      · refine .inr ⟨empty, fun p pending => ?_⟩
        rcases List.mem_cons.mp pending with rfl | pending
        · exact Nat.ne_of_gt (entriesFresh w inside)
        · exact absent p pending
    · rw [List.mem_singleton.mp last]
      exact .inl ⟨_, List.mem_cons_self, rfl, rfl, rfl⟩

theorem Queued.later (queued : Queued next ps ws) (more : next ≤ next') : Queued next' ps ws :=
  ⟨queued.events, fun p member => (queued.fresh p member).trans_le more, queued.entries,
    fun w member => (queued.entriesFresh w member).trans_le more, queued.served⟩

/-- Once granted, a request has no entry in the queue. -/
theorem Queued.absent (queued : Queued next ps ws) (member : p ∈ ps)
    (triggered : p.triggered = true) : ∀ w ∈ ws, w.event ≠ p.event := by
  intro w inside same
  rcases queued.served w inside with ⟨q, pending, event, untriggered, _⟩ | ⟨_, absent⟩
  · cases same_pending queued.events pending member (event.trans same)
    rw [triggered] at untriggered
    contradiction
  · exact absent p member same.symm

theorem erase_events {ps : List Pending} (nodup : (ps.map Pending.event).Nodup) (p : Pending) :
    ((ps.erase p).map Pending.event).Nodup :=
  nodup.sublist (List.erase_sublist.map _)

theorem Queued.forget (queued : Queued next ps ws) (member : p ∈ ps)
    (absent : ∀ w ∈ ws, w.event ≠ p.event) : Queued next (ps.erase p) ws := by
  refine ⟨erase_events queued.events p, fun q inside => queued.fresh q (List.mem_of_mem_erase inside),
    queued.entries, queued.entriesFresh, fun w inside => ?_⟩
  rcases queued.served w inside with ⟨q, pending, event, rest⟩ | ⟨empty, other⟩
  · refine .inl ⟨q, (mem_erase queued.events).mpr ⟨?_, pending⟩, event, rest⟩
    rintro rfl
    exact absent w inside event.symm
  · exact .inr ⟨empty, fun q pending => other q (List.mem_of_mem_erase pending)⟩

theorem updateWaiter_waiters (event : EventId) (f : EventBody → EventBody) (m : Mutex) :
    (updateWaiter event f m).waiters =
      m.waiters.map fun w => if w.event = event then { w with body := f w.body } else w := rfl

/-- Change the body of the entry of one waiting request. -/
theorem Queued.update (queued : Queued next ps m.waiters) (member : p ∈ ps)
    (f : EventBody → EventBody) (ps' : List Pending)
    (events : (ps'.map Pending.event).Nodup) (fresh : ∀ q ∈ ps', q.event < next)
    (others : ∀ q, q.event ≠ p.event → (q ∈ ps' ↔ q ∈ ps))
    (this : ∀ w : Waiter, w.event = p.event → w.body = body p →
      Waiting ps' { w with body := f w.body } ∨ Cancelled ps' { w with body := f w.body }) :
    Queued next ps' (updateWaiter p.event f m).waiters := by
  have ids : (updateWaiter p.event f m).waiters.map Waiter.event = m.waiters.map Waiter.event := by
    rw [updateWaiter_waiters, List.map_map]
    refine List.map_congr_left fun w _ => ?_
    simp only [Function.comp]
    split <;> rfl
  refine ⟨events, fresh, by rw [ids]; exact queued.entries, fun w inside => ?_, fun w inside => ?_⟩
  · have listed := List.mem_map_of_mem (f := Waiter.event) inside
    rw [ids] at listed
    obtain ⟨w', before, same⟩ := List.mem_map.mp listed
    exact same ▸ queued.entriesFresh w' before
  · rw [updateWaiter_waiters] at inside
    obtain ⟨w', before, rfl⟩ := List.mem_map.mp inside
    by_cases same : w'.event = p.event
    · rw [if_pos same]
      rcases queued.served w' before with ⟨q, pending, event, _, body_eq⟩ | ⟨_, absent⟩
      · cases same_pending queued.events pending member (event.trans same)
        exact this w' same body_eq
      · exact absurd same.symm (absent p member)
    · rw [if_neg same]
      rcases queued.served w' before with ⟨q, pending, event, rest⟩ | ⟨empty, absent⟩
      · exact .inl ⟨q, (others q (by rw [event]; exact same)).mpr pending, event, rest⟩
      · refine .inr ⟨empty, fun q pending event => ?_⟩
        exact absent q ((others q (by rw [event]; exact same)).mp pending) event

theorem swapErase_singleton (l : Listener) : swapErase l [l] = [] := by
  simp [swapErase, swapRemove]

theorem updateWaiter_twice (event : EventId) (f f' : EventBody → EventBody) (m : Mutex) :
    updateWaiter event f (updateWaiter event f' m) = updateWaiter event (f ∘ f') m := by
  simp only [updateWaiter, List.map_map, Mutex.mk.injEq, true_and]
  refine List.map_congr_left fun w _ => ?_
  by_cases same : w.event = event <;> simp [same]

theorem Queued.listen (queued : Queued next ps m.waiters) (member : p ∈ ps)
    (running : p.suspended = false) (untriggered : p.triggered = false) :
    Queued next ({ p with suspended := true } :: ps.erase p) (updateWaiter p.event
      (fun b => { b with listeners := b.listeners ++ [.coroutine p.owner] }) m).waiters := by
  have apart : p.event ∉ (ps.erase p).map Pending.event := by
    intro listed
    obtain ⟨q, inside, same⟩ := List.mem_map.mp listed
    obtain ⟨ne, inside⟩ := (mem_erase queued.events).mp inside
    exact ne (same_pending queued.events inside member same)
  refine queued.update member _ _ ?_ ?_ ?_ ?_
  · exact List.nodup_cons.mpr ⟨apart, erase_events queued.events p⟩
  · intro q inside
    rcases List.mem_cons.mp inside with rfl | inside
    · exact queued.fresh p member
    · exact queued.fresh q (List.mem_of_mem_erase inside)
  · intro q ne
    rw [List.mem_cons, mem_erase queued.events]
    refine ⟨?_, fun inside => .inr ⟨fun same => ne (same ▸ rfl), inside⟩⟩
    rintro (rfl | ⟨_, inside⟩)
    · exact absurd rfl ne
    · exact inside
  · intro w event listening
    refine .inl ⟨_, List.mem_cons_self, event.symm, untriggered, ?_⟩
    simp [listening, body, running]

/-- A request destroyed while it waits leaves an empty event in the queue. -/
theorem Queued.cancel (queued : Queued next ps m.waiters) (member : p ∈ ps)
    (suspended : p.suspended = true) : Queued next (ps.erase p)
      (updateWaiter p.event ((fun b => { b with refcount := b.refcount - 1 }) ∘
        fun b => { b with listeners := swapErase (.coroutine p.owner) b.listeners }) m).waiters := by
  refine queued.update member _ _ (erase_events queued.events p)
    (fun q inside => queued.fresh q (List.mem_of_mem_erase inside)) ?_ ?_
  · intro q ne
    rw [mem_erase queued.events]
    exact ⟨And.right, fun inside => ⟨fun same => ne (same ▸ rfl), inside⟩⟩
  · intro w event listening
    refine .inr ⟨?_, fun q inside same => ?_⟩
    · simp [listening, body, suspended, swapErase_singleton, EventBody.empty]
    · obtain ⟨ne, inside⟩ := (mem_erase queued.events).mp inside
      exact ne (same_pending queued.events inside member (same.trans event))

/-! One step. -/

/-- Every outstanding grant of a mode belongs to a guard, to a granted request,
or to a coroutine destroyed in between. -/
def owned (s : Guarded) (isShared : Bool) : Nat :=
  s.guards.countP (·.2 == isShared) + triggeredCount s.pendings isShared + s.orphans.count isShared

structure Wf (s : Guarded) : Prop where
  balanced : s.accounts.Balanced
  idle : s.accounts.Served
  queued : Queued s.accounts.next s.pendings s.accounts.mutex.waiters
  counts : ∀ isShared, s.accounts.count isShared = s.owned isShared

/-- What an operation on the mutex leaves for its caller to complete: `extra` is
the entry it appends, `now` the grant it makes to the caller, `released` the
grant it gives back. -/
structure Performed (s t : Guarded) (op : Op) (extra : List Waiter) : Prop where
  balanced : t.accounts.Balanced
  idle : t.accounts.Served
  next : t.accounts.next = s.accounts.next + 1
  waiters : ∃ ws, t.accounts.mutex.waiters = ws ++ extra ∧ Queued s.accounts.next t.pendings ws
  guards : t.guards = s.guards
  orphans : t.orphans = s.orphans
  events : t.pendings.map Pending.event = s.pendings.map Pending.event
  counts : ∀ b, t.accounts.count b + op.releases b =
    t.owned b + if (s.accounts.outcome op).now && op.mode == b then 1 else 0

variable {s t : Guarded}

theorem perform_eq_some : s.perform op = some t ↔ ∃ accounts, s.accounts.step op = some accounts ∧
    t = { s with accounts, pendings := markAll (s.accounts.outcome op).granted s.pendings } := by
  simp only [perform, Option.map_eq_some_iff, eq_comm (a := t)]

theorem perform_kept (balanced : s.accounts.Balanced) (idle : s.accounts.Served)
    (performed : s.perform op = some t) : t.accounts.Balanced ∧ t.accounts.Served := by
  obtain ⟨accounts, stepped, rfl⟩ := perform_eq_some.mp performed
  exact ⟨Accounts.step_balanced balanced stepped, Accounts.step_served balanced idle stepped⟩

theorem perform_spec (wf : s.Wf) (performed : s.perform op = some t)
    (front : List Waiter) (sub : (s.accounts.outcome op).granted.Sublist front)
    (split : s.accounts.mutex.waiters = front ++ ws)
    (left : (s.accounts.outcome op).mutex.waiters = ws ++ extra)
    (nonempty : ∀ w ∈ (s.accounts.outcome op).granted, w.body.empty = false) :
    Performed s t op extra := by
  obtain ⟨accounts, stepped, rfl⟩ := perform_eq_some.mp performed
  have queued := wf.queued
  rw [split] at queued
  obtain ⟨rest, live, distinct⟩ := queued.grant sub nonempty
  have held : op.releases true ≤ s.accounts.shared ∧ op.releases false ≤ s.accounts.excl :=
    Accounts.releases_le stepped
  obtain ⟨_, settled⟩ := Accounts.step_eq_some.mp stepped
  refine ⟨Accounts.step_balanced wf.balanced stepped,
    Accounts.step_served wf.balanced wf.idle stepped, ?_, ⟨ws, ?_, rest⟩, rfl, rfl,
    markAll_events _ _, fun b => ?_⟩
  · rw [settled]
    rfl
  · rw [settled]
    exact left
  · have before := wf.counts b
    have marked := triggeredCount_markAll wf.queued.events distinct live b
    simp only [owned] at before ⊢
    rw [marked, settled]
    simp only [Accounts.settle, Accounts.count, Result.grants] at before ⊢
    cases b <;> simp only [Bool.false_eq_true, if_false, if_true] at before ⊢ <;> omega

theorem perform_lock (wf : s.Wf) (performed : s.perform (.lock isShared none) = some t) :
    Performed s t (.lock isShared none)
      (if (s.accounts.outcome (.lock isShared none)).now then []
        else [newWaiter isShared s.accounts.next none]) := by
  obtain ⟨front, split, sub, nonempty⟩ :=
    notifyLocked_front (latched s.accounts.mutex) s.accounts.mutex.waiters
  have granted : (s.accounts.outcome (.lock isShared none)).granted =
      (notifyLocked (latched s.accounts.mutex) s.accounts.mutex.waiters).granted := by
    simp only [Accounts.outcome, lockImpl]
    split <;> rfl
  refine perform_spec wf performed front (granted ▸ sub) split ?_ (granted ▸ nonempty)
  simp only [Accounts.outcome, lockImpl]
  split
  · simp only [unlatch_waiters, if_true, List.append_nil]
  · simp only [unlatch_waiters, Bool.false_eq_true, if_false]

theorem unlockOp_paths (s : Accounts) (isShared : Bool) (seen : Latch) :
    s.outcome (unlockOp isShared seen) = unlockImpl isShared s.mutex ∨
      s.Lockless (s.outcome (unlockOp isShared seen)) := by
  cases isShared with
  | false => exact s.unlock_paths seen
  | true => exact s.unlockShared_paths seen

theorem perform_unlock (wf : s.Wf) (performed : s.perform (unlockOp isShared seen) = some t) :
    Performed s t (unlockOp isShared seen) [] := by
  obtain ⟨front, split, sub, nonempty⟩ := notifyLocked_front
    (latched s.accounts.mutex - lockUnit isShared) s.accounts.mutex.waiters
  rcases unlockOp_paths s.accounts isShared seen with slow | ⟨none, _, same⟩
  · refine perform_spec wf performed front (by rw [slow]; exact sub) split ?_
      (by rw [slow]; exact nonempty)
    rw [slow, List.append_nil, unlockImpl, unlatch_waiters]
  · refine perform_spec wf performed [] (by rw [none]) rfl (by rw [same, List.append_nil]) ?_
    rw [none]
    rintro _ ⟨⟩

theorem triggeredCount_erase {ps : List Pending} (member : p ∈ ps) (isShared : Bool) :
    triggeredCount (ps.erase p) isShared + (if p.triggered && p.isShared == isShared then 1 else 0) =
      triggeredCount ps isShared := by
  have erased := List.countP_erase (fun p => p.triggered && p.isShared == isShared) ps p
  have positive : (p.triggered && p.isShared == isShared) = true →
      0 < ps.countP fun p => p.triggered && p.isShared == isShared :=
    fun counted => List.countP_pos_iff.mpr ⟨p, member, counted⟩
  simp only [member, true_and] at erased
  simp only [triggeredCount, erased]
  split
  · rename_i counted
    have := positive counted
    omega
  · rfl

theorem wf_build (wf : s.Wf) (member : p ∈ s.pendings) (triggered : p.triggered = true) :
    (s.build p).Wf := by
  refine ⟨wf.balanced, wf.idle,
    wf.queued.forget member (wf.queued.absent member triggered), fun b => ?_⟩
  have before := wf.counts b
  have erased := triggeredCount_erase member b
  simp only [owned, build, triggered, Bool.true_and, List.countP_cons] at before erased ⊢
  exact before.trans (by omega)

theorem step_request (wf : s.Wf) (stepped : s.step (.request c isShared) = some t) : t.Wf := by
  simp only [step, Option.ite_none_left_eq_some, Option.map_eq_some_iff] at stepped
  obtain ⟨_, u, performed, rfl⟩ := stepped
  have spec := perform_lock wf performed
  obtain ⟨ws, left, queued⟩ := spec.waiters
  cases now : (s.accounts.outcome (.lock isShared none)).now with
  | true =>
      rw [now, if_pos rfl, List.append_nil] at left
      refine ⟨spec.balanced, spec.idle, ?_, fun b => ?_⟩
      · simp only [if_true, left]
        exact queued.later (by rw [spec.next]; exact Nat.le_succ _)
      · have counts := spec.counts b
        simp only [now, owned, Op.mode, Op.releases, Bool.true_and] at counts ⊢
        simp only [if_true, List.countP_cons]
        omega
  | false =>
      rw [now, if_neg Bool.false_ne_true] at left
      refine ⟨spec.balanced, spec.idle, ?_, fun b => ?_⟩
      · simp only [Bool.false_eq_true, if_false, left, spec.next]
        exact queued.enqueue c isShared
      · have counts := spec.counts b
        simp only [now, owned, Op.releases, Bool.false_and] at counts ⊢
        simpa [triggeredCount] using counts

theorem step_release (wf : s.Wf) (stepped : s.step (.release c isShared seen) = some t) : t.Wf := by
  simp only [step, Option.ite_none_right_eq_some, Option.map_eq_some_iff] at stepped
  obtain ⟨holds, u, performed, rfl⟩ := stepped
  have spec := perform_unlock wf performed
  obtain ⟨ws, left, queued⟩ := spec.waiters
  rw [List.append_nil] at left
  refine ⟨spec.balanced, spec.idle, ?_, fun b => ?_⟩
  · simp only [left]
    exact queued.later (by rw [spec.next]; exact Nat.le_succ _)
  · have counts := spec.counts b
    have erased := List.countP_erase (·.2 == b) u.guards (c, isShared)
    have counted : (isShared == b) = true → 0 < u.guards.countP (·.2 == b) :=
      fun same => List.countP_pos_iff.mpr ⟨_, spec.guards ▸ holds, same⟩
    simp only [spec.guards ▸ holds, true_and] at erased
    simp only [owned] at counts ⊢
    rw [erased]
    have idle : (s.accounts.outcome (unlockOp isShared seen)).now = false := by
      rcases unlockOp_paths s.accounts isShared seen with slow | ⟨_, idle, _⟩
      · rw [slow]
        rfl
      · exact idle
    have released : (unlockOp isShared seen).releases b = if isShared == b then 1 else 0 := by
      cases isShared <;> cases b <;> rfl
    rw [idle, released] at counts
    simp only [Bool.false_and, Bool.false_eq_true, if_false] at counts
    simp only [Accounts.count] at counts ⊢
    by_cases same : (isShared == b) = true
    · have := counted same
      simp only [same, if_true] at counts ⊢
      omega
    · rw [Bool.not_eq_true] at same
      simp only [same, Bool.false_eq_true, if_false] at counts ⊢
      omega

/-- An operation of the owner of a queued event changes that entry only. -/
structure Touched (s t : Guarded) (event : EventId) (f : EventBody → EventBody) : Prop where
  mutex : t.accounts.mutex = updateWaiter event f s.accounts.mutex
  next : s.accounts.next ≤ t.accounts.next
  counts : t.accounts.count = s.accounts.count
  rest : t = { s with accounts := t.accounts }

theorem perform_touch (touches : s.accounts.outcome op = s.accounts.touch event f)
    (keeps : ∀ b, op.releases b = 0) (performed : s.perform op = some t) :
    Touched s t event f := by
  obtain ⟨accounts, stepped, rfl⟩ := perform_eq_some.mp performed
  obtain ⟨_, rfl⟩ := Accounts.step_eq_some.mp stepped
  rw [touches]
  refine ⟨rfl, Nat.le_succ _, funext fun b => ?_, rfl⟩
  simp [Accounts.settle, Accounts.touch, Accounts.count, Result.grants, keeps]

/-- A waiting request starts to listen on its event. -/
theorem step_suspend (wf : s.Wf) (stepped : s.step (.suspend c) = some t) : t.Wf := by
  simp only [step] at stepped
  cases found : s.pending? c with
  | none => simp [found] at stepped
  | some p =>
      have member : p ∈ s.pendings := List.mem_of_find?_eq_some found
      have owner : p.owner = c := by simpa using List.find?_some found
      simp only [found] at stepped
      split at stepped
      · contradiction
      · rename_i running
        split at stepped
        · rename_i triggered
          cases Option.some.inj stepped
          exact wf_build wf member triggered
        · rename_i untriggered
          rw [Bool.not_eq_true] at running untriggered
          obtain ⟨u, performed, rfl⟩ := Option.map_eq_some_iff.mp stepped
          have touched := perform_touch rfl (fun _ => rfl) performed
          have kept := perform_kept wf.balanced wf.idle performed
          rw [touched.rest]
          refine ⟨kept.1, kept.2, ?_, fun b => ?_⟩
          · simp only [touched.mutex]
            exact owner ▸ (wf.queued.listen member running untriggered).later touched.next
          · have before := wf.counts b
            have erased := triggeredCount_erase member b
            have relisted : triggeredCount ({ p with suspended := true } :: s.pendings.erase p) b =
                triggeredCount (s.pendings.erase p) b := by
              simp [triggeredCount, untriggered]
            simp only [owned, untriggered, Bool.false_and, Bool.false_eq_true, if_false] at before erased
            simp only [owned, touched.counts, relisted]
            omega

theorem wf_abandon (wf : s.Wf) (member : p ∈ s.pendings) (suspended : p.suspended = true)
    (abandoned : s.abandon p = some t) : t.Wf := by
  obtain ⟨v, performed, rfl⟩ := Option.map_eq_some_iff.mp abandoned
  obtain ⟨u, first, second⟩ := Option.bind_eq_some_iff.mp performed
  have left := perform_touch rfl (fun _ => rfl) first
  have dropped := perform_touch rfl (fun _ => rfl) second
  have balanced := perform_kept wf.balanced wf.idle first
  have balanced := perform_kept balanced.1 balanced.2 second
  have next : s.accounts.next ≤ v.accounts.next := left.next.trans dropped.next
  have pendings : v.pendings = s.pendings := by rw [dropped.rest, left.rest]
  have guards : v.guards = s.guards := by rw [dropped.rest, left.rest]
  have orphans : v.orphans = s.orphans := by rw [dropped.rest, left.rest]
  refine ⟨balanced.1, balanced.2, ?_, fun b => ?_⟩
  · simp only [pendings, dropped.mutex, left.mutex, updateWaiter_twice]
    exact (wf.queued.cancel member suspended).later next
  · have before := wf.counts b
    have erased := triggeredCount_erase member b
    simp only [owned, dropped.counts, left.counts, pendings, guards, orphans] at before ⊢
    cases triggered : p.triggered with
    | false =>
        simp only [triggered, Bool.false_and, Bool.false_eq_true, if_false] at erased ⊢
        omega
    | true =>
        simp only [triggered, Bool.true_and, if_true, List.count_cons] at erased ⊢
        omega

theorem step_wf (wf : s.Wf) (stepped : s.step op = some t) : t.Wf := by
  cases op with
  | request c isShared => exact step_request wf stepped
  | suspend c => exact step_suspend wf stepped
  | resume c =>
      simp only [step] at stepped
      cases found : s.pending? c with
      | none => simp [found] at stepped
      | some p =>
          simp only [found, Option.ite_none_right_eq_some, Bool.and_eq_true] at stepped
          obtain ⟨⟨_, triggered⟩, built⟩ := stepped
          cases Option.some.inj built
          exact wf_build wf (List.mem_of_find?_eq_some found) triggered
  | release c isShared seen => exact step_release wf stepped
  | finish c =>
      obtain ⟨_, ended⟩ := Option.ite_none_left_eq_some.mp stepped
      cases Option.some.inj ended
      exact ⟨wf.balanced, wf.idle, wf.queued, wf.counts⟩
  | destroy c =>
      simp only [step, Option.ite_none_left_eq_some] at stepped
      obtain ⟨_, stepped⟩ := stepped
      cases found : s.pending? c with
      | none =>
          simp only [found] at stepped
          cases Option.some.inj stepped
          exact ⟨wf.balanced, wf.idle, wf.queued, wf.counts⟩
      | some p =>
          simp only [found, Option.ite_none_right_eq_some, Option.map_eq_some_iff] at stepped
          obtain ⟨suspended, u, abandoned, rfl⟩ := stepped
          have kept := wf_abandon wf (List.mem_of_find?_eq_some found) suspended abandoned
          exact ⟨kept.balanced, kept.idle, kept.queued, kept.counts⟩

theorem initial_wf : ({} : Guarded).Wf := by
  refine ⟨rfl, fun queued => absurd rfl queued, ?_, fun b => ?_⟩
  · constructor <;> simp
  · cases b <;> rfl

theorem reached_wf (path : Reaches step {} ops s) : s.Wf :=
  path.invariant step_wf initial_wf

/-! Grants that outlive their coroutine. -/

theorem perform_orphans (performed : s.perform op = some t) : t.orphans = s.orphans := by
  obtain ⟨_, _, rfl⟩ := perform_eq_some.mp performed
  rfl

theorem abandon_orphans (abandoned : s.abandon p = some t) :
    t.orphans = if p.triggered then p.isShared :: s.orphans else s.orphans := by
  obtain ⟨v, performed, rfl⟩ := Option.map_eq_some_iff.mp abandoned
  obtain ⟨u, first, second⟩ := Option.bind_eq_some_iff.mp performed
  simp only [perform_orphans second, perform_orphans first]

/-- A step adds an orphan exactly when it destroys a coroutine between the grant
of its lock and its resumption. -/
theorem step_orphans (stepped : s.step op = some t) :
    s.Spares op ∧ t.orphans = s.orphans ∨ ¬s.Spares op ∧ ∃ b, t.orphans = b :: s.orphans := by
  cases op with
  | request c isShared =>
      simp only [step, Option.ite_none_left_eq_some, Option.map_eq_some_iff] at stepped
      obtain ⟨_, u, performed, rfl⟩ := stepped
      refine .inl ⟨trivial, ?_⟩
      split <;> exact (perform_orphans performed :)
  | suspend c =>
      refine .inl ⟨trivial, ?_⟩
      simp only [step] at stepped
      split at stepped
      · contradiction
      · split at stepped
        · contradiction
        · split at stepped
          · cases Option.some.inj stepped
            rfl
          · obtain ⟨u, performed, rfl⟩ := Option.map_eq_some_iff.mp stepped
            exact (perform_orphans performed :)
  | resume c =>
      refine .inl ⟨trivial, ?_⟩
      simp only [step] at stepped
      split at stepped
      · contradiction
      · obtain ⟨_, built⟩ := Option.ite_none_right_eq_some.mp stepped
        cases Option.some.inj built
        rfl
  | release c isShared seen =>
      simp only [step, Option.ite_none_right_eq_some, Option.map_eq_some_iff] at stepped
      obtain ⟨_, u, performed, rfl⟩ := stepped
      exact .inl ⟨trivial, (perform_orphans performed :)⟩
  | finish c =>
      obtain ⟨_, ended⟩ := Option.ite_none_left_eq_some.mp stepped
      cases Option.some.inj ended
      exact .inl ⟨trivial, rfl⟩
  | destroy c =>
      simp only [step, Option.ite_none_left_eq_some] at stepped
      obtain ⟨_, stepped⟩ := stepped
      cases found : s.pending? c with
      | none =>
          simp only [found] at stepped
          cases Option.some.inj stepped
          exact .inl ⟨by simp [Spares, found], rfl⟩
      | some p =>
          simp only [found, Option.ite_none_right_eq_some, Option.map_eq_some_iff] at stepped
          obtain ⟨_, u, abandoned, rfl⟩ := stepped
          have orphans := abandon_orphans abandoned
          cases triggered : p.triggered with
          | false => exact .inl ⟨by simp [Spares, found, triggered], by simp [orphans, triggered]⟩
          | true =>
              refine .inr ⟨by simp [Spares, found, triggered], p.isShared, ?_⟩
              simp only [orphans, triggered, if_true]

theorem orphans_grow (path : Reaches step s ops t) : s.orphans.length ≤ t.orphans.length := by
  induction path with
  | refl => exact Nat.le_refl _
  | next stepped _ ih =>
      rcases step_orphans stepped with ⟨_, same⟩ | ⟨_, b, more⟩
      · exact same ▸ ih
      · rw [more, List.length_cons] at ih
        omega

/-- A run leaves no orphans exactly when all its steps spare granted coroutines. -/
theorem orphans_iff (path : Reaches step s ops t) :
    t.orphans.length = s.orphans.length ↔ Meets step Spares s ops := by
  induction path with
  | refl => exact ⟨fun _ => trivial, fun _ => rfl⟩
  | @next s op u ops t stepped rest ih =>
      have only : Meets step Spares s (op :: ops) ↔ s.Spares op ∧ Meets step Spares u ops := by
        simp [Meets, stepped]
      rw [only, ← ih]
      have grown := orphans_grow rest
      rcases step_orphans stepped with ⟨spared, same⟩ | ⟨lost, b, more⟩
      · simp only [spared, same, true_and]
      · simp only [lost, false_and, iff_false]
        rw [more, List.length_cons] at grown
        omega

theorem spared_iff (path : Reaches step {} ops s) : s.orphans = [] ↔ Meets step Spares {} ops := by
  rw [← orphans_iff path, ← List.length_eq_zero_iff]
  rfl

theorem quiet_counts (wf : s.Wf) (quiet : s.Quiet) (b : Bool) :
    s.accounts.count b = s.orphans.count b := by
  simp [wf.counts, owned, quiet.1, quiet.2, triggeredCount]

theorem free_of_idle (s : Accounts) (balanced : s.Balanced) (served : s.Served)
    (excl : s.excl = 0) (shared : s.shared = 0) : Free s.mutex := by
  have nobody : s.mutex.waiters = [] := by
    by_contra queued
    have := served queued
    omega
  have zero : s.mutex.latch = 0#32 := by
    rw [balanced, excl, shared, nobody]
    rfl
  refine ⟨by rw [zero]; decide, fun isShared event notify => ?_⟩
  have start : latched s.mutex = word 0 0 0 := by
    rw [latched, zero]
    decide
  simp [lockImpl, start, nobody, notifyLocked, allow_free]

theorem idle_of_free (s : Accounts) (balanced : s.Balanced) (fits : s.excl + 2 * s.shared < 2 ^ 29)
    (free : Free s.mutex) : s.excl = 0 ∧ s.shared = 0 := by
  have small := free.1
  have line := nextInLine_small s.mutex.waiters
  rw [balanced, word, BitVec.toNat_ofNat, Nat.mod_eq_of_lt (by omega)] at small
  omega

end Guarded
end Cotamer.Mutex

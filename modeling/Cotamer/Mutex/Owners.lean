import Cotamer.Mutex.Guard
import Cotamer.Mutex.Order

/-! `unique_lock` and `shared_lock` objects over one mutex. A pending `lock()`
leaves the address of `owned_` in the queue, and the grant is written there by
whoever makes it, whatever has become of the lock object meanwhile. -/
namespace Cotamer.Mutex
open Event SwapVector Transition

/-- A `unique_lock`, or a `shared_lock`. `m_` is null or the one mutex. -/
structure LockGuard where
  id : Nat                    -- its address
  isShared : Bool
  bound : Bool := true        -- m_ is not null
  owned : Bool := false       -- owned_
  deriving DecidableEq, Repr

structure Owners where
  accounts : Accounts := {}
  guards : List LockGuard := []
  deriving DecidableEq, Repr

inductive OwnerOp where
  | defer (g : Nat) (isShared : Bool)
  | tryToLock (g : Nat) (isShared : Bool) (seen : Latch)
  | lock (g : Nat)
  | tryLock (g : Nat) (seen : Latch)
  | unlock (g : Nat) (seen : Latch)
  | moveConstruct (g x : Nat)
  | moveAssign (g x : Nat) (seen : Latch)
  | swap (g x : Nat)
  | destroy (g : Nat) (seen : Latch)
  -- what is done with the mutex_event returned by lock
  | listen (event : EventId) (l : Listener)
  | unlisten (event : EventId) (l : Listener)
  | copyHandle (event : EventId)
  | dropHandle (event : EventId)
  deriving DecidableEq, Repr

namespace LockGuard

/-- Change the lock object at address `i`. -/
def update (i : Nat) (f : LockGuard → LockGuard) (gs : List LockGuard) : List LockGuard :=
  gs.map fun g => if g.id = i then f g else g

def setOwned (owned : Bool) (g : LockGuard) : LockGuard := { g with owned }

def setBound (bound : Bool) (g : LockGuard) : LockGuard := { g with bound }

/-- `*fw.second = true` for the granted waiters. -/
def notifyAll (granted : List Waiter) (gs : List LockGuard) : List LockGuard :=
  granted.foldl (fun gs w => w.notify.elim gs fun i => update i (setOwned true) gs) gs

end LockGuard

namespace Owners
open LockGuard

def guard? (s : Owners) (g : Nat) : Option LockGuard := s.guards.find? (·.id == g)

/-- Somebody outside the queue has a handle to the event. -/
def reachable (s : Owners) (event : EventId) : Bool :=
  s.accounts.mutex.waiters.all fun w => w.event != event || decide (1 < w.body.refcount)

def tryOp (isShared : Bool) (seen : Latch) : Op := if isShared then .tryLockShared seen else .tryLock

/-- Run one operation on the mutex and write the grants it makes. -/
def perform (s : Owners) (op : Op) : Option Owners :=
  (s.accounts.step op).map fun accounts =>
    ⟨accounts, notifyAll (s.accounts.outcome op).granted s.guards⟩

def edit (s : Owners) (i : Nat) (f : LockGuard → LockGuard) : Owners :=
  { s with guards := update i f s.guards }

/-- `m_->unlock()` if `owned_`. -/
def unlockOwned (s : Owners) (lock : LockGuard) (seen : Latch) : Option Owners :=
  if lock.owned then s.perform (Guarded.unlockOp lock.isShared seen) else some s

/-- `m_ = std::exchange(x.m_, nullptr)` and `owned_ = std::exchange(x.owned_, false)`. -/
def exchangeFrom (s : Owners) (g x : Nat) : Owners :=
  match s.guard? x with
  | none => s
  | some source =>
    (((s.edit x (setBound false)).edit g (setBound source.bound)).edit x (setOwned false)).edit g
      (setOwned source.owned)

/-- A call that throws changes nothing. -/
def step (s : Owners) : OwnerOp → Option Owners
  | .defer g isShared =>
    if (s.guard? g).isSome then none else some { s with guards := ⟨g, isShared, true, false⟩ :: s.guards }
  | .tryToLock g isShared seen =>
    if (s.guard? g).isSome then none
    else
      let op := tryOp isShared seen
      (s.perform op).map fun t =>
        { t with guards := ⟨g, isShared, true, (s.accounts.outcome op).now⟩ :: t.guards }
  | .lock g =>
    (s.guard? g).bind fun lock =>
      if !lock.bound || lock.owned then some s
      else
        let op := Op.lock lock.isShared (some g)
        (s.perform op).map fun t =>
          if (s.accounts.outcome op).now then t.edit g (setOwned true) else t
  | .tryLock g seen =>
    (s.guard? g).bind fun lock =>
      if !lock.bound || lock.owned then some s
      else
        let op := tryOp lock.isShared seen
        (s.perform op).map fun t => t.edit g (setOwned (s.accounts.outcome op).now)
  | .unlock g seen =>
    (s.guard? g).bind fun lock =>
      if !lock.owned then some s
      else (s.unlockOwned lock seen).map fun t => t.edit g (setOwned false)
  | .moveConstruct g x =>
    (s.guard? x).bind fun source =>
      if (s.guard? g).isSome then none
      else
        let left := update x (setOwned false ∘ setBound false) s.guards
        some ⟨s.accounts, { source with id := g } :: left⟩
  | .moveAssign g x seen =>
    (s.guard? g).bind fun lock => (s.guard? x).bind fun source =>
      if lock.isShared = source.isShared then
        (s.unlockOwned lock seen).map fun t => t.exchangeFrom g x
      else none
  | .swap g x =>
    (s.guard? g).bind fun lock => (s.guard? x).bind fun source =>
      if lock.isShared ≠ source.isShared then none
      else if g = x then some s
      else some ((s.edit g fun l => { l with bound := source.bound, owned := source.owned }).edit x
        fun l => { l with bound := lock.bound, owned := lock.owned })
  | .destroy g seen =>
    (s.guard? g).bind fun lock =>
      (s.unlockOwned lock seen).map fun t => { t with guards := t.guards.filter (·.id != g) }
  | .listen event l => if s.reachable event then s.perform (.listen event l) else none
  | .unlisten event l => s.perform (.unlisten event l)
  | .copyHandle event => if s.reachable event then s.perform (.copyHandle event) else none
  | .dropHandle event => if s.reachable event then s.perform (.dropHandle event) else none

/-- Lock objects of one mode that own the mutex. -/
def owning (s : Owners) (isShared : Bool) : Nat :=
  s.guards.countP fun g => g.owned && g.isShared == isShared

/-- An attempt to lock through the object at `g` is queued and not cancelled. -/
def Pending (s : Owners) (g : Nat) : Prop :=
  ∃ w ∈ s.accounts.mutex.waiters, w.body.empty = false ∧ w.notify = some g

/-- The object at `x` refers to the mutex and does not own it. -/
def Idle (s : Owners) (x : Nat) : Prop :=
  ∀ lock ∈ s.guard? x, lock.bound = true ∧ lock.owned = false

/-- No object is locked again, moved, swapped or destroyed while an attempt through it is
pending, unless that changes neither of its fields, and none that owns the mutex
is moved to itself. -/
def Careful (s : Owners) : OwnerOp → Prop
  | .lock g | .moveConstruct _ g | .destroy g _ => ¬s.Pending g
  | .moveAssign g x _ =>
    if g = x then ∀ lock ∈ s.guard? g, lock.owned = false
    else ¬s.Pending x ∧ (s.Pending g → s.Idle x)
  | .swap g x => g ≠ x → (s.Pending g → s.Idle x) ∧ (s.Pending x → s.Idle g)
  | _ => True

instance : Decidable (Pending s g) :=
  inferInstanceAs (Decidable (∃ w ∈ s.accounts.mutex.waiters,
    w.body.empty = false ∧ w.notify = some g))

instance : Decidable (Idle s x) :=
  inferInstanceAs (Decidable (∀ lock ∈ s.guard? x, lock.bound = true ∧ lock.owned = false))

instance : ∀ s op, Decidable (Careful s op)
  | s, .lock g => inferInstanceAs (Decidable ¬s.Pending g)
  | s, .moveConstruct _ x => inferInstanceAs (Decidable ¬s.Pending x)
  | s, .destroy g _ => inferInstanceAs (Decidable ¬s.Pending g)
  | s, .moveAssign g x _ => by unfold Careful; infer_instance
  | s, .swap g x => by unfold Careful; infer_instance
  | _, .defer .. | _, .tryToLock .. | _, .tryLock .. | _, .unlock .. | _, .listen ..
  | _, .unlisten .. | _, .copyHandle _ | _, .dropHandle _ => isTrue trivial

end Owners

/-! Lock objects by address. -/

namespace LockGuard

variable {gs : List LockGuard} {g : LockGuard} {i : Nat} {f : LockGuard → LockGuard}
  {p : LockGuard → Bool} {ws granted : List Waiter}

theorem update_ids (same : ∀ g, (f g).id = g.id) : (update i f gs).map id = gs.map id := by
  simp only [update, List.map_map]
  apply List.map_congr_left
  intro g _
  simp only [Function.comp_apply]
  split
  · exact same g
  · rfl

theorem mem_update (member : g ∈ gs) (here : g.id = i) : f g ∈ update i f gs :=
  List.mem_map.mpr ⟨g, member, if_pos here⟩

theorem mem_update_of_ne (member : g ∈ gs) (other : g.id ≠ i) : g ∈ update i f gs :=
  List.mem_map.mpr ⟨g, member, if_neg other⟩

theorem of_mem_update (member : g ∈ update i f gs) :
    (∃ old ∈ gs, old.id = i ∧ g = f old) ∨ g ∈ gs ∧ g.id ≠ i := by
  obtain ⟨old, inside, rfl⟩ := List.mem_map.mp member
  split
  · exact .inl ⟨old, inside, ‹_›, rfl⟩
  · exact .inr ⟨inside, ‹_›⟩

theorem update_absent (absent : i ∉ gs.map id) : update i f gs = gs := by
  conv_rhs => rw [← List.map_id gs]
  apply List.map_congr_left
  intro g member
  apply if_neg
  rintro rfl
  exact absent (List.mem_map_of_mem member)

theorem filter_update (same : ∀ g, (f g).id = g.id) :
    (update i f gs).filter (·.id != i) = gs.filter (·.id != i) := by
  induction gs with
  | nil => rfl
  | cons g gs ih =>
      rw [update, List.map_cons, ← update, List.filter_cons, List.filter_cons, ih]
      by_cases here : g.id = i
      · simp [here, same]
      · simp [here]

theorem countP_cons_toNat (p : LockGuard → Bool) (g : LockGuard) (gs : List LockGuard) :
    (g :: gs).countP p = gs.countP p + (p g).toNat := by
  rw [List.countP_cons]
  cases p g <;> rfl

theorem countP_update (nodup : (gs.map id).Nodup) (member : g ∈ gs) (here : g.id = i) :
    (update i f gs).countP p + (p g).toNat = gs.countP p + (p (f g)).toNat := by
  induction gs with
  | nil => exact nomatch member
  | cons first rest ih =>
      obtain ⟨apart, nodup⟩ := List.nodup_cons.mp nodup
      rcases List.mem_cons.mp member with rfl | later
      · have tail : update i f rest = rest := update_absent (by rwa [← here])
        have head : update i f (g :: rest) = f g :: rest := by
          rw [update, List.map_cons, if_pos here, ← update, tail]
        rw [head, countP_cons_toNat, countP_cons_toNat]
        omega
      · have other : first.id ≠ i := by
          rintro rfl
          exact apart (here ▸ List.mem_map_of_mem later)
        have head : update i f (first :: rest) = first :: update i f rest := by
          rw [update, List.map_cons, if_neg other, ← update]
        have step := ih nodup later
        rw [head, countP_cons_toNat, countP_cons_toNat]
        omega

theorem same_guard (nodup : (gs.map id).Nodup) (left : g ∈ gs) (right : h ∈ gs)
    (same : g.id = h.id) : g = h :=
  (List.inj_on_of_nodup_map nodup) left right same

/-- Owning objects of one mode. -/
def owner (isShared : Bool) (g : LockGuard) : Bool := g.owned && g.isShared == isShared

/-- Every attempt that is not cancelled points to a lock object of its mode that
is bound and does not own the mutex, and no two point to the same. -/
structure Aims (gs : List LockGuard) (ws : List Waiter) : Prop where
  each : ∀ w ∈ ws, w.body.empty = false → ∃ g ∈ gs, w.notify = some g.id ∧
    g.isShared = w.shared ∧ g.bound = true ∧ g.owned = false
  apart : ws.Pairwise fun v w => v.body.empty = false → w.body.empty = false → v.notify ≠ w.notify

theorem Aims.sublist (aims : Aims gs ws) (sub : granted.Sublist ws) : Aims gs granted where
  each w member := aims.each w (sub.subset member)
  apart := aims.apart.sublist sub

/-- A change of the object at `i` that no pending attempt notices. -/
theorem Aims.edit (aims : Aims gs ws) (same : ∀ g, (f g).id = g.id)
    (unseen : ∀ w ∈ ws, w.body.empty = false → w.notify = some i → ∀ g ∈ gs, g.id = i →
      (f g).isShared = g.isShared ∧ (f g).bound = true ∧ (f g).owned = false) :
    Aims (update i f gs) ws where
  apart := aims.apart
  each w member live := by
    obtain ⟨g, inside, notify, mode, bound, free⟩ := aims.each w member live
    by_cases here : g.id = i
    · obtain ⟨mode', bound', free'⟩ := unseen w member live (here ▸ notify) g inside here
      exact ⟨f g, mem_update inside here, by rw [same, notify], mode'.trans mode, bound', free'⟩
    · exact ⟨g, mem_update_of_ne inside here, notify, mode, bound, free⟩

/-- The grants write to the objects the attempts point to. -/
theorem Aims.grant (nodup : (gs.map id).Nodup) (aims : Aims gs (granted ++ ws))
    (live : ∀ w ∈ granted, w.body.empty = false) :
    Aims (notifyAll granted gs) ws ∧
      (notifyAll granted gs).map id = gs.map id ∧
      (∀ isShared, (notifyAll granted gs).countP (owner isShared) =
        gs.countP (owner isShared) + granted.countP (·.shared == isShared)) ∧
      ((∀ g ∈ gs, g.owned = true → g.bound = true) →
        ∀ g ∈ notifyAll granted gs, g.owned = true → g.bound = true) ∧
      ∀ g ∈ gs, (∀ w ∈ granted, w.notify ≠ some g.id) → g ∈ notifyAll granted gs := by
  induction granted generalizing gs with
  | nil => exact ⟨aims, rfl, fun _ => rfl, fun all => all, fun g member _ => member⟩
  | cons w granted ih =>
      rw [List.forall_mem_cons] at live
      obtain ⟨g, member, notify, mode, bound, free⟩ := aims.each w List.mem_cons_self live.1
      have apart := (List.pairwise_cons.mp aims.apart).1
      have one : notifyAll (w :: granted) gs =
          notifyAll granted (update g.id (setOwned true) gs) := by
        rw [notifyAll, List.foldl_cons, ← notifyAll, notify]
        rfl
      have ids : (update g.id (setOwned true) gs).map id = gs.map id := update_ids fun _ => rfl
      have rest : Aims (update g.id (setOwned true) gs) (granted ++ ws) := by
        apply (aims.sublist (List.sublist_cons_self w _)).edit (f := setOwned true) fun _ => rfl
        intro v inside alive same
        exact absurd (notify.trans same.symm) (apart v inside live.1 alive)
      obtain ⟨left, ids', counts, bounds, kept⟩ := ih (by rwa [ids]) rest live.2
      rw [one]
      refine ⟨left, ids'.trans ids, fun isShared => ?_, fun all => ?_, fun h inside others => ?_⟩
      · have step := countP_update (f := setOwned true) (p := owner isShared) nodup member rfl
        have head : (w :: granted).countP (·.shared == isShared) =
            granted.countP (·.shared == isShared) + (w.shared == isShared).toNat := by
          rw [List.countP_cons]
          cases w.shared == isShared <;> rfl
        have off : owner isShared g = false := by simp only [owner, free, Bool.false_and]
        have on : owner isShared (setOwned true g) = (w.shared == isShared) := by
          simp only [owner, setOwned, mode, Bool.true_and]
        rw [off, on, Bool.toNat_false] at step
        rw [counts, head]
        omega
      · apply bounds
        intro h inside owned
        rcases of_mem_update inside with ⟨old, member', here, rfl⟩ | ⟨member', _⟩
        · rw [same_guard nodup member' member here]
          exact bound
        · exact all h member' owned
      · rw [List.forall_mem_cons] at others
        apply kept h _ others.2
        apply mem_update_of_ne inside
        intro same
        exact others.1 (by rw [notify, same])

theorem Aims.cons (aims : Aims gs ws) (g : LockGuard) : Aims (g :: gs) ws where
  apart := aims.apart
  each w member live := by
    obtain ⟨h, inside, rest⟩ := aims.each w member live
    exact ⟨h, List.mem_cons_of_mem _ inside, rest⟩

theorem Aims.filter (aims : Aims gs ws)
    (kept : ∀ w ∈ ws, w.body.empty = false → ∀ g ∈ gs, w.notify = some g.id → p g = true) :
    Aims (gs.filter p) ws where
  apart := aims.apart
  each w member live := by
    obtain ⟨g, inside, notify, rest⟩ := aims.each w member live
    exact ⟨g, List.mem_filter.mpr ⟨inside, kept w member live g inside notify⟩, notify, rest⟩

/-- Another attempt joins the queue. -/
theorem Aims.push (aims : Aims gs ws) {w : Waiter} (member : g ∈ gs) (notify : w.notify = some g.id)
    (mode : g.isShared = w.shared) (bound : g.bound = true) (free : g.owned = false)
    (first : ∀ v ∈ ws, v.body.empty = false → v.notify ≠ some g.id) : Aims gs (ws ++ [w]) where
  each v inside live := by
    rcases List.mem_append.mp inside with old | new
    · exact aims.each v old live
    · rw [List.mem_singleton.mp new]
      exact ⟨g, member, notify, mode, bound, free⟩
  apart := by
    rw [List.pairwise_append]
    refine ⟨aims.apart, List.pairwise_singleton _ _, fun v inside u new live _ => ?_⟩
    rw [List.mem_singleton.mp new, notify]
    exact first v inside live

/-- The bodies of queued events change, and none comes back to life. -/
theorem Aims.touch (aims : Aims gs ws) (k : Waiter → Waiter)
    (same : ∀ w ∈ ws, (k w).notify = w.notify ∧ (k w).shared = w.shared)
    (dead : ∀ w ∈ ws, (k w).body.empty = false → w.body.empty = false) : Aims gs (ws.map k) where
  each w member live := by
    obtain ⟨old, inside, rfl⟩ := List.mem_map.mp member
    rw [(same old inside).1, (same old inside).2]
    exact aims.each old inside (dead old inside live)
  apart := by
    rw [List.pairwise_map]
    apply aims.apart.imp_of_mem
    intro v w left right distinct live live'
    rw [(same v left).1, (same w right).1]
    exact distinct (dead v left live) (dead w right live')

end LockGuard

end Cotamer.Mutex

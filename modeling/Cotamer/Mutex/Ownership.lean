import Cotamer.Mutex.Owners

/-! What lock objects own is what the mutex has granted, as long as no object is
locked again, moved or destroyed behind the back of its pending attempt. -/
namespace Cotamer.Mutex
open Event SwapVector Transition

/-! One operation on the mutex. -/

namespace Accounts

variable {s : Accounts} {op : Op}

/-- An operation takes a front part off the queue and grants some of it; a
request that has to wait goes to the end. -/
structure Shifts (s : Accounts) (op : Op) (rest : List Waiter) : Prop where
  front : ∃ front, s.mutex.waiters = front ++ rest ∧ (s.outcome op).granted.Sublist front
  live : ∀ w ∈ (s.outcome op).granted, w.body.empty = false
  back : (s.outcome op).mutex.waiters = rest ∨ ∃ isShared notify, op = .lock isShared notify ∧
    (s.outcome op).now = false ∧
    (s.outcome op).mutex.waiters = rest ++ [newWaiter isShared s.next notify]

theorem shifts_notify (l : Latch) (granted : (s.outcome op).granted = (notifyLocked l s.mutex.waiters).granted)
    (back : (s.outcome op).mutex.waiters = (notifyLocked l s.mutex.waiters).waiters) :
    Shifts s op (notifyLocked l s.mutex.waiters).waiters := by
  obtain ⟨front, split, sub, live⟩ := notifyLocked_front l s.mutex.waiters
  exact ⟨⟨front, split, granted ▸ sub⟩, granted ▸ live, .inl back⟩

theorem shifts_still (same : (s.outcome op).granted = [])
    (waiters : (s.outcome op).mutex.waiters = s.mutex.waiters) : Shifts s op s.mutex.waiters where
  front := ⟨[], rfl, by rw [same]⟩
  live := by
    rw [same]
    exact fun _ h => nomatch h
  back := .inl waiters

theorem shifts_lock (s : Accounts) (isShared : Bool) (notify : Option Nat) :
    ∃ rest, Shifts s (.lock isShared notify) rest := by
  by_cases grant : ((notifyLocked (latched s.mutex) s.mutex.waiters).waiters.isEmpty &&
      allow isShared (notifyLocked (latched s.mutex) s.mutex.waiters).l) = true
  · refine ⟨_, shifts_notify (latched s.mutex) ?_ ?_⟩
    · simp only [outcome, lockImpl, grant, if_true]
    · simp only [outcome, lockImpl, grant, if_true, unlatch_waiters]
  · obtain ⟨front, split, sub, live⟩ := notifyLocked_front (latched s.mutex) s.mutex.waiters
    refine ⟨_, ⟨front, split, ?_⟩, ?_, .inr ⟨isShared, notify, rfl, ?_, ?_⟩⟩
    · simpa only [outcome, lockImpl, if_neg grant] using sub
    · simpa only [outcome, lockImpl, if_neg grant] using live
    · simp only [outcome, lockImpl, if_neg grant]
    · simp only [outcome, lockImpl, if_neg grant, unlatch_waiters]

theorem tryOp_tries (isShared : Bool) (seen : Latch) : Owners.tryOp isShared seen = .tryLock ∨
    ∃ seen', Owners.tryOp isShared seen = .tryLockShared seen' := by
  cases isShared with
  | false => exact .inl rfl
  | true => exact .inr ⟨seen, rfl⟩

theorem shifts_try (isShared : Bool) (seen : Latch) :
    Shifts s (Owners.tryOp isShared seen) s.mutex.waiters := by
  obtain ⟨waiters, same⟩ := Ordered.try_waiters (tryOp_tries isShared seen) s
  exact shifts_still same waiters

theorem shifts_unlock (isShared : Bool) (seen : Latch) :
    ∃ rest, Shifts s (Guarded.unlockOp isShared seen) rest := by
  have paths : s.outcome (Guarded.unlockOp isShared seen) = unlockImpl isShared s.mutex ∨
      s.Lockless (s.outcome (Guarded.unlockOp isShared seen)) := by
    cases isShared with
    | false => exact unlock_paths s seen
    | true => exact unlockShared_paths s seen
  rcases paths with slow | ⟨same, _, waiters⟩
  · refine ⟨_, shifts_notify (latched s.mutex - lockUnit isShared) ?_ ?_⟩
    · rw [slow]
      rfl
    · rw [slow]
      exact unlatch_waiters _ _
  · exact ⟨_, shifts_still same waiters⟩

end Accounts

namespace Owners
open LockGuard

variable {s t : Owners} {op : Op} {lock source : LockGuard} {g x i : Nat} {seen : Latch}
  {f : LockGuard → LockGuard}

/-- Ownership of the lock objects is what the mutex has granted. -/
structure Tracked (s : Owners) : Prop where
  balanced : s.accounts.Balanced
  served : s.accounts.Served
  ids : (s.guards.map LockGuard.id).Nodup
  bound : ∀ g ∈ s.guards, g.owned = true → g.bound = true
  aims : Aims s.guards s.accounts.mutex.waiters
  counts : ∀ b, s.accounts.count b = s.guards.countP (owner b)

theorem guard?_some (found : s.guard? g = some lock) : lock ∈ s.guards ∧ lock.id = g :=
  ⟨List.mem_of_find?_eq_some found, by simpa using List.find?_some found⟩

theorem guard?_none (absent : ¬(s.guard? g).isSome = true) : g ∉ s.guards.map LockGuard.id := by
  intro member
  obtain ⟨lock, inside, here⟩ := List.mem_map.mp member
  have none : s.guard? g = none := by simpa using absent
  have other := List.find?_eq_none.mp none lock inside
  simp [here] at other

/-- An object that owns the mutex has no attempt pending. -/
theorem Tracked.calm (tracked : s.Tracked) (member : lock ∈ s.guards)
    (busy : lock.bound = true → lock.owned = true) : ¬s.Pending lock.id := by
  rintro ⟨w, inside, live, notify⟩
  obtain ⟨h, member', notify', _, bound, free⟩ := tracked.aims.each w inside live
  have same : h = lock := by
    apply same_guard tracked.ids member' member
    exact Option.some.inj (notify'.symm.trans notify)
  subst same
  rw [busy bound] at free
  contradiction

/-- What an operation on the mutex leaves, before the caller writes its own fields. -/
structure Performed (s : Owners) (op : Op) (t : Owners) : Prop where
  balanced : t.accounts.Balanced
  served : t.accounts.Served
  ids : t.guards.map LockGuard.id = s.guards.map LockGuard.id
  bound : ∀ g ∈ t.guards, g.owned = true → g.bound = true
  aims : ∃ rest, rest.Sublist s.accounts.mutex.waiters ∧ Aims t.guards rest ∧
    (t.accounts.mutex.waiters = rest ∨ ∃ isShared notify, op = .lock isShared notify ∧
      (s.accounts.outcome op).now = false ∧
      t.accounts.mutex.waiters = rest ++ [newWaiter isShared s.accounts.next notify])
  counts : ∀ b, t.accounts.count b + op.releases b = t.guards.countP (owner b) +
    ((s.accounts.outcome op).now && op.mode == b).toNat
  kept : ∀ g ∈ s.guards, ¬s.Pending g.id → g ∈ t.guards

theorem perform_performed (tracked : s.Tracked) (shifts : ∃ rest, s.accounts.Shifts op rest)
    (moved : s.perform op = some t) : Performed s op t := by
  obtain ⟨accounts, stepped, rfl⟩ := Option.map_eq_some_iff.mp moved
  obtain ⟨rest, ⟨front, split, sub⟩, live, back⟩ := shifts
  have releases := Accounts.releases_le stepped
  have line : ((s.accounts.outcome op).granted ++ rest).Sublist s.accounts.mutex.waiters := by
    rw [split]
    exact sub.append (List.Sublist.refl rest)
  obtain ⟨aims, ids, counts, bound, kept⟩ := (tracked.aims.sublist line).grant tracked.ids live
  constructor
  · exact Accounts.step_balanced tracked.balanced stepped
  · exact Accounts.step_served tracked.balanced tracked.served stepped
  · exact ids
  · exact bound tracked.bound
  · obtain ⟨_, rfl⟩ := Accounts.step_eq_some.mp stepped
    exact ⟨rest, (List.sublist_append_right _ _).trans line, aims, back⟩
  · intro b
    have before := tracked.counts b
    obtain ⟨_, rfl⟩ := Accounts.step_eq_some.mp stepped
    dsimp only
    rw [counts b]
    have now : (if (s.accounts.outcome op).now && op.mode == b then 1 else 0) =
        ((s.accounts.outcome op).now && op.mode == b).toNat := by
      cases (s.accounts.outcome op).now && op.mode == b <;> rfl
    cases b <;> simp only [Accounts.count, Accounts.settle, Result.grants, Bool.false_eq_true,
      if_false, if_true, now] at before ⊢ <;> omega
  · intro g member calm
    apply kept g member
    intro w granted notify
    exact calm ⟨w, line.subset (List.mem_append_left _ granted), live w granted, notify⟩

/-- Operations other than a request add nobody to the queue. -/
theorem Performed.aims' (performed : Performed s op t) (other : op.isLock = false) :
    Aims t.guards t.accounts.mutex.waiters ∧
      t.accounts.mutex.waiters.Sublist s.accounts.mutex.waiters := by
  obtain ⟨rest, sub, aims, waiters | ⟨isShared, notify, rfl, _⟩⟩ := performed.aims
  · rw [waiters]
    exact ⟨aims, sub⟩
  · contradiction

theorem pending_of_sublist (sub : t.accounts.mutex.waiters.Sublist s.accounts.mutex.waiters)
    (pending : t.Pending i) : s.Pending i := by
  obtain ⟨w, member, rest⟩ := pending
  exact ⟨w, sub.subset member, rest⟩

/-- The caller writes its own fields. -/
theorem Tracked.edited (tracked : s.Tracked) (same : ∀ g, (f g).id = g.id)
    (unseen : s.Pending i → ∀ g ∈ s.guards, g.id = i →
      (f g).isShared = g.isShared ∧ (f g).bound = true ∧ (f g).owned = false) :
    ((s.edit i f).guards.map LockGuard.id).Nodup ∧
      Aims (s.edit i f).guards s.accounts.mutex.waiters := by
  constructor
  · simp only [edit, update_ids same]
    exact tracked.ids
  · apply tracked.aims.edit same
    intro w member live notify
    exact unseen ⟨w, member, live, notify⟩

/-- A change of fields that counts the same owners. -/
theorem Tracked.edit (tracked : s.Tracked) (member : lock ∈ s.guards)
    (same : ∀ g, (f g).id = g.id) (mode : (f lock).isShared = lock.isShared)
    (owned : (f lock).owned = lock.owned) (bound : lock.bound = true → (f lock).bound = true) :
    (s.edit lock.id f).Tracked := by
  have only : ∀ g ∈ s.guards, g.id = lock.id → g = lock := fun g inside here =>
    same_guard tracked.ids inside member here
  obtain ⟨ids, aims⟩ := tracked.edited (i := lock.id) same (by
    rintro ⟨w, inside, live, notify⟩ g inside' here
    obtain ⟨h, member', notify', _, bound', free⟩ := tracked.aims.each w inside live
    have pointed := only h member' (Option.some.inj (notify'.symm.trans notify))
    rw [only g inside' here]
    rw [pointed] at bound' free
    exact ⟨mode, bound bound', owned.trans free⟩)
  constructor
  · exact tracked.balanced
  · exact tracked.served
  · exact ids
  · intro g inside held
    rcases of_mem_update inside with ⟨old, inside', here, rfl⟩ | ⟨inside', _⟩
    · rw [only old inside' here] at held ⊢
      exact bound (tracked.bound lock member (owned ▸ held))
    · exact tracked.bound g inside' held
  · exact aims
  · intro b
    have counted := countP_update (f := f) (p := owner b) tracked.ids member rfl
    have still : owner b (f lock) = owner b lock := by simp only [owner, mode, owned]
    rw [still] at counted
    have before := tracked.counts b
    simp only [Owners.edit]
    omega

/-- `m_->unlock()` before `owned_` is overwritten. -/
theorem Tracked.unlocked (tracked : s.Tracked) (member : lock ∈ s.guards)
    (moved : s.unlockOwned lock seen = some t) : (t.edit lock.id (setOwned false)).Tracked ∧
      lock ∈ t.guards ∧ t.guards.map LockGuard.id = s.guards.map LockGuard.id ∧
      (∀ g ∈ s.guards, ¬s.Pending g.id → g ∈ t.guards) ∧
      t.accounts.mutex.waiters.Sublist s.accounts.mutex.waiters := by
  unfold unlockOwned at moved
  split at moved
  · rename_i held
    have performed := perform_performed tracked (Accounts.shifts_unlock lock.isShared seen) moved
    have other : (Guarded.unlockOp lock.isShared seen).isLock = false := by
      cases lock.isShared <;> rfl
    obtain ⟨aims, sub⟩ := performed.aims' other
    have calm : ¬s.Pending lock.id := tracked.calm member fun _ => held
    have inside := performed.kept lock member calm
    have ids : (t.guards.map LockGuard.id).Nodup := performed.ids ▸ tracked.ids
    refine ⟨⟨performed.balanced, performed.served, ?_, ?_, ?_, ?_⟩, inside, performed.ids,
      performed.kept, sub⟩
    · simpa only [Owners.edit, update_ids (f := setOwned false) fun _ => rfl] using ids
    · intro g inside' owned
      rcases of_mem_update inside' with ⟨old, _, _, rfl⟩ | ⟨inside', _⟩
      · contradiction
      · exact performed.bound g inside' owned
    · apply aims.edit (f := setOwned false) fun _ => rfl
      intro w queued live notify
      exact absurd (pending_of_sublist sub ⟨w, queued, live, notify⟩) calm
    · intro b
      have counted := countP_update (f := setOwned false) (p := owner b) ids inside rfl
      have silent : (s.accounts.outcome (Guarded.unlockOp lock.isShared seen)).now = false := by
        cases lock.isShared with
        | false =>
            rcases Accounts.unlock_paths s.accounts seen with slow | ⟨_, idle, _⟩
            · simp only [Guarded.unlockOp, Bool.false_eq_true, if_false, slow, unlockImpl]
            · exact idle
        | true =>
            rcases Accounts.unlockShared_paths s.accounts seen with slow | ⟨_, idle, _⟩
            · simp only [Guarded.unlockOp, if_true, slow, unlockImpl]
            · exact idle
      have counts := performed.counts b
      have released : (Guarded.unlockOp lock.isShared seen).releases b =
          if lock.isShared = b then 1 else 0 := by
        cases lock.isShared <;> cases b <;> rfl
      have on : (owner b lock).toNat = if lock.isShared = b then 1 else 0 := by
        simp only [owner, held, Bool.true_and]
        cases lock.isShared <;> cases b <;> rfl
      have off : owner b (setOwned false lock) = false := rfl
      rw [silent, released, Bool.false_and, Bool.toNat_false] at counts
      rw [on, off, Bool.toNat_false] at counted
      simp only [Owners.edit]
      omega
  · rename_i free
    cases Option.some.inj moved
    have free : lock.owned = false := by simpa using free
    refine ⟨?_, member, rfl, fun g inside _ => inside, List.Sublist.refl _⟩
    exact tracked.edit member (fun _ => rfl) rfl free.symm fun bound => bound

/-- A new object that owns what its constructor was granted. -/
theorem Performed.construct (performed : Performed s op t) (nodup : (s.guards.map LockGuard.id).Nodup)
    (fresh : g ∉ s.guards.map LockGuard.id) (other : op.isLock = false) (keeps : ∀ b, op.releases b = 0) :
    Tracked { t with guards := ⟨g, op.mode, true, (s.accounts.outcome op).now⟩ :: t.guards } := by
  obtain ⟨aims, _⟩ := performed.aims' other
  constructor
  · exact performed.balanced
  · exact performed.served
  · rw [List.map_cons, performed.ids]
    exact List.nodup_cons.mpr ⟨fresh, nodup⟩
  · intro h inside owned
    rcases List.mem_cons.mp inside with rfl | old
    · rfl
    · exact performed.bound h old owned
  · exact aims.cons _
  · intro b
    have counts := performed.counts b
    rw [keeps, Nat.add_zero] at counts
    rw [counts, countP_cons_toNat]
    rfl

/-- A request through an object that does not own the mutex. -/
theorem Tracked.granted (tracked : s.Tracked) (shifts : ∃ rest, s.accounts.Shifts op rest)
    (member : lock ∈ s.guards) (bound : lock.bound = true) (free : lock.owned = false)
    (calm : ¬s.Pending lock.id) (keeps : ∀ b, op.releases b = 0) (mode : op.mode = lock.isShared)
    (mine : ∀ isShared notify, op = .lock isShared notify → notify = some lock.id)
    (moved : s.perform op = some t) :
    (t.edit lock.id (setOwned (s.accounts.outcome op).now)).Tracked := by
  have performed := perform_performed tracked shifts moved
  have inside := performed.kept lock member calm
  have ids : (t.guards.map LockGuard.id).Nodup := performed.ids ▸ tracked.ids
  obtain ⟨rest, sub, aims, back⟩ := performed.aims
  have first : ∀ v ∈ rest, v.body.empty = false → v.notify ≠ some lock.id := fun v queued live same =>
    calm ⟨v, sub.subset queued, live, same⟩
  constructor
  · exact performed.balanced
  · exact performed.served
  · simpa only [Owners.edit, update_ids (f := setOwned _) fun _ => rfl] using ids
  · intro h inside' owned
    rcases of_mem_update inside' with ⟨old, old', here, rfl⟩ | ⟨inside', _⟩
    · rw [same_guard ids old' inside here]
      exact bound
    · exact performed.bound h inside' owned
  · rcases back with waiters | ⟨isShared, notify, rfl, waits, waiters⟩
    · simp only [Owners.edit, waiters]
      apply aims.edit (f := setOwned _) fun _ => rfl
      intro w queued live notify
      exact absurd notify (first w queued live)
    · simp only [Owners.edit, waiters]
      obtain rfl := mine isShared notify rfl
      have joined : Aims t.guards (rest ++ [newWaiter isShared s.accounts.next (some lock.id)]) := by
        apply aims.push inside rfl _ bound free first
        rw [← mode]
        cases isShared <;> rfl
      apply joined.edit (f := setOwned _) fun _ => rfl
      intro _ _ _ _ h inside' here
      rw [same_guard ids inside' inside here, waits]
      exact ⟨rfl, bound, rfl⟩
  · intro b
    have counted := countP_update (f := setOwned (s.accounts.outcome op).now) (p := owner b) ids
      inside rfl
    have counts := performed.counts b
    have off : owner b lock = false := by simp only [owner, free, Bool.false_and]
    have on : owner b (setOwned (s.accounts.outcome op).now lock) =
        ((s.accounts.outcome op).now && op.mode == b) := by
      simp only [owner, setOwned, mode]
    rw [keeps, Nat.add_zero] at counts
    rw [on, off, Bool.toNat_false] at counted
    simp only [Owners.edit]
    omega

/-- An object that owns nothing is destroyed. -/
theorem Tracked.remove (tracked : s.Tracked) (calm : ¬s.Pending g)
    (free : ∀ lock ∈ s.guards, lock.id = g → lock.owned = false) :
    Tracked { s with guards := s.guards.filter (·.id != g) } := by
  constructor
  · exact tracked.balanced
  · exact tracked.served
  · exact tracked.ids.sublist ((List.filter_sublist).map _)
  · exact fun h inside => tracked.bound h (List.mem_of_mem_filter inside)
  · apply tracked.aims.filter
    intro w queued live h _ notify
    rw [bne_iff_ne]
    rintro rfl
    exact calm ⟨w, queued, live, notify⟩
  · intro b
    rw [List.countP_filter, tracked.counts b]
    apply List.countP_congr
    intro h inside
    by_cases here : h.id = g
    · simp [owner, free h inside here]
    · simp [here]

/-! Moves and swaps. -/

/-- The fields of another object are written over those at `i`. -/
def take (l : LockGuard) (h : LockGuard) : LockGuard := { h with bound := l.bound, owned := l.owned }

theorem exchangeFrom_eq (apart : g ≠ x) (found : s.guard? x = some source) :
    s.exchangeFrom g x =
      (s.edit x (setOwned false ∘ setBound false)).edit g (take source) := by
  simp only [exchangeFrom, found, edit, update, List.map_map, Owners.mk.injEq, true_and]
  apply List.map_congr_left
  intro h _
  simp only [Function.comp_apply, setBound, setOwned, take]
  by_cases mine : h.id = g
  · have other : h.id ≠ x := mine ▸ apart
    simp [mine, apart]
  · by_cases theirs : h.id = x
    · simp [theirs, apart.symm]
    · simp [mine, theirs]

/-- Both objects of a move or swap keep the number of owners. -/
theorem Tracked.moved (tracked : s.Tracked) (left : lock ∈ s.guards) (right : source ∈ s.guards)
    (apart : lock.id ≠ source.id) (mode : lock.isShared = source.isShared)
    {a b : LockGuard} (owners : a.owned = lock.owned ∧ b.owned = source.owned ∨
      a.owned = source.owned ∧ b.owned = lock.owned)
    (bounds : (a.owned = true → a.bound = true) ∧ (b.owned = true → b.bound = true))
    (idle : (s.Pending lock.id → a.bound = true ∧ a.owned = false) ∧
      (s.Pending source.id → b.bound = true ∧ b.owned = false)) :
    ((s.edit source.id (take b)).edit lock.id (take a)).Tracked := by
  have ids : ((update source.id (take b) s.guards).map LockGuard.id).Nodup := by
    rw [update_ids (f := take b) fun _ => rfl]
    exact tracked.ids
  have still : lock ∈ update source.id (take b) s.guards := mem_update_of_ne left apart
  have only : ∀ g ∈ update source.id (take b) s.guards, g.id = lock.id → g = lock :=
    fun g inside here => same_guard ids inside still here
  have aims : Aims (update source.id (take b) s.guards) s.accounts.mutex.waiters := by
    apply tracked.aims.edit (f := take b) fun _ => rfl
    intro w queued live notify g _ _
    exact ⟨rfl, idle.2 ⟨w, queued, live, notify⟩⟩
  constructor
  · exact tracked.balanced
  · exact tracked.served
  · simp only [Owners.edit]
    rw [update_ids (f := take a) fun _ => rfl]
    exact ids
  · intro g inside owned
    rcases of_mem_update inside with ⟨old, _, _, rfl⟩ | ⟨inside', _⟩
    · exact bounds.1 owned
    · rcases of_mem_update inside' with ⟨old, _, _, rfl⟩ | ⟨inside'', _⟩
      · exact bounds.2 owned
      · exact tracked.bound g inside'' owned
  · apply aims.edit (f := take a) fun _ => rfl
    intro w queued live notify g _ _
    exact ⟨rfl, idle.1 ⟨w, queued, live, notify⟩⟩
  · intro c
    have first := countP_update (f := take b) (p := owner c) tracked.ids right rfl
    have second := countP_update (f := take a) (p := owner c) ids still rfl
    have before := tracked.counts c
    have sums : (owner c (take a lock)).toNat + (owner c (take b source)).toNat =
        (owner c lock).toNat + (owner c source).toNat := by
      simp only [owner, take, mode]
      rcases owners with ⟨h, h'⟩ | ⟨h, h'⟩ <;> rw [h, h']
      exact Nat.add_comm _ _
    simp only [Owners.edit]
    omega

/-- Code that holds the event of an attempt changes its body. -/
theorem Tracked.touched (tracked : s.Tracked) (same : s.accounts.outcome op = s.accounts.touch event k)
    (mode : ∀ b, (k b).userFlags = b.userFlags) (keeps : ∀ b, op.releases b = 0)
    (dead : ∀ w ∈ s.accounts.mutex.waiters, w.event = event → (k w.body).empty = false →
      w.body.empty = false) (moved : s.perform op = some t) : t.Tracked := by
  obtain ⟨accounts, stepped, rfl⟩ := Option.map_eq_some_iff.mp moved
  have balanced := Accounts.step_balanced tracked.balanced stepped
  have served := Accounts.step_served tracked.balanced tracked.served stepped
  obtain ⟨_, rfl⟩ := Accounts.step_eq_some.mp stepped
  rw [same] at balanced served ⊢
  refine ⟨balanced, served, tracked.ids, tracked.bound, ?_, fun b => ?_⟩
  · apply tracked.aims.touch
    · intro w _
      split
      · simp only [Waiter.shared, mode, and_self]
      · exact ⟨rfl, rfl⟩
    · intro w inside live
      split at live
      · exact dead w inside ‹_› live
      · exact live
  · have before := tracked.counts b
    cases b <;> simpa [Accounts.count, Accounts.settle, keeps, Result.grants, Accounts.touch,
      notifyAll] using before

theorem reachable_live (reached : s.reachable event = true) {w : Waiter}
    (inside : w ∈ s.accounts.mutex.waiters) (here : w.event = event)
    (free : w.body.triggered = false) : w.body.empty = false := by
  have several := List.all_eq_true.mp reached w inside
  have more : 1 < w.body.refcount := by simpa [here] using several
  have other : w.body.refcount ≠ 1 := by omega
  simp [EventBody.empty, free, other]

/-- A moved or copied object at a new address. -/
theorem Tracked.construct (tracked : s.Tracked) (member : source ∈ s.guards) (calm : ¬s.Pending source.id)
    (fresh : g ∉ s.guards.map LockGuard.id) :
    Tracked ⟨s.accounts,
      { source with id := g } :: update source.id (setOwned false ∘ setBound false) s.guards⟩ := by
  obtain ⟨ids, aims⟩ := tracked.edited (f := setOwned false ∘ setBound false) (i := source.id)
    (fun _ => rfl) (fun pending => absurd pending calm)
  constructor
  · exact tracked.balanced
  · exact tracked.served
  · rw [List.map_cons, List.nodup_cons]
    refine ⟨?_, ids⟩
    rw [update_ids (f := setOwned false ∘ setBound false) fun _ => rfl]
    exact fresh
  · intro h inside owned
    rcases List.mem_cons.mp inside with rfl | old
    · exact tracked.bound source member owned
    · rcases of_mem_update old with ⟨_, _, _, rfl⟩ | ⟨inside', _⟩
      · contradiction
      · exact tracked.bound h inside' owned
  · exact aims.cons _
  · intro b
    have counted := countP_update (f := setOwned false ∘ setBound false) (p := owner b) tracked.ids
      member rfl
    have before := tracked.counts b
    have off : owner b ((setOwned false ∘ setBound false) source) = false := rfl
    have same : owner b { source with id := g } = owner b source := rfl
    rw [off, Bool.toNat_false] at counted
    rw [countP_cons_toNat, same]
    dsimp only
    omega

/-- A deferred object refers to the mutex only. -/
theorem Tracked.defer (tracked : s.Tracked) (fresh : g ∉ s.guards.map LockGuard.id) (isShared : Bool) :
    Tracked { s with guards := ⟨g, isShared, true, false⟩ :: s.guards } where
  balanced := tracked.balanced
  served := tracked.served
  ids := List.nodup_cons.mpr ⟨fresh, tracked.ids⟩
  bound h inside owned := by
    rcases List.mem_cons.mp inside with rfl | old
    · rfl
    · exact tracked.bound h old owned
  aims := tracked.aims.cons _
  counts b := by
    rw [countP_cons_toNat]
    exact tracked.counts b

theorem guard?_of_mem (nodup : (s.guards.map LockGuard.id).Nodup) (member : lock ∈ s.guards) :
    s.guard? lock.id = some lock := by
  cases found : s.guard? lock.id with
  | none =>
      have other := List.find?_eq_none.mp found lock member
      simp at other
  | some h =>
      obtain ⟨inside, here⟩ := guard?_some found
      rw [same_guard nodup inside member here]

theorem tryOp_mode (isShared : Bool) (seen : Latch) : (tryOp isShared seen).mode = isShared ∧
    (tryOp isShared seen).isLock = false ∧ ∀ b, (tryOp isShared seen).releases b = 0 := by
  cases isShared <;> exact ⟨rfl, rfl, fun _ => rfl⟩

theorem edit_self (nodup : (s.guards.map LockGuard.id).Nodup) (member : lock ∈ s.guards)
    (still : f lock = lock) : s.edit lock.id f = s := by
  have same : update lock.id f s.guards = s.guards := by
    conv_rhs => rw [← List.map_id s.guards]
    apply List.map_congr_left
    intro h inside
    split
    · rename_i here
      rw [same_guard nodup inside member here, still]
      rfl
    · rfl
  rw [edit, same]

theorem exchange_self (nodup : (s.guards.map LockGuard.id).Nodup) (member : lock ∈ s.guards) :
    s.exchangeFrom lock.id lock.id = s := by
  simp only [exchangeFrom, guard?_of_mem nodup member]
  have whole : (((s.edit lock.id (setBound false)).edit lock.id (setBound lock.bound)).edit lock.id
      (setOwned false)).edit lock.id (setOwned lock.owned) = s.edit lock.id (take lock) := by
    simp only [edit, update, List.map_map, Owners.mk.injEq, true_and]
    apply List.map_congr_left
    intro h _
    by_cases here : h.id = lock.id <;> simp [here, setBound, setOwned, take]
  rw [whole]
  exact edit_self nodup member rfl

theorem Tracked.moveAssign (tracked : s.Tracked) (careful : s.Careful (.moveAssign g x seen))
    (moved : s.step (.moveAssign g x seen) = some t) : t.Tracked := by
  obtain ⟨lock, found, moved⟩ := Option.bind_eq_some_iff.mp moved
  obtain ⟨source, found', moved⟩ := Option.bind_eq_some_iff.mp moved
  split at moved
  · rename_i mode
    obtain ⟨u, released, rfl⟩ := Option.map_eq_some_iff.mp moved
    obtain ⟨left, rfl⟩ := guard?_some found
    obtain ⟨right, rfl⟩ := guard?_some found'
    by_cases self : lock.id = source.id
    · have free : lock.owned = false := by
        rw [Careful, if_pos self] at careful
        exact careful lock found
      simp only [unlockOwned, free, Bool.false_eq_true, if_false, Option.some.injEq] at released
      rw [← released, ← self, exchange_self tracked.ids left]
      exact tracked
    · rw [Careful, if_neg self] at careful
      obtain ⟨clear, still, ids, kept, sub⟩ := tracked.unlocked left released
      have nodup : (u.guards.map LockGuard.id).Nodup := ids ▸ tracked.ids
      have source' : source ∈ u.guards := kept source right careful.1
      have nulled : LockGuard := { source with bound := false, owned := false }
      rw [exchangeFrom_eq self (guard?_of_mem nodup source')]
      have whole : (u.edit source.id (setOwned false ∘ setBound false)).edit lock.id (take source) =
          ((u.edit lock.id (setOwned false)).edit source.id
            (take { source with bound := false, owned := false })).edit lock.id (take source) := by
        simp only [Owners.edit, update, List.map_map, Owners.mk.injEq, true_and]
        apply List.map_congr_left
        intro h _
        by_cases mine : h.id = lock.id
        · have other : h.id ≠ source.id := mine ▸ self
          simp [mine, self, setOwned, take]
        · by_cases theirs : h.id = source.id
          · simp [theirs, Ne.symm self, setOwned, setBound, take]
          · simp [mine, theirs]
      rw [whole]
      have still : setOwned false lock ∈ (u.edit lock.id (setOwned false)).guards :=
        mem_update still rfl
      apply clear.moved still
      · exact mem_update_of_ne source' (Ne.symm self)
      · exact self
      · exact mode
      · exact .inr ⟨rfl, rfl⟩
      · exact ⟨tracked.bound source right, by rintro ⟨⟩⟩
      · constructor
        · intro pending
          exact careful.2 (pending_of_sublist sub pending) source found'
        · intro pending
          exact absurd (pending_of_sublist sub pending) careful.1
  · contradiction

theorem Tracked.swapped (tracked : s.Tracked) (careful : s.Careful (.swap g x))
    (moved : s.step (.swap g x) = some t) : t.Tracked := by
  obtain ⟨lock, found, moved⟩ := Option.bind_eq_some_iff.mp moved
  obtain ⟨source, found', moved⟩ := Option.bind_eq_some_iff.mp moved
  split at moved
  · contradiction
  · rename_i mode
    obtain ⟨left, rfl⟩ := guard?_some found
    obtain ⟨right, rfl⟩ := guard?_some found'
    split at moved
    · cases Option.some.inj moved
      exact tracked
    · rename_i apart
      cases Option.some.inj moved
      obtain ⟨idle, idle'⟩ := careful apart
      apply tracked.moved right left (Ne.symm apart) (not_not.mp mode).symm (.inr ⟨rfl, rfl⟩)
      · exact ⟨tracked.bound lock left, tracked.bound source right⟩
      · constructor
        · exact fun pending => idle' pending lock found
        · exact fun pending => idle pending source found'

theorem Tracked.destroyed (tracked : s.Tracked) (careful : ¬s.Pending g)
    (moved : s.step (.destroy g seen) = some t) : t.Tracked := by
  obtain ⟨lock, found, moved⟩ := Option.bind_eq_some_iff.mp moved
  obtain ⟨u, released, rfl⟩ := Option.map_eq_some_iff.mp moved
  obtain ⟨member, rfl⟩ := guard?_some found
  obtain ⟨clear, still, _, _, sub⟩ := tracked.unlocked member released
  have gone : (u.edit lock.id (setOwned false)).guards.filter (·.id != lock.id) =
      u.guards.filter (·.id != lock.id) := filter_update fun _ => rfl
  have left := clear.remove (g := lock.id) (fun pending => careful (pending_of_sublist sub pending)) (by
    intro h inside here
    rcases of_mem_update inside with ⟨old, _, _, rfl⟩ | ⟨_, other⟩
    · rfl
    · exact absurd here other)
  rwa [gone] at left

/-- An attempt that was not granted. -/
theorem Performed.idle (performed : Performed s op t) (nodup : (s.guards.map LockGuard.id).Nodup)
    (other : op.isLock = false) (keeps : ∀ b, op.releases b = 0)
    (failed : (s.accounts.outcome op).now = false) : t.Tracked where
  balanced := performed.balanced
  served := performed.served
  ids := performed.ids ▸ nodup
  bound := performed.bound
  aims := (performed.aims' other).1
  counts b := by
    have counts := performed.counts b
    rwa [keeps, failed, Bool.false_and, Bool.toNat_false] at counts

theorem Tracked.tried (tracked : s.Tracked) (member : lock ∈ s.guards) (bound : lock.bound = true)
    (free : lock.owned = false) (moved : s.perform (tryOp lock.isShared seen) = some t) :
    (t.edit lock.id (setOwned (s.accounts.outcome (tryOp lock.isShared seen)).now)).Tracked := by
  obtain ⟨mode, other, keeps⟩ := tryOp_mode lock.isShared seen
  have shifts : ∃ rest, s.accounts.Shifts (tryOp lock.isShared seen) rest :=
    ⟨_, Accounts.shifts_try lock.isShared seen⟩
  by_cases calm : s.Pending lock.id
  · -- a queued attempt makes the new one fail
    obtain ⟨w, queued, _⟩ := calm
    have failed : (s.accounts.outcome (tryOp lock.isShared seen)).now = false := by
      cases took : (s.accounts.outcome (tryOp lock.isShared seen)).now with
      | false => rfl
      | true =>
          have nobody := Ordered.try_nobody tracked.balanced
            (Accounts.tryOp_tries lock.isShared seen) took
          rw [nobody] at queued
          exact nomatch queued
    have idle := (perform_performed tracked shifts moved).idle tracked.ids other keeps failed
    have same : t.guards = s.guards := by
      obtain ⟨accounts, _, rfl⟩ := Option.map_eq_some_iff.mp moved
      rw [(Ordered.try_waiters (Accounts.tryOp_tries lock.isShared seen) s.accounts).2]
      rfl
    have still : setOwned false lock = lock := by rw [setOwned, ← free]
    rw [failed, edit_self idle.ids (same ▸ member) still]
    exact idle
  · apply tracked.granted shifts member bound free calm keeps mode _ moved
    intro isShared notify same
    rw [same] at other
    contradiction

theorem Tracked.step (tracked : s.Tracked) {op : OwnerOp} (careful : s.Careful op)
    (moved : s.step op = some t) : t.Tracked := by
  cases op with
  | defer g isShared =>
      simp only [Owners.step] at moved
      split at moved
      · contradiction
      · cases Option.some.inj moved
        exact tracked.defer (guard?_none ‹_›) isShared
  | tryToLock g isShared seen =>
      simp only [Owners.step] at moved
      split at moved
      · contradiction
      · obtain ⟨u, performs, rfl⟩ := Option.map_eq_some_iff.mp moved
        obtain ⟨mode, other, keeps⟩ := tryOp_mode isShared seen
        have performed := perform_performed tracked ⟨_, Accounts.shifts_try isShared seen⟩ performs
        have made := performed.construct tracked.ids (guard?_none ‹_›) other keeps
        rwa [mode] at made
  | lock g =>
      obtain ⟨lock, found, moved⟩ := Option.bind_eq_some_iff.mp moved
      split at moved
      · cases Option.some.inj moved
        exact tracked
      · rename_i ready
        obtain ⟨bound, free⟩ : lock.bound = true ∧ lock.owned = false := by simpa using ready
        obtain ⟨member, rfl⟩ := guard?_some found
        obtain ⟨u, performs, rfl⟩ := Option.map_eq_some_iff.mp moved
        have made := tracked.granted (Accounts.shifts_lock s.accounts lock.isShared (some lock.id))
          member bound free careful (fun _ => rfl) rfl (fun _ _ same => by cases same; rfl) performs
        cases took : (s.accounts.outcome (.lock lock.isShared (some lock.id))).now with
        | true => simpa only [took, if_true] using made
        | false =>
            rw [took] at made
            have performed := perform_performed tracked
              (Accounts.shifts_lock s.accounts lock.isShared (some lock.id)) performs
            have inside := performed.kept lock member careful
            have still : setOwned false lock = lock := by rw [setOwned, ← free]
            rwa [edit_self (performed.ids ▸ tracked.ids) inside still] at made
  | tryLock g seen =>
      obtain ⟨lock, found, moved⟩ := Option.bind_eq_some_iff.mp moved
      split at moved
      · cases Option.some.inj moved
        exact tracked
      · rename_i ready
        obtain ⟨bound, free⟩ : lock.bound = true ∧ lock.owned = false := by simpa using ready
        obtain ⟨member, rfl⟩ := guard?_some found
        obtain ⟨u, performs, rfl⟩ := Option.map_eq_some_iff.mp moved
        exact tracked.tried member bound free performs
  | unlock g seen =>
      obtain ⟨lock, found, moved⟩ := Option.bind_eq_some_iff.mp moved
      split at moved
      · cases Option.some.inj moved
        exact tracked
      · obtain ⟨member, rfl⟩ := guard?_some found
        obtain ⟨u, released, rfl⟩ := Option.map_eq_some_iff.mp moved
        exact (tracked.unlocked member released).1
  | moveConstruct g x =>
      obtain ⟨source, found, moved⟩ := Option.bind_eq_some_iff.mp moved
      split at moved
      · contradiction
      · cases Option.some.inj moved
        obtain ⟨member, rfl⟩ := guard?_some found
        exact tracked.construct member careful (guard?_none ‹_›)
  | moveAssign g x seen => exact tracked.moveAssign careful moved
  | swap g x => exact tracked.swapped careful moved
  | destroy g seen => exact tracked.destroyed careful moved
  | listen event l =>
      simp only [Owners.step] at moved
      split at moved
      · apply tracked.touched (k := fun b => { b with listeners := b.listeners ++ [l] }) rfl (fun _ => rfl) (fun _ => rfl) _ moved
        intro w inside here live
        refine reachable_live ‹_› inside here ?_
        simp only [EventBody.empty, Bool.or_eq_false_iff] at live
        exact live.1
      · contradiction
  | unlisten event l =>
      apply tracked.touched (k := fun b => { b with listeners := swapErase l b.listeners }) rfl (fun _ => rfl) (fun _ => rfl) _ moved
      intro w _ _ live
      simp only [EventBody.empty, Bool.or_eq_false_iff] at live ⊢
      refine ⟨live.1, ?_⟩
      cases listed : w.body.listeners with
      | nil =>
          rw [listed] at live
          exact live.2
      | cons => rfl
  | copyHandle event =>
      simp only [Owners.step] at moved
      split at moved
      · apply tracked.touched (k := fun b => { b with refcount := b.refcount + 1 }) rfl (fun _ => rfl) (fun _ => rfl) _ moved
        intro w inside here live
        refine reachable_live ‹_› inside here ?_
        simp only [EventBody.empty, Bool.or_eq_false_iff] at live
        exact live.1
      · contradiction
  | dropHandle event =>
      simp only [Owners.step] at moved
      split at moved
      · apply tracked.touched (k := fun b => { b with refcount := b.refcount - 1 }) rfl (fun _ => rfl) (fun _ => rfl) _ moved
        intro w inside here live
        refine reachable_live ‹_› inside here ?_
        simp only [EventBody.empty, Bool.or_eq_false_iff] at live
        exact live.1
      · contradiction

/-! Exclusion: the latch is what the lock objects own, and what is granted to those in line. -/

theorem perform_accounts (moved : s.perform op = some t) : s.accounts.step op = some t.accounts := by
  obtain ⟨accounts, stepped, rfl⟩ := Option.map_eq_some_iff.mp moved
  exact stepped

/-- At most one operation on the mutex. -/
def Follows (s t : Accounts) : Prop := t = s ∨ ∃ op, s.step op = some t

theorem unlockOwned_follows (moved : s.unlockOwned lock seen = some t) :
    Follows s.accounts t.accounts := by
  unfold unlockOwned at moved
  split at moved
  · exact .inr ⟨_, perform_accounts moved⟩
  · cases Option.some.inj moved
    exact .inl rfl

theorem exchangeFrom_accounts (s : Owners) (g x : Nat) : (s.exchangeFrom g x).accounts = s.accounts := by
  unfold exchangeFrom
  split <;> rfl

theorem step_follows {op : OwnerOp} (moved : s.step op = some t) : Follows s.accounts t.accounts := by
  cases op with
  | defer g isShared =>
      simp only [Owners.step] at moved
      split at moved
      · contradiction
      · cases Option.some.inj moved
        exact .inl rfl
  | tryToLock g isShared seen =>
      simp only [Owners.step] at moved
      split at moved
      · contradiction
      · obtain ⟨u, performs, rfl⟩ := Option.map_eq_some_iff.mp moved
        have follows := perform_accounts performs
        exact .inr ⟨_, follows⟩
  | lock g =>
      obtain ⟨lock, _, moved⟩ := Option.bind_eq_some_iff.mp moved
      split at moved
      · cases Option.some.inj moved
        exact .inl rfl
      · obtain ⟨u, performs, rfl⟩ := Option.map_eq_some_iff.mp moved
        refine .inr ⟨_, (perform_accounts performs).trans ?_⟩
        split <;> rfl
  | tryLock g seen =>
      obtain ⟨lock, _, moved⟩ := Option.bind_eq_some_iff.mp moved
      split at moved
      · cases Option.some.inj moved
        exact .inl rfl
      · obtain ⟨u, performs, rfl⟩ := Option.map_eq_some_iff.mp moved
        have follows := perform_accounts performs
        exact .inr ⟨_, follows⟩
  | unlock g seen =>
      obtain ⟨lock, _, moved⟩ := Option.bind_eq_some_iff.mp moved
      split at moved
      · cases Option.some.inj moved
        exact .inl rfl
      · obtain ⟨u, released, rfl⟩ := Option.map_eq_some_iff.mp moved
        have follows := unlockOwned_follows released
        exact follows
  | moveConstruct g x =>
      obtain ⟨source, _, moved⟩ := Option.bind_eq_some_iff.mp moved
      split at moved
      · contradiction
      · cases Option.some.inj moved
        exact .inl rfl
  | moveAssign g x seen =>
      obtain ⟨lock, _, moved⟩ := Option.bind_eq_some_iff.mp moved
      obtain ⟨source, _, moved⟩ := Option.bind_eq_some_iff.mp moved
      split at moved
      · obtain ⟨u, released, rfl⟩ := Option.map_eq_some_iff.mp moved
        rw [exchangeFrom_accounts]
        exact unlockOwned_follows released
      · contradiction
  | swap g x =>
      obtain ⟨lock, _, moved⟩ := Option.bind_eq_some_iff.mp moved
      obtain ⟨source, _, moved⟩ := Option.bind_eq_some_iff.mp moved
      split at moved
      · contradiction
      · split at moved <;> cases Option.some.inj moved <;> exact .inl rfl
  | destroy g seen =>
      obtain ⟨lock, _, moved⟩ := Option.bind_eq_some_iff.mp moved
      obtain ⟨u, released, rfl⟩ := Option.map_eq_some_iff.mp moved
      have follows := unlockOwned_follows released
      exact follows
  | unlisten event l => exact .inr ⟨_, perform_accounts moved⟩
  | listen event l | copyHandle event | dropHandle event =>
      simp only [Owners.step] at moved
      split at moved
      · exact .inr ⟨_, perform_accounts moved⟩
      · contradiction

theorem Follows.exclusive {s t : Accounts} (follows : Follows s t) (balanced : s.Balanced)
    (exclusive : Exclusive s.excl s.shared) (few : s.shared < 2 ^ 28) (still : t.shared < 2 ^ 28) :
    Exclusive t.excl t.shared := by
  rcases follows with rfl | ⟨op, stepped⟩
  · exact exclusive
  · exact Accounts.step_exclusive balanced exclusive few stepped still

theorem initial_tracked : Tracked {} where
  balanced := rfl
  served queued := absurd rfl queued
  ids := List.nodup_nil
  bound _ member := nomatch member
  aims := ⟨(fun _ member => nomatch member), List.Pairwise.nil⟩
  counts b := by cases b <;> rfl

theorem reached_tracked (path : Reaches step {} ops s) (careful : Meets step Careful {} ops)
    (few : Always step (fun s => s.owning true < 2 ^ 28) {} ops) :
    s.Tracked ∧ Exclusive s.accounts.excl s.accounts.shared := by
  apply path.guardedWithin (Q := fun s => s.Tracked ∧ Exclusive s.accounts.excl s.accounts.shared) _
    careful few
  · refine ⟨initial_tracked, ?_⟩
    exact ⟨Nat.zero_le 1, fun held => absurd held (Nat.lt_irrefl 0)⟩
  · intro s op t both few still careful moved
    have tracked := both.1.step careful moved
    have before : s.accounts.shared < 2 ^ 28 := by
      rw [show s.accounts.shared = s.owning true from both.1.counts true]
      exact few
    have after : t.accounts.shared < 2 ^ 28 := by
      rw [show t.accounts.shared = t.owning true from tracked.counts true]
      exact still
    exact ⟨tracked, (step_follows moved).exclusive both.1.balanced both.2 before after⟩

/-- The latch word counts the objects that own the mutex, each of them refers to
it, and the mutex is free when all objects are gone. -/
theorem guards_own_grants (path : Reaches step {} ops s) (careful : Meets step Careful {} ops)
    (few : Always step (fun s => s.owning true < 2 ^ 28) {} ops) :
    s.accounts.mutex.latch.toNat =
        8 * s.owning false + 16 * s.owning true + nextInLine s.accounts.mutex.waiters ∧
      s.owning false ≤ 1 ∧ (∀ g ∈ s.guards, g.owned = true → g.bound = true) ∧
      (s.guards = [] → s.accounts.mutex = {}) := by
  obtain ⟨tracked, exclusive⟩ := reached_tracked path careful few
  have bound : s.owning true < 2 ^ 28 := by
    rw [← List.append_nil ops] at few
    exact few.reached path
  have excl : s.accounts.excl = s.owning false := tracked.counts false
  have shared : s.accounts.shared = s.owning true := tracked.counts true
  have balanced := tracked.balanced
  rw [excl, shared] at exclusive
  refine ⟨?_, exclusive.1, tracked.bound, fun gone => ?_⟩
  · rw [Accounts.Balanced, excl, shared] at balanced
    rw [balanced]
    have small := nextInLine_small s.accounts.mutex.waiters
    exact word_toNat exclusive bound (by omega)
  · have none : s.accounts.excl = 0 ∧ s.accounts.shared = 0 := by
      rw [excl, shared, owning, owning, gone]
      exact ⟨rfl, rfl⟩
    have nobody : s.accounts.mutex.waiters = [] := by
      by_contra queued
      have held := tracked.served queued
      omega
    rw [Accounts.Balanced, none.1, none.2, nobody] at balanced
    cases same : s.accounts.mutex with
    | mk latch waiters =>
        rw [same] at balanced nobody
        simp only at balanced nobody
        rw [balanced, nobody]
        rfl

/-- Lock object 1 waits for object 0, which is then destroyed, and is moved to 2. -/
theorem guards_own_grants_moved :
    let ops : List OwnerOp := [.defer 0 false, .lock 0, .defer 1 false, .lock 1, .destroy 0 10#32,
      .moveConstruct 2 1]
    ∃ s, Reaches step {} ops s ∧ s.owning false = 1 ∧ s.accounts.mutex.latch.toNat =
        8 * s.owning false + 16 * s.owning true + nextInLine s.accounts.mutex.waiters ∧
      s.owning false ≤ 1 ∧ (∀ g ∈ s.guards, g.owned = true → g.bound = true) ∧
      (s.guards = [] → s.accounts.mutex = {}) := by
  intro ops
  have path : Reaches step {} ops _ := run_iff_reaches.mp rfl
  exact ⟨_, path, by decide, guards_own_grants path (by decide) (by decide)⟩

/-- A lock object that owns the mutex is moved to itself: the mutex is unlocked
and the object still claims it. -/
theorem self_move_keeps_owned :
    ∃ s, Reaches step {} [.defer 0 false, .lock 0, .moveAssign 0 0 8#32] s ∧
      s.owning false = 1 ∧ s.accounts.mutex.latch = 0#32 :=
  ⟨_, run_iff_reaches.mp rfl, by decide, by decide⟩

end Owners
end Cotamer.Mutex

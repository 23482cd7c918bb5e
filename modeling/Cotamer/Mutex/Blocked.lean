import Cotamer.Mutex.Accounting

/-! The front of the queue. A waiter at the front, cancelled or not, is kept out
by the locks that are held: every path that changes the latch word either runs
`notify_locked` or leaves enough behind to block the front waiter. -/
namespace Cotamer.Mutex
open Event PackedWord Transition

variable {waiters : List Waiter} {w : Waiter} {l : Latch}

/-- The front waiter's mode is incompatible with the locks held. -/
def FrontBlocked (l : Latch) (waiters : List Waiter) : Prop :=
  ∀ fw ∈ waiters.head?, allow fw.shared l = false

theorem notifyLocked_blocked (l : Latch) (waiters : List Waiter) :
    FrontBlocked (notifyLocked l waiters).l (notifyLocked l waiters).waiters := by
  induction waiters generalizing l with
  | nil => exact fun _ front => nomatch front
  | cons fw rest ih =>
      rcases notifyLocked_cons l fw rest with skipped | ⟨blocked, stopped⟩ | ⟨_, _, taken⟩
      · rw [skipped]
        exact ih l
      · rw [stopped]
        intro fw' front
        cases Option.some.inj front
        exact blocked
      · rw [taken]
        exact ih (l + lockUnit fw.shared)

theorem FrontBlocked.append (blocked : FrontBlocked l waiters) (denied : waiters = [] →
    allow w.shared l = false) : FrontBlocked l (waiters ++ [w]) := by
  cases waiters with
  | nil =>
      intro fw front
      cases Option.some.inj front
      exact denied rfl
  | cons fw rest => exact blocked

/-- Below one exclusive lock the word allows every mode. -/
theorem allow_small (small : l < mfLockExcl) (isShared : Bool) : allow isShared l = true := by
  have bound : l.toNat < 8 := small
  cases isShared with
  | false => simpa only [allow, Bool.false_eq_true, if_false, decide_eq_true_eq] using small
  | true =>
      have value : l = BitVec.ofNat 32 l.toNat := by simp
      rw [value]
      generalize l.toNat = n at bound
      interval_cases n <;> decide

/-- A shared waiter is blocked by exclusive locks only. -/
theorem excl_of_blocked (blocked : allow true (word excl shared 0) = false) : 0 < excl := by
  by_contra free
  obtain rfl : excl = 0 := by omega
  have bit : word 0 shared 0 &&& mfLockExcl = 0#32 := by
    rw [word_eq_pack_excl, mfLockExcl, pack_and (by decide) (by decide)]
    rfl
  simp [allow, bit] at blocked

namespace Accounts

variable {s t : Accounts} {op : Op}

/-- The front waiter is blocked by the grants that are outstanding. -/
def Blocked (s : Accounts) : Prop := FrontBlocked (word s.excl s.shared 0) s.mutex.waiters

theorem blocked_touch (blocked : s.Blocked) (same : s.outcome op = s.touch event f)
    (mode : ∀ b, (f b).userFlags = b.userFlags) (reader : ∀ b, op.releases b = 0) :
    (s.settle op (s.outcome op)).Blocked := by
  have counts : ∀ b, (s.outcome op).grants op.mode b = 0 := by
    intro b
    rw [same]
    rfl
  simp only [Blocked, settle, counts, reader, Nat.sub_zero, Nat.add_zero]
  rw [same]
  intro fw front
  simp only [touch, updateWaiter, List.head?_map, Option.mem_def, Option.map_eq_some_iff] at front
  obtain ⟨old, first, rfl⟩ := front
  have kept := blocked old first
  split
  · simpa only [Waiter.shared, mode] using kept
  · exact kept

theorem blocked_lock (balanced : s.Balanced) (isShared : Bool) (notify : Option Nat) :
    (s.settle (.lock isShared notify) (s.outcome (.lock isShared notify))).Blocked := by
  have after := (notifyLocked_word s.mutex.waiters s.excl s.shared).1
  have front := notifyLocked_blocked (word s.excl s.shared 0) s.mutex.waiters
  simp only [outcome, lockImpl, latched_word balanced]
  generalize notifyLocked (word s.excl s.shared 0) s.mutex.waiters = r at after front ⊢
  split
  · rename_i grant
    have drained := List.isEmpty_iff.mp (Bool.and_eq_true_iff.mp grant).1
    simp only [Blocked, settle, unlatch_waiters, drained]
    rintro _ ⟨⟩
  · rename_i wait
    simp only [Blocked, settle, Result.grants, Op.releases, unlatch_waiters, Bool.false_and,
      Bool.false_eq_true, if_false, Nat.sub_zero, Nat.add_zero]
    rw [after] at front wait
    apply front.append
    intro drained
    have mode : (newWaiter isShared s.next notify).shared = isShared := by
      cases isShared <;> rfl
    rw [mode]
    simpa [drained] using wait

theorem blocked_unlockImpl (balanced : s.Balanced) (isShared : Bool)
    (held : 0 < if isShared then s.shared else s.excl)
    (slow : s.outcome op = unlockImpl isShared s.mutex)
    (released : ∀ b, op.releases b = if b = isShared then 1 else 0) :
    (s.settle op (s.outcome op)).Blocked := by
  have after := (notifyLocked_word s.mutex.waiters (s.excl - if isShared then 0 else 1)
    (s.shared - if isShared then 1 else 0)).1
  have front := notifyLocked_blocked (word (s.excl - if isShared then 0 else 1)
    (s.shared - if isShared then 1 else 0) 0) s.mutex.waiters
  rw [slow, unlockImpl_word balanced isShared held]
  generalize notifyLocked (word (s.excl - if isShared then 0 else 1)
    (s.shared - if isShared then 1 else 0) 0) s.mutex.waiters = r at after front ⊢
  simp only [Blocked, settle, Result.grants, released, unlatch_waiters, Bool.false_and,
    Bool.false_eq_true, if_false, Nat.add_zero]
  rw [after] at front
  cases isShared <;> exact front

/-- A compare-exchange that takes nobody off the queue finds it empty. -/
theorem blocked_nobody (nobody : (s.outcome op).mutex.waiters = []) :
    (s.settle op (s.outcome op)).Blocked := by
  simp only [Blocked, settle, nobody]
  rintro _ ⟨⟩

theorem tryLock_nobody (balanced : s.Balanced) (took : (s.outcome .tryLock).now = true) :
    s.mutex.waiters = [] := by
  simp only [outcome, Mutex.tryLock] at took
  cases swapped : exchange s.mutex 0#32 mfLockExcl with
  | none => simp [swapped] at took
  | some m =>
      obtain ⟨free, _⟩ := exchange_eq_some.mp swapped
      rw [← word_next s.excl s.shared, ← balanced, free]
      decide

theorem tryLockShared_nobody (balanced : s.Balanced)
    (took : (s.outcome (.tryLockShared seen)).now = true) : s.mutex.waiters = [] := by
  simp only [outcome, Mutex.tryLockShared] at took
  split at took
  · contradiction
  · rename_i clear
    cases swapped : exchange s.mutex seen (seen + mfLockShared) with
    | none => simp [swapped] at took
    | some m =>
        obtain ⟨rfl, _⟩ := exchange_eq_some.mp swapped
        have zero : s.mutex.latch &&& (mfLatch ||| mfmNext ||| mfLockExcl) = 0#32 :=
          not_not.mp clear
        have mask : mfLatch ||| mfmNext = (mfLatch ||| mfmNext ||| mfLockExcl) &&&
            (mfLatch ||| mfmNext) := by decide
        rw [← word_next s.excl s.shared, ← balanced, mask, ← BitVec.and_assoc, zero,
          BitVec.zero_and]

/-- The fast path of `unlock_shared` leaves a shared grant that blocks the
exclusive waiter in front. -/
theorem blocked_fastShared (balanced : s.Balanced) (held : 0 < s.shared)
    (guard : s.mutex.latch &&& (mfLatch ||| mfNextShared) = 0#32 ∧
      (s.mutex.latch &&& mfNextExcl = 0#32 ∨ 2#32 * mfLockShared ≤ s.mutex.latch)) :
    FrontBlocked (word s.excl (s.shared - 1) 0) s.mutex.waiters := by
  obtain ⟨noShared, noExcl⟩ := guard
  intro fw front
  obtain ⟨rest, line⟩ := List.head?_eq_some_iff.mp front
  have mask : mfLatch ||| mfNextShared = BitVec.ofNat 32 5 := by decide
  have small := nextInLine_small s.mutex.waiters
  rw [mask, balanced, word_and (by omega) (by decide)] at noShared
  rw [mfNextExcl, balanced, word_and (by omega) (by decide), ← mfNextExcl, ← balanced] at noExcl
  rw [line] at noShared noExcl
  cases mode : fw.shared with
  | true => simp [nextInLine, mode] at noShared
  | false =>
      rcases noExcl with next | several
      · simp [nextInLine, mode] at next
      · have least : 32 ≤ s.mutex.latch.toNat := several
        rw [balanced, line, word, BitVec.toNat_ofNat] at least
        simp only [nextInLine, mode, Bool.false_eq_true, if_false] at least
        simp only [allow, Bool.false_eq_true, if_false, decide_eq_false_iff_not, BitVec.lt_def,
          word, BitVec.toNat_ofNat, mfLockExcl]
        omega

/-- A request that does not wait and fails changes nothing. -/
theorem blocked_unchanged (blocked : s.Blocked) (same : s.outcome op = ⟨s.mutex, false, []⟩)
    (keeps : ∀ b, op.releases b = 0) : (s.settle op (s.outcome op)).Blocked := by
  rw [same]
  simpa [Blocked, settle, Result.grants, keeps] using blocked

theorem blocked_tryLock (balanced : s.Balanced) (blocked : s.Blocked) :
    (s.settle .tryLock (s.outcome .tryLock)).Blocked := by
  cases took : (s.outcome .tryLock).now with
  | true =>
      have nobody := tryLock_nobody balanced took
      apply blocked_nobody
      simp only [outcome, Mutex.tryLock]
      split
      · exact (exchange_waiters ‹_›).trans nobody
      · exact nobody
  | false =>
      apply blocked_unchanged blocked _ fun _ => rfl
      simp only [outcome, Mutex.tryLock] at took ⊢
      split at took
      · contradiction
      · rfl

theorem blocked_tryLockShared (balanced : s.Balanced) (blocked : s.Blocked) (seen : Latch) :
    (s.settle (.tryLockShared seen) (s.outcome (.tryLockShared seen))).Blocked := by
  cases took : (s.outcome (.tryLockShared seen)).now with
  | true =>
      have nobody := tryLockShared_nobody balanced took
      apply blocked_nobody
      simp only [outcome, Mutex.tryLockShared]
      split
      · exact nobody
      · split
        · exact (exchange_waiters ‹_›).trans nobody
        · exact nobody
  | false =>
      apply blocked_unchanged blocked _ fun _ => rfl
      simp only [outcome, Mutex.tryLockShared] at took ⊢
      split at took
      · rename_i busy
        rw [if_pos busy]
      · rename_i clear
        rw [if_neg clear]
        split at took
        · contradiction
        · rfl

theorem blocked_unlock (balanced : s.Balanced) (held : 0 < s.excl) (seen : Latch) :
    (s.settle (.unlock seen) (s.outcome (.unlock seen))).Blocked := by
  by_cases free : seen &&& (mfLatch ||| mfmNext) = 0#32
  · cases swapped : exchange s.mutex seen (seen - mfLockExcl) with
    | some m =>
        have fast : s.outcome (.unlock seen) = ⟨m, false, []⟩ := by
          simp only [outcome, Mutex.unlock, free, if_true, swapped]
        apply blocked_nobody
        rw [fast]
        obtain ⟨same, rfl⟩ := exchange_eq_some.mp swapped
        rw [← same, balanced] at free
        exact (word_next s.excl s.shared s.mutex.waiters).mp free
    | none =>
        apply blocked_unlockImpl balanced false held _ (releases_unlock seen)
        simp only [outcome, Mutex.unlock, free, if_true, swapped]
  · apply blocked_unlockImpl balanced false held _ (releases_unlock seen)
    simp only [outcome, Mutex.unlock, free, if_false]

theorem blocked_unlockShared (balanced : s.Balanced) (held : 0 < s.shared) (seen : Latch) :
    (s.settle (.unlockShared seen) (s.outcome (.unlockShared seen))).Blocked := by
  by_cases free : seen &&& (mfLatch ||| mfNextShared) = 0#32 ∧
      (seen &&& mfNextExcl = 0#32 ∨ 2#32 * mfLockShared ≤ seen)
  · cases swapped : exchange s.mutex seen (seen - mfLockShared) with
    | some m =>
        have fast : s.outcome (.unlockShared seen) = ⟨m, false, []⟩ := by
          simp only [outcome, Mutex.unlockShared, free, and_self, if_true, swapped]
        obtain ⟨rfl, rfl⟩ := exchange_eq_some.mp swapped
        have kept := blocked_fastShared balanced held free
        rw [fast]
        simpa [Blocked, settle, Result.grants, Op.releases] using kept
    | none =>
        apply blocked_unlockImpl balanced true held _ (releases_unlockShared seen)
        simp only [outcome, Mutex.unlockShared, free, and_self, if_true, swapped]
  · apply blocked_unlockImpl balanced true held _ (releases_unlockShared seen)
    simp only [outcome, Mutex.unlockShared, free, if_false]

theorem step_blocked (balanced : s.Balanced) (blocked : s.Blocked) (stepped : s.step op = some t) :
    t.Blocked := by
  obtain ⟨ready, rfl⟩ := step_eq_some.mp stepped
  cases op with
  | lock isShared notify => exact blocked_lock balanced isShared notify
  | tryLock => exact blocked_tryLock balanced blocked
  | tryLockShared seen => exact blocked_tryLockShared balanced blocked seen
  | unlock seen => exact blocked_unlock balanced (of_decide_eq_true ready) seen
  | unlockShared seen => exact blocked_unlockShared balanced (of_decide_eq_true ready) seen
  | listen event l => exact blocked_touch blocked rfl (fun _ => rfl) (fun _ => rfl)
  | unlisten event l => exact blocked_touch blocked rfl (fun _ => rfl) (fun _ => rfl)
  | copyHandle event => exact blocked_touch blocked rfl (fun _ => rfl) (fun _ => rfl)
  | dropHandle event => exact blocked_touch blocked rfl (fun _ => rfl) (fun _ => rfl)
  | trigger event => exact blocked_touch blocked rfl (fun _ => rfl) (fun _ => rfl)

theorem reached_blocked (path : Reaches step {} ops s) : s.Balanced ∧ s.Blocked := by
  apply path.invariant (P := fun s => s.Balanced ∧ s.Blocked)
  · exact fun kept stepped => ⟨step_balanced kept.1 stepped, step_blocked kept.1 kept.2 stepped⟩
  · exact ⟨rfl, fun _ front => nomatch front⟩

/-- Nobody queues for a mutex whose word counts no lock, and the front waiter,
cancelled or not, is kept out by the locks the word counts: a shared one by an
exclusive lock, an exclusive one by any. -/
theorem no_stranded_waiter (path : Reaches step {} ops s) :
    s.mutex.latch &&& mfLatch = 0#32 ∧ (s.mutex.latch < mfLockExcl → s.mutex.waiters = []) ∧
      ∀ fw ∈ s.mutex.waiters.head?, allow fw.shared (latched s.mutex) = false ∧
        if fw.shared then 0 < s.excl else 0 < s.excl + s.shared := by
  obtain ⟨balanced, blocked⟩ := reached_blocked path
  rw [latched_word balanced]
  refine ⟨?_, fun free => ?_, fun fw front => ⟨blocked fw front, ?_⟩⟩
  · rw [balanced]
    exact word_latch_clear s.mutex.waiters
  rotate_left
  · have denied := blocked fw front
    split
    · rename_i mode
      rw [mode] at denied
      exact excl_of_blocked denied
    · exact held_of_blocked denied
  cases line : s.mutex.waiters with
  | nil => rfl
  | cons fw rest =>
      have denied := blocked fw (by rw [line]; rfl)
      have small : word s.excl s.shared 0 < mfLockExcl := by
        have below : s.mutex.latch.toNat < 8 := free
        have next := nextInLine_cases s.mutex.waiters
        rw [balanced, word, BitVec.toNat_ofNat] at below
        rw [BitVec.lt_def, word, BitVec.toNat_ofNat]
        show _ < 8
        omega
      rw [allow_small small] at denied
      contradiction

/-- An exclusive waiter is cancelled in front of a shared one: it stays in front
until the last shared lock is released on the slow path. -/
theorem no_stranded_waiter_cancelled :
    let ops : List Op := [.lock true none, .lock false none, .lock true none, .dropHandle 1]
    ∃ s, Reaches step {} ops s ∧ s.mutex.latch &&& mfLatch = 0#32 ∧
      (s.mutex.latch < mfLockExcl → s.mutex.waiters = []) ∧
      ∀ fw ∈ s.mutex.waiters.head?, allow fw.shared (latched s.mutex) = false ∧
        if fw.shared then 0 < s.excl else 0 < s.excl + s.shared := by
  intro ops
  have path : Reaches step {} ops _ := run_iff_reaches.mp rfl
  exact ⟨_, path, no_stranded_waiter path⟩

end Accounts
end Cotamer.Mutex

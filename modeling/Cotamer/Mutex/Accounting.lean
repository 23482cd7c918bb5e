import Cotamer.Mutex
import Cotamer.PackedWord
import Cotamer.Transition
import Mathlib.Tactic.IntervalCases

/-! Grants of one mutex counted against its latch word, over any interleaving
of its operations. Each latched section and each compare-exchange is one step;
what the owners of queued events do to them between steps is a step too. -/
namespace Cotamer.Mutex
open Event PackedWord SwapVector Transition

inductive Op where
  | lock (isShared : Bool) (notify : Option Nat)
  | tryLock
  | tryLockShared (seen : Latch)
  | unlock (seen : Latch)
  | unlockShared (seen : Latch)
  | listen (event : EventId) (l : Listener)
  | unlisten (event : EventId) (l : Listener)
  | copyHandle (event : EventId)
  | dropHandle (event : EventId)
  | trigger (event : EventId)
  deriving DecidableEq, Repr

/-- A mutex with the outstanding grants of each mode and the next fresh event. -/
structure Accounts where
  mutex : Mutex := {}
  excl : Nat := 0
  shared : Nat := 0
  next : EventId := 0
  deriving DecidableEq, Repr

namespace Accounts

def count (s : Accounts) (isShared : Bool) : Nat := if isShared then s.shared else s.excl

def touch (s : Accounts) (event : EventId) (f : EventBody → EventBody) : Result :=
  ⟨updateWaiter event f s.mutex, false, []⟩

def outcome (s : Accounts) : Op → Result
  | .lock isShared notify => lockImpl isShared s.next notify s.mutex
  | .tryLock => s.mutex.tryLock
  | .tryLockShared seen => s.mutex.tryLockShared seen
  | .unlock seen => s.mutex.unlock seen
  | .unlockShared seen => s.mutex.unlockShared seen
  | .listen event l => s.touch event fun b => { b with listeners := b.listeners ++ [l] }
  | .unlisten event l => s.touch event fun b => { b with listeners := swapErase l b.listeners }
  | .copyHandle event => s.touch event fun b => { b with refcount := b.refcount + 1 }
  | .dropHandle event => s.touch event fun b => { b with refcount := b.refcount - 1 }
  | .trigger event => s.touch event fun b => { b with triggered := true }

/-- An unlock needs a grant of its mode. -/
def enabled (s : Accounts) : Op → Bool
  | .unlock _ => 0 < s.excl
  | .unlockShared _ => 0 < s.shared
  | _ => true

end Accounts

/-- Grants of one mode that an operation of mode `opShared` makes. -/
def Result.grants (r : Result) (opShared isShared : Bool) : Nat :=
  r.granted.countP (·.shared == isShared) + if r.now && opShared == isShared then 1 else 0

def Op.mode : Op → Bool
  | .lock isShared _ => isShared
  | .tryLockShared _ => true
  | _ => false

def Op.releases (isShared : Bool) : Op → Nat
  | .unlock _ => if isShared then 0 else 1
  | .unlockShared _ => if isShared then 1 else 0
  | _ => 0

namespace Accounts

def settle (s : Accounts) (op : Op) (r : Result) : Accounts where
  mutex := r.mutex
  excl := s.excl - op.releases false + r.grants op.mode false
  shared := s.shared - op.releases true + r.grants op.mode true
  next := s.next + 1

def step (s : Accounts) (op : Op) : Option Accounts :=
  if s.enabled op then some (s.settle op (s.outcome op)) else none

end Accounts

/-- The latch word for given counts and given next-in-line bits. -/
def word (excl shared next : Nat) : Latch := BitVec.ofNat 32 (8 * excl + 16 * shared + next)

def nextInLine : List Waiter → Nat
  | [] => 0
  | fw :: _ => if fw.shared then 4 else 2

/-- One exclusive grant, or any number of shared grants. -/
def Exclusive (excl shared : Nat) : Prop := excl ≤ 1 ∧ (0 < excl → shared = 0)

/-- The latch word says what is granted and who is next. -/
def Accounts.Balanced (s : Accounts) : Prop :=
  s.mutex.latch = word s.excl s.shared (nextInLine s.mutex.waiters)

/-- Nobody queues for a free mutex. -/
def Accounts.Served (s : Accounts) : Prop := s.mutex.waiters ≠ [] → 0 < s.excl + s.shared

/-! The latch word. -/

theorem word_eq_pack (excl shared next : Nat) :
    word excl shared next = pack 32 3 (excl + 2 * shared) next := by
  simp only [word, pack]
  congr 1
  ring

theorem word_eq_pack_excl (excl shared next : Nat) :
    word excl shared next = pack 32 4 shared (8 * excl + next) := by
  simp only [word, pack]
  congr 1
  ring

theorem word_and (small : next < 8) (mask : k < 8) :
    word excl shared next &&& BitVec.ofNat 32 k = BitVec.ofNat 32 (next &&& k) := by
  rw [word_eq_pack, pack_and small mask]

theorem word_and_not (small : next < 8) (mask : k < 8) :
    word excl shared next &&& ~~~BitVec.ofNat 32 k = word excl shared (next - (next &&& k)) := by
  rw [word_eq_pack, pack_and_not small mask, word_eq_pack]

theorem nextInLine_cases (waiters : List Waiter) : nextInLine waiters = 0 ∧ waiters = [] ∨
    nextInLine waiters = 2 ∧ waiters ≠ [] ∨ nextInLine waiters = 4 ∧ waiters ≠ [] := by
  cases waiters with
  | nil => exact .inl ⟨rfl, rfl⟩
  | cons fw rest =>
      simp only [nextInLine]
      cases fw.shared <;> simp

theorem nextInLine_small (waiters : List Waiter) : nextInLine waiters ≤ 4 := by
  rcases nextInLine_cases waiters with ⟨h, _⟩ | ⟨h, _⟩ | ⟨h, _⟩ <;> omega

theorem nextInLine_mask (waiters : List Waiter) : nextInLine waiters &&& 6 = nextInLine waiters := by
  rcases nextInLine_cases waiters with ⟨h, _⟩ | ⟨h, _⟩ | ⟨h, _⟩ <;> rw [h] <;> rfl

theorem word_latch_clear (waiters : List Waiter) :
    word excl shared (nextInLine waiters) &&& mfLatch = 0#32 := by
  rw [mfLatch, word_and (by have := nextInLine_small waiters; omega) (by decide)]
  rcases nextInLine_cases waiters with ⟨h, _⟩ | ⟨h, _⟩ | ⟨h, _⟩ <;> rw [h] <;> rfl

theorem word_next (excl shared : Nat) (waiters : List Waiter) :
    word excl shared (nextInLine waiters) &&& (mfLatch ||| mfmNext) = 0#32 ↔ waiters = [] := by
  have mask : mfLatch ||| mfmNext = BitVec.ofNat 32 7 := by decide
  rw [mask, word_and (by have := nextInLine_small waiters; omega) (by decide)]
  rcases nextInLine_cases waiters with ⟨h, e⟩ | ⟨h, e⟩ | ⟨h, e⟩ <;> rw [h] <;> simp [e]

theorem latched_word (balanced : m.latch = word excl shared (nextInLine m.waiters)) :
    latched m = word excl shared 0 := by
  have small := nextInLine_small m.waiters
  rw [latched, balanced, mfmNext, word_and_not (by omega) (by decide), nextInLine_mask, Nat.sub_self]

theorem word_grant (excl shared next : Nat) (isShared : Bool) : word excl shared next + lockUnit isShared =
    word (excl + if isShared then 0 else 1) (shared + if isShared then 1 else 0) next := by
  cases isShared <;> simp only [word, lockUnit, mfLockExcl, mfLockShared, Bool.false_eq_true,
    if_false, if_true, ← BitVec.ofNat_add] <;> congr 1 <;> omega

theorem word_release (isShared : Bool) (held : 0 < if isShared then shared else excl) :
    word excl shared next - lockUnit isShared =
    word (excl - if isShared then 0 else 1) (shared - if isShared then 1 else 0) next := by
  rw [BitVec.sub_eq_iff_eq_add, word_grant]
  cases isShared <;> simp only [Bool.false_eq_true, if_false, if_true] at held ⊢ <;>
    congr 1 <;> omega

theorem unlatch_word (excl shared : Nat) (waiters : List Waiter) :
    unlatch (word excl shared 0) waiters = ⟨word excl shared (nextInLine waiters), waiters⟩ := by
  cases waiters with
  | nil => rfl
  | cons fw rest =>
      simp only [unlatch, nextInLine, Mutex.mk.injEq, and_true]
      cases fw.shared <;> simp only [word, mfNextExcl, mfNextShared, Bool.false_eq_true, if_false,
        if_true, ← BitVec.ofNat_add, Nat.add_zero]

theorem unlatch_waiters (l : Latch) (waiters : List Waiter) :
    (unlatch l waiters).waiters = waiters := by
  cases waiters <;> rfl

theorem word_toNat (exclusive : Exclusive excl shared) (few : shared < 2 ^ 28) (small : next < 8) :
    (word excl shared next).toNat = 8 * excl + 16 * shared + next := by
  obtain ⟨one, alone⟩ := exclusive
  simp only [word, BitVec.toNat_ofNat]
  exact Nat.mod_eq_of_lt (by omega)

theorem allow_word (exclusive : Exclusive excl shared) (few : shared < 2 ^ 28) (isShared : Bool) :
    allow isShared (word excl shared 0) = true ↔ excl = 0 ∧ (isShared = false → shared = 0) := by
  have one := exclusive.1
  cases isShared with
  | true =>
      have bit : word excl shared 0 &&& mfLockExcl = BitVec.ofNat 32 (8 * excl &&& 8) := by
        rw [word_eq_pack_excl, Nat.add_zero, mfLockExcl, pack_and (by omega) (by decide)]
      simp only [allow, if_true, bit, decide_eq_true_eq]
      interval_cases excl <;> simp
  | false =>
      simp only [allow, Bool.false_eq_true, if_false, decide_eq_true_eq, BitVec.lt_def, mfLockExcl,
        word_toNat exclusive few (by decide : 0 < 8), BitVec.toNat_ofNat, forall_const]
      omega

theorem allow_free (isShared : Bool) : allow isShared (word 0 0 0) = true := by
  cases isShared <;> decide

/-! Granting the front of the queue. -/

def grantCount (r : Notified) (isShared : Bool) : Nat := r.granted.countP (·.shared == isShared)

/-- The ways one round of `notify_locked` treats the front waiter. -/
theorem notifyLocked_cons (l : Latch) (fw : Waiter) (rest : List Waiter) :
    notifyLocked l (fw :: rest) = notifyLocked l rest ∨
    allow fw.shared l = false ∧ notifyLocked l (fw :: rest) = ⟨l, fw :: rest, []⟩ ∨
    fw.body.empty = false ∧ allow fw.shared l = true ∧ notifyLocked l (fw :: rest) =
      { notifyLocked (l + lockUnit fw.shared) rest with
        granted := fw :: (notifyLocked (l + lockUnit fw.shared) rest).granted } := by
  rw [notifyLocked]
  split
  · exact .inl rfl
  · rename_i live
    cases allowed : allow fw.shared l with
    | false => exact .inr (.inl ⟨rfl, rfl⟩)
    | true =>
        simp only [Bool.not_true, Bool.false_eq_true, if_false]
        split
        · exact .inr (.inr ⟨by simpa using live, trivial, rfl⟩)
        · exact .inl rfl

/-- The granted waiters are among those taken off the front, and none of them
was cancelled. -/
theorem notifyLocked_front (l : Latch) (waiters : List Waiter) :
    ∃ front, waiters = front ++ (notifyLocked l waiters).waiters ∧
      (notifyLocked l waiters).granted.Sublist front ∧
      ∀ w ∈ (notifyLocked l waiters).granted, w.body.empty = false := by
  induction waiters generalizing l with
  | nil => exact ⟨[], rfl, List.Sublist.refl _, fun _ h => nomatch h⟩
  | cons fw rest ih =>
      rcases notifyLocked_cons l fw rest with skipped | ⟨_, stopped⟩ | ⟨live, _, taken⟩
      · obtain ⟨front, split, sub, nonempty⟩ := ih l
        rw [skipped]
        exact ⟨fw :: front, congrArg (fw :: ·) split, sub.cons fw, nonempty⟩
      · rw [stopped]
        exact ⟨[], rfl, List.Sublist.refl _, fun _ h => nomatch h⟩
      · obtain ⟨front, split, sub, nonempty⟩ := ih (l + lockUnit fw.shared)
        rw [taken]
        refine ⟨fw :: front, congrArg (fw :: ·) split, sub.cons_cons fw, fun w member => ?_⟩
        rcases List.mem_cons.mp member with rfl | later
        · exact live
        · exact nonempty w later

theorem grantCount_cons (fw : Waiter) (r : Notified) (isShared : Bool) :
    grantCount { r with granted := fw :: r.granted } isShared =
      grantCount r isShared + if fw.shared = isShared then 1 else 0 := by
  simp only [grantCount, List.countP_cons, beq_iff_eq]

/-- Every grant adds its unit to the word, and the queue is left blocked. -/
theorem notifyLocked_word (waiters : List Waiter) (excl shared : Nat) :
    let r := notifyLocked (word excl shared 0) waiters
    r.l = word (excl + grantCount r false) (shared + grantCount r true) 0 ∧
      (r.waiters ≠ [] → ∃ isShared, allow isShared r.l = false) := by
  induction waiters generalizing excl shared with
  | nil => exact ⟨rfl, fun h => absurd rfl h⟩
  | cons fw rest ih =>
      rcases notifyLocked_cons (word excl shared 0) fw rest with
        skipped | ⟨blocked, stopped⟩ | ⟨_, _, taken⟩
      · rw [skipped]
        exact ih excl shared
      · rw [stopped]
        exact ⟨rfl, fun _ => ⟨fw.shared, blocked⟩⟩
      · rw [taken, word_grant]
        have later := ih (excl + if fw.shared then 0 else 1) (shared + if fw.shared then 1 else 0)
        refine ⟨?_, later.2⟩
        simp only [grantCount_cons]
        rw [later.1]
        cases fw.shared <;> simp only [Bool.false_eq_true, if_false, if_true, Bool.true_eq_false]
          <;> congr 1 <;> omega

theorem Exclusive.grant (exclusive : Exclusive excl shared) (few : shared < 2 ^ 28)
    (allowed : allow isShared (word excl shared 0) = true) :
    Exclusive (excl + if isShared then 0 else 1) (shared + if isShared then 1 else 0) := by
  obtain ⟨noExcl, noShared⟩ := (allow_word exclusive few isShared).mp allowed
  subst excl
  cases isShared with
  | true => simp [Exclusive]
  | false => simp [Exclusive, noShared rfl]

theorem notifyLocked_exclusive (waiters : List Waiter) (exclusive : Exclusive excl shared)
    (few : shared + grantCount (notifyLocked (word excl shared 0) waiters) true < 2 ^ 28) :
    Exclusive (excl + grantCount (notifyLocked (word excl shared 0) waiters) false)
      (shared + grantCount (notifyLocked (word excl shared 0) waiters) true) := by
  induction waiters generalizing excl shared with
  | nil => exact exclusive
  | cons fw rest ih =>
      rcases notifyLocked_cons (word excl shared 0) fw rest with
        skipped | ⟨_, stopped⟩ | ⟨_, allowed, taken⟩
      · rw [skipped] at few ⊢
        exact ih exclusive few
      · rw [stopped]
        exact exclusive
      · rw [taken, word_grant] at few ⊢
        simp only [grantCount_cons] at few ⊢
        have later := ih (exclusive.grant (by omega) allowed)
        cases mode : fw.shared <;> simp only [mode, Bool.false_eq_true, if_false, if_true,
          Bool.true_eq_false, Nat.add_zero, Nat.add_assoc, Nat.add_comm 1] at few later ⊢
        · exact later few
        · exact later few

/-- A waiter blocks the queue only while something is granted. -/
theorem held_of_blocked (blocked : allow isShared (word excl shared 0) = false) :
    0 < excl + shared := by
  by_contra free
  obtain ⟨rfl, rfl⟩ : excl = 0 ∧ shared = 0 := by omega
  rw [allow_free] at blocked
  contradiction

/-! One operation. -/

theorem updateWaiter_latch (event : EventId) (f : EventBody → EventBody) (m : Mutex) :
    (updateWaiter event f m).latch = m.latch := rfl

theorem updateWaiter_next (f : EventBody → EventBody) (mode : ∀ b, (f b).userFlags = b.userFlags)
    (m : Mutex) : nextInLine (updateWaiter event f m).waiters = nextInLine m.waiters := by
  simp only [updateWaiter]
  cases m.waiters with
  | nil => rfl
  | cons fw rest =>
      have same : (if fw.event = event then { fw with body := f fw.body } else fw).shared =
          fw.shared := by
        simp only [Waiter.shared]
        split <;> simp only [mode]
      simp only [List.map_cons, nextInLine, same]

theorem exchange_eq_some : exchange m expected desired = some m' ↔
    m.latch = expected ∧ m' = { m with latch := desired } := by
  rw [exchange, Option.ite_none_right_eq_some, Option.some.injEq, eq_comm (a := m')]

theorem unlockImpl_word (balanced : m.latch = word excl shared (nextInLine m.waiters))
    (isShared : Bool) (held : 0 < if isShared then shared else excl) :
    let r := notifyLocked (word (excl - if isShared then 0 else 1)
      (shared - if isShared then 1 else 0) 0) m.waiters
    unlockImpl isShared m = ⟨unlatch r.l r.waiters, false, r.granted⟩ := by
  simp only [unlockImpl, latched_word balanced, word_release isShared held]

namespace Accounts

variable {s t : Accounts}

/-- The word and the queue an operation leaves behind. -/
def Settled (s : Accounts) (op : Op) : Prop :=
  (s.settle op (s.outcome op)).Balanced ∧
    (s.Served → (s.settle op (s.outcome op)).Served)

theorem settled_touch (balanced : s.Balanced) (same : s.outcome op = s.touch event f)
    (mode : ∀ b, (f b).userFlags = b.userFlags) (reader : ∀ b, op.releases b = 0) :
    s.Settled op := by
  have counts : ∀ b, (s.outcome op).grants op.mode b = 0 := by
    intro b
    rw [same]
    rfl
  constructor
  · simp only [Balanced, settle, counts, reader, Nat.sub_zero, Nat.add_zero]
    rw [same]
    simp only [touch, updateWaiter_latch, updateWaiter_next f mode]
    exact balanced
  · intro served queued
    simp only [settle, counts, reader, Nat.sub_zero, Nat.add_zero]
    refine served fun none => queued ?_
    simp only [settle, same, touch, updateWaiter, none, List.map_nil]

theorem settled_lock (balanced : s.Balanced) (isShared : Bool) (notify : Option Nat) :
    s.Settled (.lock isShared notify) := by
  obtain ⟨after, blocked⟩ := notifyLocked_word s.mutex.waiters s.excl s.shared
  simp only [Settled, outcome, lockImpl, latched_word balanced]
  generalize notifyLocked (word s.excl s.shared 0) s.mutex.waiters = r at after blocked ⊢
  split
  · rename_i grant
    obtain ⟨drained, allowed⟩ := Bool.and_eq_true_iff.mp grant
    have drained := List.isEmpty_iff.mp drained
    refine ⟨?_, fun _ queued => absurd drained (by simp [settle, drained, unlatch] at queued)⟩
    simp only [Balanced, settle, Result.grants, Op.mode, Op.releases]
    rw [after, word_grant, unlatch_word]
    cases isShared <;> simp [grantCount, Nat.add_assoc]
  · rename_i wait
    have busy : 0 < s.excl + grantCount r false + (s.shared + grantCount r true) := by
      by_cases drained : r.waiters = []
      · have denied : allow isShared r.l = false := by
          cases allowed : allow isShared r.l with
          | false => rfl
          | true => simp [drained, allowed] at wait
        rw [after] at denied
        exact held_of_blocked denied
      · obtain ⟨_, denied⟩ := blocked drained
        rw [after] at denied
        exact held_of_blocked denied
    rw [after, unlatch_word]
    refine ⟨?_, fun _ _ => ?_⟩
    · simp [Balanced, settle, Result.grants, grantCount, Op.releases]
    · simpa [settle, Result.grants, grantCount, Op.releases] using busy

theorem settled_unlockImpl (balanced : s.Balanced) (isShared : Bool)
    (held : 0 < if isShared then s.shared else s.excl)
    (slow : s.outcome op = unlockImpl isShared s.mutex)
    (released : ∀ b, op.releases b = if b = isShared then 1 else 0) : s.Settled op := by
  have spec := unlockImpl_word balanced isShared held
  obtain ⟨after, blocked⟩ := notifyLocked_word s.mutex.waiters
    (s.excl - if isShared then 0 else 1) (s.shared - if isShared then 1 else 0)
  simp only [Settled, slow, spec]
  generalize notifyLocked (word (s.excl - if isShared then 0 else 1)
    (s.shared - if isShared then 1 else 0) 0) s.mutex.waiters = r at after blocked ⊢
  rw [after, unlatch_word]
  have counts : ∀ b, Result.grants ⟨⟨word (s.excl - (if isShared then 0 else 1) + grantCount r false)
      (s.shared - (if isShared then 1 else 0) + grantCount r true) (nextInLine r.waiters), r.waiters⟩,
      false, r.granted⟩ op.mode b = grantCount r b := by
    intro b
    simp [Result.grants, grantCount]
  constructor
  · simp only [Balanced, settle, counts, released]
    cases isShared <;> rfl
  · intro _ queued
    obtain ⟨_, denied⟩ := blocked queued
    rw [after] at denied
    have busy := held_of_blocked denied
    simp only [settle, counts, released]
    cases isShared <;> simpa using busy

theorem settled_tryLock (balanced : s.Balanced) : s.Settled .tryLock := by
  simp only [Settled, outcome, Mutex.tryLock]
  cases swapped : exchange s.mutex 0#32 mfLockExcl with
  | none => exact ⟨balanced, fun served queued => served queued⟩
  | some m =>
      obtain ⟨free, rfl⟩ := exchange_eq_some.mp swapped
      have nobody : s.mutex.waiters = [] := by
        rw [← word_next s.excl s.shared, ← balanced, free]
        decide
      refine ⟨?_, fun _ queued => absurd nobody queued⟩
      have taken := word_grant s.excl s.shared (nextInLine s.mutex.waiters) false
      rw [← balanced, free, lockUnit, if_neg Bool.false_ne_true, BitVec.zero_add] at taken
      exact taken

theorem settled_tryLockShared (balanced : s.Balanced) (seen : Latch) :
    s.Settled (.tryLockShared seen) := by
  simp only [Settled, outcome, Mutex.tryLockShared]
  split
  · exact ⟨balanced, fun served queued => served queued⟩
  · rename_i open'
    cases swapped : exchange s.mutex seen (seen + mfLockShared) with
    | none => exact ⟨balanced, fun served queued => served queued⟩
    | some m =>
        obtain ⟨rfl, rfl⟩ := exchange_eq_some.mp swapped
        have taken := word_grant s.excl s.shared (nextInLine s.mutex.waiters) true
        rw [← balanced, lockUnit, if_pos rfl] at taken
        refine ⟨taken, fun _ _ => ?_⟩
        simp only [settle, Result.grants, Op.mode, Op.releases]
        simp

/-- A compare-exchange that releases one grant and leaves the queue alone. -/
theorem settled_exchange (balanced : s.Balanced) (isShared : Bool)
    (held : 0 < if isShared then s.shared else s.excl)
    (fast : s.outcome op = ⟨{ s.mutex with latch := s.mutex.latch - lockUnit isShared }, false, []⟩)
    (released : ∀ b, op.releases b = if b = isShared then 1 else 0)
    (busy : s.mutex.waiters ≠ [] → 1 < s.excl + s.shared) : s.Settled op := by
  have counts : ∀ b, (s.outcome op).grants op.mode b = 0 := by
    intro b
    rw [fast]
    rfl
  constructor
  · simp only [Balanced, settle, released, fast]
    rw [balanced, word_release isShared held]
    cases isShared <;> rfl
  · intro _ queued
    have left := busy (by simpa only [settle, fast] using queued)
    simp only [settle, counts, released]
    cases isShared <;> simp at held ⊢ <;> omega

theorem releases_unlock (seen : Latch) (isShared : Bool) :
    Op.releases isShared (.unlock seen) = if isShared = false then 1 else 0 := by
  cases isShared <;> rfl

theorem releases_unlockShared (seen : Latch) (isShared : Bool) :
    Op.releases isShared (.unlockShared seen) = if isShared = true then 1 else 0 := by
  cases isShared <;> rfl

theorem settled_unlock (balanced : s.Balanced) (held : 0 < s.excl) (seen : Latch) :
    s.Settled (.unlock seen) := by
  by_cases free : seen &&& (mfLatch ||| mfmNext) = 0#32
  · cases swapped : exchange s.mutex seen (seen - mfLockExcl) with
    | some m =>
        obtain ⟨rfl, rfl⟩ := exchange_eq_some.mp swapped
        have nobody : s.mutex.waiters = [] := by
          rw [← word_next s.excl s.shared, ← balanced, free]
        refine settled_exchange balanced false held ?_ (releases_unlock _) (absurd nobody)
        simp only [outcome, Mutex.unlock, free, if_true, swapped, lockUnit, Bool.false_eq_true,
          if_false]
    | none =>
        refine settled_unlockImpl balanced false held ?_ (releases_unlock seen)
        simp only [outcome, Mutex.unlock, free, if_true, swapped]
  · refine settled_unlockImpl balanced false held ?_ (releases_unlock seen)
    simp only [outcome, Mutex.unlock, free, if_false]

/-- With a waiter in line, the fast path of `unlock_shared` leaves a grant. -/
theorem several_of_fast (balanced : s.Balanced) (queued : s.mutex.waiters ≠ [])
    (guard : s.mutex.latch &&& (mfLatch ||| mfNextShared) = 0#32 ∧
      (s.mutex.latch &&& mfNextExcl = 0#32 ∨ 2#32 * mfLockShared ≤ s.mutex.latch)) :
    1 < s.excl + s.shared := by
  obtain ⟨noShared, noExcl | several⟩ := guard
  · have mask : mfLatch ||| mfNextShared = BitVec.ofNat 32 5 := by decide
    rw [mask, balanced, word_and (by have := nextInLine_small s.mutex.waiters; omega)
      (by decide)] at noShared
    rw [mfNextExcl, balanced, word_and (by have := nextInLine_small s.mutex.waiters; omega)
      (by decide)] at noExcl
    rcases nextInLine_cases s.mutex.waiters with ⟨_, none⟩ | ⟨line, _⟩ | ⟨line, _⟩
    · exact absurd none queued
    · rw [line] at noExcl
      simp at noExcl
    · rw [line] at noShared
      simp at noShared
  · have least : 32 ≤ s.mutex.latch.toNat := several
    rw [balanced, word, BitVec.toNat_ofNat] at least
    have wrapped := Nat.mod_le (8 * s.excl + 16 * s.shared + nextInLine s.mutex.waiters) (2 ^ 32)
    have small := nextInLine_small s.mutex.waiters
    omega

theorem settled_unlockShared (balanced : s.Balanced) (held : 0 < s.shared) (seen : Latch) :
    s.Settled (.unlockShared seen) := by
  by_cases free : seen &&& (mfLatch ||| mfNextShared) = 0#32 ∧
      (seen &&& mfNextExcl = 0#32 ∨ 2#32 * mfLockShared ≤ seen)
  · cases swapped : exchange s.mutex seen (seen - mfLockShared) with
    | some m =>
        obtain ⟨rfl, rfl⟩ := exchange_eq_some.mp swapped
        refine settled_exchange balanced true held ?_ (releases_unlockShared _) fun queued => ?_
        · simp only [outcome, Mutex.unlockShared, free, if_true, swapped, lockUnit, and_self]
        · exact several_of_fast balanced queued free
    | none =>
        refine settled_unlockImpl balanced true held ?_ (releases_unlockShared seen)
        simp only [outcome, Mutex.unlockShared, free, if_true, swapped, and_self]
  · refine settled_unlockImpl balanced true held ?_ (releases_unlockShared seen)
    simp only [outcome, Mutex.unlockShared, free, if_false]

theorem settled (balanced : s.Balanced) (ready : s.enabled op = true) : s.Settled op := by
  cases op with
  | lock isShared notify => exact settled_lock balanced isShared notify
  | tryLock => exact settled_tryLock balanced
  | tryLockShared seen => exact settled_tryLockShared balanced seen
  | unlock seen => exact settled_unlock balanced (of_decide_eq_true ready) seen
  | unlockShared seen => exact settled_unlockShared balanced (of_decide_eq_true ready) seen
  | listen event l => exact settled_touch balanced rfl (fun _ => rfl) (fun _ => rfl)
  | unlisten event l => exact settled_touch balanced rfl (fun _ => rfl) (fun _ => rfl)
  | copyHandle event => exact settled_touch balanced rfl (fun _ => rfl) (fun _ => rfl)
  | dropHandle event => exact settled_touch balanced rfl (fun _ => rfl) (fun _ => rfl)
  | trigger event => exact settled_touch balanced rfl (fun _ => rfl) (fun _ => rfl)

theorem step_eq_some : s.step op = some t ↔ s.enabled op = true ∧ t = s.settle op (s.outcome op) := by
  rw [step, Option.ite_none_right_eq_some, Option.some.injEq, eq_comm (a := t)]

theorem releases_le (stepped : s.step op = some t) :
    op.releases true ≤ s.shared ∧ op.releases false ≤ s.excl := by
  obtain ⟨ready, _⟩ := step_eq_some.mp stepped
  cases op with
  | unlock seen => exact ⟨Nat.zero_le _, of_decide_eq_true ready⟩
  | unlockShared seen => exact ⟨of_decide_eq_true ready, Nat.zero_le _⟩
  | _ => exact ⟨Nat.zero_le _, Nat.zero_le _⟩

theorem step_balanced (balanced : s.Balanced) (stepped : s.step op = some t) : t.Balanced := by
  obtain ⟨ready, rfl⟩ := step_eq_some.mp stepped
  exact (settled balanced ready).1

theorem step_served (balanced : s.Balanced) (served : s.Served) (stepped : s.step op = some t) :
    t.Served := by
  obtain ⟨ready, rfl⟩ := step_eq_some.mp stepped
  exact (settled balanced ready).2 served

/-! Exclusion. -/

theorem settle_unchanged (same : (s.outcome op).granted = []) (idle : (s.outcome op).now = false)
    (exclusive : Exclusive s.excl s.shared) :
    Exclusive (s.settle op (s.outcome op)).excl (s.settle op (s.outcome op)).shared := by
  obtain ⟨one, alone⟩ := exclusive
  simp only [Exclusive, settle, Result.grants, same, idle, List.countP_nil, Bool.false_and,
    Bool.false_eq_true, if_false, Nat.add_zero]
  exact ⟨by omega, fun _ => by have := alone (by omega); omega⟩

theorem exclusive_lock (balanced : s.Balanced) (exclusive : Exclusive s.excl s.shared)
    (few : (s.settle (.lock isShared notify) (s.outcome (.lock isShared notify))).shared < 2 ^ 28) :
    Exclusive (s.settle (.lock isShared notify) (s.outcome (.lock isShared notify))).excl
      (s.settle (.lock isShared notify) (s.outcome (.lock isShared notify))).shared := by
  have after := (notifyLocked_word s.mutex.waiters s.excl s.shared).1
  have kept := notifyLocked_exclusive s.mutex.waiters exclusive
  simp only [outcome, lockImpl, latched_word balanced] at few ⊢
  generalize notifyLocked (word s.excl s.shared 0) s.mutex.waiters = r at after kept few ⊢
  split at few
  · rename_i grant
    have allowed := (Bool.and_eq_true_iff.mp grant).2
    rw [if_pos grant]
    rw [after] at allowed
    simp only [settle, Result.grants, Op.mode, Op.releases] at few ⊢
    have within : s.shared + grantCount r true < 2 ^ 28 := by
      simp only [grantCount]
      omega
    have more := (kept within).grant within allowed
    cases isShared <;> simpa [grantCount, Nat.add_assoc] using more
  · rename_i wait
    rw [if_neg wait]
    simp only [settle, Result.grants, Op.mode, Op.releases] at few ⊢
    simpa [grantCount] using kept (by simpa [grantCount] using few)

theorem exclusive_unlockImpl (balanced : s.Balanced) (isShared : Bool)
    (held : 0 < if isShared then s.shared else s.excl)
    (slow : s.outcome op = unlockImpl isShared s.mutex)
    (released : ∀ b, op.releases b = if b = isShared then 1 else 0)
    (exclusive : Exclusive s.excl s.shared)
    (few : (s.settle op (s.outcome op)).shared < 2 ^ 28) :
    Exclusive (s.settle op (s.outcome op)).excl (s.settle op (s.outcome op)).shared := by
  have spec := unlockImpl_word balanced isShared held
  have less : Exclusive (s.excl - if isShared then 0 else 1)
      (s.shared - if isShared then 1 else 0) := by
    obtain ⟨one, alone⟩ := exclusive
    exact ⟨by omega, fun _ => by have := alone (by omega); omega⟩
  have kept := notifyLocked_exclusive s.mutex.waiters less
  simp only [slow, spec, settle, Result.grants, released] at few ⊢
  simp only [grantCount] at kept
  cases isShared <;> simp at few kept ⊢ <;> exact kept few

/-- A request that does not wait finds the mutex open to its mode. -/
theorem exclusive_grant (exclusive : Exclusive s.excl s.shared) (few : s.shared < 2 ^ 28)
    (same : (s.outcome op).granted = []) (keeps : ∀ b, op.releases b = 0)
    (taken : (s.outcome op).now = true) (open_ : allow op.mode (word s.excl s.shared 0) = true) :
    Exclusive (s.settle op (s.outcome op)).excl (s.settle op (s.outcome op)).shared := by
  have more := exclusive.grant few open_
  simp only [settle, Result.grants, same, taken, keeps, List.countP_nil]
  cases mode : op.mode <;> simpa [mode] using more

theorem exclusive_tryLock (balanced : s.Balanced) (exclusive : Exclusive s.excl s.shared)
    (few : s.shared < 2 ^ 28) :
    Exclusive (s.settle .tryLock (s.outcome .tryLock)).excl
      (s.settle .tryLock (s.outcome .tryLock)).shared := by
  cases swapped : exchange s.mutex 0#32 mfLockExcl with
  | none =>
      have failed : s.outcome .tryLock = ⟨s.mutex, false, []⟩ := by
        simp only [outcome, Mutex.tryLock, swapped]
      exact settle_unchanged (by rw [failed]) (by rw [failed]) exclusive
  | some m =>
      obtain ⟨free, rfl⟩ := exchange_eq_some.mp swapped
      have took : s.outcome .tryLock = ⟨{ s.mutex with latch := mfLockExcl }, true, []⟩ := by
        simp only [outcome, Mutex.tryLock, swapped]
      have zero := word_toNat exclusive few (by have := nextInLine_small s.mutex.waiters; omega :
        nextInLine s.mutex.waiters < 8)
      rw [← balanced, free, BitVec.toNat_zero] at zero
      refine exclusive_grant exclusive few (by rw [took]) (fun _ => rfl) (by rw [took]) ?_
      rw [allow_word exclusive few]
      exact ⟨by omega, fun _ => by omega⟩

theorem exclusive_tryLockShared (balanced : s.Balanced) (exclusive : Exclusive s.excl s.shared)
    (few : s.shared < 2 ^ 28) (seen : Latch) :
    Exclusive (s.settle (.tryLockShared seen) (s.outcome (.tryLockShared seen))).excl
      (s.settle (.tryLockShared seen) (s.outcome (.tryLockShared seen))).shared := by
  by_cases busy : seen &&& (mfLatch ||| mfmNext ||| mfLockExcl) = 0#32
  · cases swapped : exchange s.mutex seen (seen + mfLockShared) with
    | none =>
        have failed : s.outcome (.tryLockShared seen) = ⟨s.mutex, false, []⟩ := by
          simp [outcome, Mutex.tryLockShared, busy, swapped]
        exact settle_unchanged (by rw [failed]) (by rw [failed]) exclusive
    | some m =>
        obtain ⟨rfl, rfl⟩ := exchange_eq_some.mp swapped
        have took : s.outcome (.tryLockShared s.mutex.latch) =
            ⟨{ s.mutex with latch := s.mutex.latch + mfLockShared }, true, []⟩ := by
          simp [outcome, Mutex.tryLockShared, busy, swapped]
        refine exclusive_grant exclusive few (by rw [took]) (fun _ => rfl) (by rw [took]) ?_
        have mask : mfLatch ||| mfmNext ||| mfLockExcl = BitVec.ofNat 32 15 := by decide
        have one := exclusive.1
        have small := nextInLine_small s.mutex.waiters
        rw [mask, balanced, word_eq_pack_excl, pack_and (by omega) (by decide)] at busy
        have noExcl : s.excl = 0 := by
          rcases nextInLine_cases s.mutex.waiters with ⟨h, _⟩ | ⟨h, _⟩ | ⟨h, _⟩ <;> rw [h] at busy <;>
            interval_cases s.excl <;> first | rfl | simp at busy
        rw [allow_word exclusive few]
        exact ⟨noExcl, fun h => nomatch h⟩
  · have failed : s.outcome (.tryLockShared seen) = ⟨s.mutex, false, []⟩ := by
      simp [outcome, Mutex.tryLockShared, busy]
    exact settle_unchanged (by rw [failed]) (by rw [failed]) exclusive

/-- A compare-exchange changes the latch word only. -/
def Lockless (s : Accounts) (r : Result) : Prop :=
  r.granted = [] ∧ r.now = false ∧ r.mutex.waiters = s.mutex.waiters

theorem exchange_waiters (swapped : exchange m expected desired = some m') :
    m'.waiters = m.waiters := by
  obtain ⟨_, rfl⟩ := exchange_eq_some.mp swapped
  rfl

theorem unlock_paths (s : Accounts) (seen : Latch) :
    s.outcome (.unlock seen) = unlockImpl false s.mutex ∨
      s.Lockless (s.outcome (.unlock seen)) := by
  simp only [outcome, Mutex.unlock]
  split
  · split
    · exact .inr ⟨rfl, rfl, exchange_waiters ‹_›⟩
    · exact .inl rfl
  · exact .inl rfl

theorem unlockShared_paths (s : Accounts) (seen : Latch) :
    s.outcome (.unlockShared seen) = unlockImpl true s.mutex ∨
      s.Lockless (s.outcome (.unlockShared seen)) := by
  simp only [outcome, Mutex.unlockShared]
  split
  · split
    · exact .inr ⟨rfl, rfl, exchange_waiters ‹_›⟩
    · exact .inl rfl
  · exact .inl rfl

/-- An unlock either releases on its fast path or is `unlock_impl`. -/
theorem exclusive_unlock (balanced : s.Balanced) (exclusive : Exclusive s.excl s.shared)
    (isShared : Bool) (held : 0 < if isShared then s.shared else s.excl)
    (released : ∀ b, op.releases b = if b = isShared then 1 else 0)
    (paths : s.outcome op = unlockImpl isShared s.mutex ∨ s.Lockless (s.outcome op))
    (few : (s.settle op (s.outcome op)).shared < 2 ^ 28) :
    Exclusive (s.settle op (s.outcome op)).excl (s.settle op (s.outcome op)).shared := by
  rcases paths with slow | ⟨same, idle, _⟩
  · exact exclusive_unlockImpl balanced isShared held slow released exclusive few
  · exact settle_unchanged same idle exclusive

theorem step_exclusive (balanced : s.Balanced) (exclusive : Exclusive s.excl s.shared)
    (few : s.shared < 2 ^ 28) (stepped : s.step op = some t) (still : t.shared < 2 ^ 28) :
    Exclusive t.excl t.shared := by
  obtain ⟨ready, rfl⟩ := step_eq_some.mp stepped
  cases op with
  | lock isShared notify => exact exclusive_lock balanced exclusive still
  | tryLock => exact exclusive_tryLock balanced exclusive few
  | tryLockShared seen => exact exclusive_tryLockShared balanced exclusive few seen
  | unlock seen =>
      exact exclusive_unlock balanced exclusive false (of_decide_eq_true ready)
        (releases_unlock seen) (unlock_paths s seen) still
  | unlockShared seen =>
      exact exclusive_unlock balanced exclusive true (of_decide_eq_true ready)
        (releases_unlockShared seen) (unlockShared_paths s seen) still
  | listen event l => exact settle_unchanged rfl rfl exclusive
  | unlisten event l => exact settle_unchanged rfl rfl exclusive
  | copyHandle event => exact settle_unchanged rfl rfl exclusive
  | dropHandle event => exact settle_unchanged rfl rfl exclusive
  | trigger event => exact settle_unchanged rfl rfl exclusive

theorem reached_balanced (path : Reaches step {} ops s) : s.Balanced ∧ s.Served := by
  refine path.invariant (P := fun s => s.Balanced ∧ s.Served) ?_ ⟨rfl, fun queued => absurd rfl queued⟩
  exact fun kept stepped => ⟨step_balanced kept.1 stepped, step_served kept.1 kept.2 stepped⟩

theorem reached_exclusive (path : Reaches step {} ops s)
    (few : Always step (fun s => s.shared < 2 ^ 28) {} ops) : Exclusive s.excl s.shared := by
  refine (path.within (Q := fun s => s.Balanced ∧ Exclusive s.excl s.shared) ?_ few
    ⟨rfl, Nat.zero_le 1, fun held => absurd held (Nat.lt_irrefl 0)⟩).2
  exact fun kept few still stepped =>
    ⟨step_balanced kept.1 stepped, step_exclusive kept.1 kept.2 few stepped still⟩

/-- In every interleaving with fewer than 2^28 shared grants outstanding, the
latch word is the sum of the outstanding grants and the front waiter's bit, and
an exclusive grant is alone. -/
theorem latch_counts_grants (path : Reaches step {} ops s)
    (few : Always step (fun s => s.shared < 2 ^ 28) {} ops) :
    s.mutex.latch &&& mfLatch = 0#32 ∧
    s.mutex.latch.toNat = 8 * s.excl + 16 * s.shared + nextInLine s.mutex.waiters ∧
    s.excl ≤ 1 ∧ (0 < s.excl → s.shared = 0) := by
  have balanced := (reached_balanced path).1
  have exclusive := reached_exclusive path few
  have bound : s.shared < 2 ^ 28 := by
    rw [← List.append_nil ops] at few
    exact few.reached path
  have small := nextInLine_small s.mutex.waiters
  refine ⟨?_, ?_, exclusive⟩
  · rw [balanced]
    exact word_latch_clear s.mutex.waiters
  · rw [balanced]
    exact word_toNat exclusive bound (by omega)

/-- Of two waiters behind an exclusive holder the shared one is granted, and the
exclusive one is next in line. -/
theorem latch_counts_grants_queued :
    let ops : List Op := [.lock false none, .lock true none, .lock false none, .unlock 4#32]
    let s : Accounts := ⟨⟨18#32, [⟨2, { refcount := 2 }, none⟩]⟩, 0, 1, 4⟩
    Reaches step {} ops s ∧ s.mutex.latch &&& mfLatch = 0#32 ∧
      s.mutex.latch.toNat = 8 * s.excl + 16 * s.shared + nextInLine s.mutex.waiters ∧
      s.excl ≤ 1 ∧ (0 < s.excl → s.shared = 0) := by
  intro ops s
  have path : Reaches step {} ops s := run_iff_reaches.mp (by decide)
  exact ⟨path, latch_counts_grants path (by decide)⟩

end Accounts
end Cotamer.Mutex

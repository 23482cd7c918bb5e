import Cotamer.Mutex

/-! A mutex that is only locked exclusively and whose tickets are all kept. Its
owner and those that wait form a line, and an unlock passes it to the next. -/
namespace Cotamer.Mutex
open Event

/-- A mutex with the events made for it and those of them that were triggered. -/
structure Lock where
  mutex : Mutex := {}
  next : EventId := 0
  fired : List EventId := []
  deriving DecidableEq, Repr

namespace Lock

/-- `mutex_event::triggered`. A ticket, which is for one mutex, is its event handle. -/
def triggered (k : Lock) : Handle → Bool
  | none => true
  | some event => k.fired.contains event

/-- `mutex::lock` makes an event only for a request that has to wait. -/
def lock (k : Lock) : Lock × Handle :=
  let r := lockImpl false k.next none k.mutex
  (⟨r.mutex, k.next + 1, k.fired ++ r.granted.map Waiter.event⟩, if r.now then none else some k.next)

def unlock (k : Lock) : Lock :=
  let r := k.mutex.unlock k.mutex.latch
  ⟨r.mutex, k.next, k.fired ++ r.granted.map Waiter.event⟩

/-- A coroutine suspends on a ticket that is not triggered. -/
def await (k : Lock) (c : CoroutineId) (ticket : Handle) : Lock :=
  match ticket with
  | none => k
  | some event =>
    if k.triggered ticket then k
    else { k with mutex := k.mutex.updateWaiter event fun b =>
      { b with listeners := b.listeners ++ [.coroutine c] } }

end Lock

/-- In the queue, and neither granted nor cancelled. -/
structure Waiter.Waits (w : Waiter) : Prop where
  exclusive : w.shared = false
  pending : w.body.triggered = false
  kept : 1 < w.body.refcount

/-- The tickets in line, the owner's first. -/
structure Line (k : Lock) (line : List Handle) : Prop where
  word : k.mutex.latch =
    if line = [] then 0#32 else if line.tail = [] then mfLockExcl else mfLockExcl + mfNextExcl
  waiting : k.mutex.waiters.map (fun w => some w.event) = line.tail
  waits : ∀ w ∈ k.mutex.waiters, w.Waits
  front : ∀ t ∈ line.head?, k.triggered t = true
  made : ∀ w ∈ k.mutex.waiters, w.event < k.next
  known : ∀ e ∈ k.fired, e < k.next
  unfired : ∀ w ∈ k.mutex.waiters, w.event ∉ k.fired
  distinct : (k.mutex.waiters.map Waiter.event).Nodup

variable {k : Lock} {line rest : List Handle} {ticket : Handle} {w : Waiter} {ws : List Waiter}

theorem Waiter.Waits.nonempty (waits : w.Waits) : w.body.empty = false := by
  have several : w.body.refcount ≠ 1 := Nat.ne_of_gt waits.kept
  simp [EventBody.empty, waits.pending, several]

theorem Waiter.Waits.awaited (waits : w.Waits) : w.body.awaited = true := by
  simp [EventBody.awaited, waits.kept]

/-- While the lock is held nobody in the queue gets it. -/
theorem notifyLocked_held (waits : ∀ w ∈ ws, w.Waits) :
    notifyLocked mfLockExcl ws = ⟨mfLockExcl, ws, []⟩ := by
  cases ws with
  | nil => rfl
  | cons w ws =>
      have first := waits w (List.mem_cons_self ..)
      have denied : allow false mfLockExcl = false := rfl
      simp [notifyLocked, first.nonempty, first.exclusive, denied]

/-- The first in the queue gets the lock once it is free, and nobody else. -/
theorem notifyLocked_free (waits : ∀ w' ∈ w :: ws, w'.Waits) :
    notifyLocked 0#32 (w :: ws) = ⟨mfLockExcl, ws, [w]⟩ := by
  have first := waits w (List.mem_cons_self ..)
  have admitted : allow false 0#32 = true := rfl
  have unit : 0#32 + lockUnit false = mfLockExcl := rfl
  have others := notifyLocked_held fun w' member => waits w' (List.mem_cons_of_mem _ member)
  simp [notifyLocked, first.nonempty, first.exclusive, admitted, first.pending, first.awaited, unit, others]

theorem unlatch_held (waits : ∀ w ∈ ws, w.Waits) : unlatch mfLockExcl ws =
    ⟨if ws = [] then mfLockExcl else mfLockExcl + mfNextExcl, ws⟩ := by
  cases ws with
  | nil => rfl
  | cons w ws => simp [unlatch, (waits w (List.mem_cons_self ..)).exclusive]

theorem newWaiter_waits (event : EventId) : (newWaiter false event none).Waits := ⟨rfl, rfl, Nat.lt_succ_self 1⟩

namespace Line

theorem start : Line {} [] where
  word := rfl
  waiting := rfl
  waits _ member := nomatch member
  front _ first := nomatch first
  made _ member := nomatch member
  known _ member := nomatch member
  unfired _ member := nomatch member
  distinct := List.nodup_nil

theorem free (inLine : Line k []) : k.mutex = {} := by
  have nobody := List.map_eq_nil_iff.mp inLine.waiting
  have word := inLine.word
  obtain ⟨⟨latch, waiters⟩, next, fired⟩ := k
  cases nobody
  cases word
  rfl

theorem waiters_eq_nil (inLine : Line k line) : k.mutex.waiters = [] ↔ line.tail = [] := by
  rw [← inLine.waiting, List.map_eq_nil_iff]

/-- Whoever comes joins the line, at its end. -/
theorem lock (inLine : Line k line) :
    Line k.lock.1 (line ++ [k.lock.2]) ∧ k.lock.1.fired = k.fired := by
  cases line with
  | nil =>
      have entered : k.lock = (⟨⟨mfLockExcl, []⟩, k.next + 1, k.fired⟩, none) := by
        simp only [Lock.lock, inLine.free]
        simp [show lockImpl false k.next none {} = ⟨⟨mfLockExcl, []⟩, true, []⟩ from rfl]
      rw [entered]
      refine ⟨⟨rfl, rfl, nofun, fun t first => ?_, nofun, fun e member => ?_, nofun, List.nodup_nil⟩, rfl⟩
      · cases first
        rfl
      · exact Nat.lt_succ_of_lt (inLine.known e member)
  | cons t rest =>
      have word : latched k.mutex = mfLockExcl := by
        rw [latched, inLine.word]
        by_cases last : rest = []
        · simp [last, mfLockExcl, mfmNext]
        · simp [last, mfLockExcl, mfNextExcl, mfmNext]
      have held := notifyLocked_held inLine.waits
      have denied : allow false mfLockExcl = false := rfl
      have joined : ∀ w ∈ k.mutex.waiters ++ [newWaiter false k.next none], w.Waits := by
        intro w member
        rcases List.mem_append.mp member with old | new
        · exact inLine.waits w old
        · rw [List.mem_singleton.mp new]
          exact newWaiter_waits k.next
      have entered : k.lock = (⟨⟨mfLockExcl + mfNextExcl,
          k.mutex.waiters ++ [newWaiter false k.next none]⟩, k.next + 1, k.fired⟩, some k.next) := by
        simp only [Lock.lock, lockImpl, word, held, denied, Bool.and_false, Bool.false_eq_true, if_false,
          unlatch_held joined, List.map_nil, List.append_nil]
        simp
      rw [entered]
      refine ⟨⟨?_, ?_, joined, inLine.front, fun w member => ?_, fun e member => ?_, fun w member => ?_, ?_⟩,
        rfl⟩
      · simp
      · have waiting := inLine.waiting
        rw [List.tail_cons] at waiting
        simp [waiting, newWaiter]
      · rcases List.mem_append.mp member with old | new
        · exact Nat.lt_succ_of_lt (inLine.made w old)
        · rw [List.mem_singleton.mp new]
          exact Nat.lt_succ_self _
      · exact Nat.lt_succ_of_lt (inLine.known e member)
      · rcases List.mem_append.mp member with old | new
        · exact inLine.unfired w old
        · rw [List.mem_singleton.mp new]
          exact fun fired => Nat.lt_irrefl _ (inLine.known _ fired)
      · rw [List.map_append, List.nodup_append]
        refine ⟨inLine.distinct, List.pairwise_singleton _ _, fun e old e' new => ?_⟩
        obtain ⟨w, member, rfl⟩ := List.mem_map.mp old
        rw [List.map_singleton, List.mem_singleton] at new
        rw [new]
        exact Nat.ne_of_lt (inLine.made w member)

/-- The next in line has the lock when the owner leaves. -/
theorem unlock (inLine : Line k (ticket :: line)) :
    Line k.unlock line ∧ ∀ t, k.triggered t = true → k.unlock.triggered t = true := by
  cases line with
  | nil =>
      have alone := inLine.waiters_eq_nil.mpr rfl
      have word : k.mutex.latch = mfLockExcl := inLine.word
      have left : k.unlock = ⟨{}, k.next, k.fired⟩ := by
        simp [Lock.unlock, Mutex.unlock, exchange, word, alone, mfLockExcl, mfLatch, mfmNext]
      rw [left]
      exact ⟨⟨rfl, rfl, nofun, nofun, nofun, inLine.known, nofun, List.nodup_nil⟩, fun t had => had⟩
  | cons t rest =>
      have word : k.mutex.latch = mfLockExcl + mfNextExcl := inLine.word
      cases queue : k.mutex.waiters with
      | nil => exact absurd (inLine.waiters_eq_nil.mp queue) (List.cons_ne_nil _ _)
      | cons w ws =>
          have waiting := inLine.waiting
          rw [queue, List.map_cons, List.tail_cons] at waiting
          obtain ⟨first, others⟩ := List.cons.inj waiting
          have waits := inLine.waits
          rw [queue] at waits
          have later : ∀ w' ∈ ws, w'.Waits := fun w' member => waits w' (List.mem_cons_of_mem _ member)
          have passed : k.unlock = ⟨⟨if ws = [] then mfLockExcl else mfLockExcl + mfNextExcl, ws⟩,
              k.next, k.fired ++ [w.event]⟩ := by
            have busy : ¬k.mutex.latch &&& (mfLatch ||| mfmNext) = 0#32 := by
              rw [word]
              decide
            have released : latched k.mutex - lockUnit false = 0#32 := by
              rw [latched, word]
              decide
            simp only [Lock.unlock, Mutex.unlock, busy, if_false, unlockImpl, released, queue,
              notifyLocked_free waits, unlatch_held later, List.map_cons, List.map_nil]
          have distinct := inLine.distinct
          have made := inLine.made
          have unfired := inLine.unfired
          rw [queue] at distinct made unfired
          obtain ⟨other, distinct⟩ := List.nodup_cons.mp distinct
          rw [passed]
          refine ⟨⟨?_, others, later, fun t' head => ?_, fun w' member => ?_, fun e member => ?_,
            fun w' member fired => ?_, distinct⟩, fun t' had => ?_⟩
          · rw [if_neg (List.cons_ne_nil _ _), List.tail_cons, ← others]
            simp
          · cases head
            rw [← first]
            simp [Lock.triggered]
          · exact made w' (List.mem_cons_of_mem _ member)
          · rcases List.mem_append.mp member with old | new
            · exact inLine.known e old
            · rw [List.mem_singleton.mp new]
              exact made w (List.mem_cons_self ..)
          · rcases List.mem_append.mp fired with old | new
            · exact unfired w' (List.mem_cons_of_mem _ member) old
            · apply other
              rw [← List.mem_singleton.mp new]
              exact List.mem_map_of_mem member
          · cases t' with
            | none => rfl
            | some e =>
                simp only [Lock.triggered, List.contains_eq_mem, decide_eq_true_eq] at had ⊢
                exact List.mem_append_left _ had

theorem await (inLine : Line k line) (c : CoroutineId) (ticket : Handle) :
    Line (k.await c ticket) line := by
  unfold Lock.await
  split
  · exact inLine
  · split
    · exact inLine
    · rename_i event _
      have events : ∀ w : Waiter, (if w.event = event then
          { w with body := { w.body with listeners := w.body.listeners ++ [.coroutine c] } } else w).event =
            w.event := by
        intro w
        split <;> rfl
      refine ⟨inLine.word, ?_, fun w member => ?_, inLine.front, fun w member => ?_, inLine.known,
        fun w member => ?_, ?_⟩
      · simp only [updateWaiter, List.map_map, Function.comp_def, events]
        exact inLine.waiting
      · obtain ⟨old, inside, rfl⟩ := List.mem_map.mp member
        have waits := inLine.waits old inside
        split
        · exact ⟨waits.exclusive, waits.pending, waits.kept⟩
        · exact waits
      · obtain ⟨old, inside, rfl⟩ := List.mem_map.mp member
        rw [events]
        exact inLine.made old inside
      · obtain ⟨old, inside, rfl⟩ := List.mem_map.mp member
        rw [events]
        exact inLine.unfired old inside
      · simp only [updateWaiter, List.map_map, Function.comp_def, events]
        exact inLine.distinct

/-- Behind the owner everybody waits. -/
theorem untriggered (inLine : Line k (ticket :: rest)) (behind : t ∈ rest) : k.triggered t = false := by
  have waiting := inLine.waiting
  rw [List.tail_cons] at waiting
  rw [← waiting] at behind
  obtain ⟨w, member, rfl⟩ := List.mem_map.mp behind
  have unfired := inLine.unfired w member
  simpa [Lock.triggered] using unfired

/-- Who has the lock is first in line. -/
theorem first {ι : Type} {l : List ι} {f : ι → Handle} {i : ι} (inLine : Line k (l.map f)) (member : i ∈ l)
    (had : k.triggered (f i) = true) : l.head? = some i := by
  cases l with
  | nil => exact absurd member List.not_mem_nil
  | cons j l =>
      rcases List.mem_cons.mp member with same | behind
      · rw [same]
        rfl
      · rw [inLine.untriggered (List.mem_map_of_mem behind)] at had
        contradiction

/-- The owner's ticket is used up. -/
theorem claim (inLine : Line k (ticket :: rest)) (had : k.triggered t = true) : Line k (t :: rest) where
  word := inLine.word
  waiting := inLine.waiting
  waits := inLine.waits
  front t' first := by
    cases first
    exact had
  made := inLine.made
  known := inLine.known
  unfired := inLine.unfired
  distinct := inLine.distinct

end Line
end Cotamer.Mutex

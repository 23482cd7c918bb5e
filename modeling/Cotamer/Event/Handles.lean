import Cotamer.Event.Fire

/-! Handles change hands: between client code, waiting coroutines, the queues of
drivers and the event a driver is visiting. -/
namespace Cotamer.Event
open SwapVector References

namespace Outside

def give (o : Outside) (n : EventId) : Outside :=
  { o with client := fun m => if m = n then o.client m + 1 else o.client m }

def take (o : Outside) (n : EventId) : Outside :=
  { o with client := fun m => if m = n then o.client m - 1 else o.client m }

def wait (o : Outside) (c : CoroutineId) (n : Option EventId) : Outside :=
  { o with waiting := fun c' => if c' = c then n else o.waiting c' }

def visit (o : Outside) (d : DriverId) (n : Option EventId) : Outside :=
  { o with visiting := fun d' => if d' = d then n else o.visiting d' }

def giveHandle (o : Outside) : Handle → Outside
  | none => o
  | some n => o.give n

def holds (o : Outside) : Handle → Bool
  | none => true
  | some n => 0 < o.client n

end Outside

namespace Graph

/-- `add_listener_unlock` with the handle of the awaiter. -/
def await (g : Graph) (c : CoroutineId) (n : EventId) : Graph := (g.ref n).addListener n (.coroutine c)

/-- `~task_event_awaiter` of a suspended coroutine. -/
def cancel (g : Graph) (c : CoroutineId) (n : EventId) : Graph :=
  (g.removeListener n (.coroutine c)).deref n

/-- `finish_migrate` -/
def finishMigrate (g : Graph) (d : DriverId) : Graph :=
  g.modifyInbox d fun i =>
    { asap := i.asap ++ i.migrate, migrate := [], migrateFdClose := [], nonempty := false }

def popAsap (g : Graph) (d : DriverId) : Graph :=
  g.modifyInbox d fun i => { i with asap := i.asap.tail }

end Graph

variable {rank : EventId → Nat} {P : List (EventId × EventId)} {flight flight' : List EventId}
  {o o' : Outside} {g g' : Graph} {n m : EventId} {c : CoroutineId} {d : DriverId}

/-- One handle to `n` goes from one holder to another. -/
theorem Linked.transfer (linked : Linked rank P flight o g) (n : EventId) (h h' : Holder)
    (apart : h ≠ h') (less : held g o' flight' n h + 1 = held g o flight n h)
    (more : held g o' flight' n h' = held g o flight n h' + 1)
    (others : ∀ x, x ≠ h → x ≠ h' → held g o' flight' n x = held g o flight n x)
    (rest : ∀ m, m ≠ n → ∀ x, held g o' flight' m x = held g o flight m x) :
    Linked rank P flight' o' g := by
  refine { linked with covered := fun m => ?_ }
  by_cases same : m = n
  · subst same
    exact (linked.covered m).move h h' others apart less more
  · exact (linked.covered m).congr (rest m same)

theorem Linked.give (linked : Linked rank P (n :: flight) o g) :
    Linked rank P flight (o.give n) g := by
  apply linked.transfer n .flight .client (by simp)
  · simp [held]
  · simp [held, Outside.give]
  · intro x notFlight notClient
    cases x <;> first | contradiction | rfl
  · intro m ne x
    cases x <;> first | rfl | simp [held, Outside.give, ne, Ne.symm ne]

theorem Linked.take (linked : Linked rank P flight o g) (owns : 0 < o.client n) :
    Linked rank P (n :: flight) (o.take n) g := by
  apply linked.transfer n .client .flight (by simp)
  · simp only [held, Outside.take, if_true]
    omega
  · simp [held]
  · intro x notClient notFlight
    cases x <;> first | contradiction | rfl
  · intro m ne x
    cases x <;> first | rfl | simp [held, Outside.take, ne, Ne.symm ne]

theorem Linked.wait (linked : Linked rank P (n :: flight) o g) (idle : o.waiting c = none) :
    Linked rank P flight (o.wait c (some n)) g := by
  apply linked.transfer n .flight (.coroutine c) (by simp)
  · simp [held]
  · simp [held, Outside.wait, idle]
  · intro x notFlight notMine
    cases x <;> first | contradiction | rfl | skip
    rename_i c'
    have other : c' ≠ c := fun same => notMine (same ▸ rfl)
    simp [held, Outside.wait, other]
  · intro m ne x
    cases x <;> first | rfl | skip
    · simp [held, Ne.symm ne]
    · rename_i c'
      by_cases same : c' = c <;> simp [held, Outside.wait, same, idle, Ne.symm ne]

theorem Linked.unwait (linked : Linked rank P flight o g) (waits : o.waiting c = some n) :
    Linked rank P (n :: flight) (o.wait c none) g := by
  apply linked.transfer n (.coroutine c) .flight (by simp)
  · simp [held, Outside.wait, waits]
  · simp [held]
  · intro x notMine notFlight
    cases x <;> first | contradiction | rfl | skip
    rename_i c'
    have other : c' ≠ c := fun same => notMine (same ▸ rfl)
    simp [held, Outside.wait, other]
  · intro m ne x
    cases x <;> first | rfl | skip
    · simp [held, Ne.symm ne]
    · rename_i c'
      by_cases same : c' = c <;> simp [held, Outside.wait, same, waits, Ne.symm ne]

theorem Linked.visit (linked : Linked rank P (n :: flight) o g) (idle : o.visiting d = none) :
    Linked rank P flight (o.visit d (some n)) g := by
  apply linked.transfer n .flight (.visit d) (by simp)
  · simp [held]
  · simp [held, Outside.visit, idle]
  · intro x notFlight notMine
    cases x <;> first | contradiction | rfl | skip
    rename_i d'
    have other : d' ≠ d := fun same => notMine (same ▸ rfl)
    simp [held, Outside.visit, other]
  · intro m ne x
    cases x <;> first | rfl | skip
    · simp [held, Ne.symm ne]
    · rename_i d'
      by_cases same : d' = d <;> simp [held, Outside.visit, same, idle, Ne.symm ne]

theorem Linked.unvisit (linked : Linked rank P flight o g) (visits : o.visiting d = some n) :
    Linked rank P (n :: flight) (o.visit d none) g := by
  apply linked.transfer n (.visit d) .flight (by simp)
  · simp [held, Outside.visit, visits]
  · simp [held]
  · intro x notMine notFlight
    cases x <;> first | contradiction | rfl | skip
    rename_i d'
    have other : d' ≠ d := fun same => notMine (same ▸ rfl)
    simp [held, Outside.visit, other]
  · intro m ne x
    cases x <;> first | rfl | skip
    · simp [held, Ne.symm ne]
    · rename_i d'
      by_cases same : d' = d <;> simp [held, Outside.visit, same, visits, Ne.symm ne]

/-! Queues. -/

theorem inbox_linked (linked : Linked rank P flight o g) (f : Inbox → Inbox)
    (covered : ∀ n, Counts (held (g.modifyInbox d f) o flight' n) (g.body n).refcount) :
    Linked rank P flight' o (g.modifyInbox d f) :=
  ⟨linked.link, linked.silent, linked.pending, linked.ranked, covered⟩

theorem postAsap_linked (linked : Linked rank P (n :: flight) o g) (d : DriverId) :
    Linked rank P flight o (g.postAsap d n) := by
  simpa [Graph.post, Caller.poster] using post_linked (k := ⟨some d, d⟩) linked d

theorem finishMigrate_linked (linked : Linked rank P flight o g) (d : DriverId) :
    Linked rank P flight o (g.finishMigrate d) := by
  apply inbox_linked linked
  intro n
  apply (linked.covered n).move (.migrate d) (.asap d) (k := (g.inbox d).migrate.count n) _ (by simp)
  · simp [held]
  · simp [held]
  · intro x notMigrate notAsap
    cases x <;> first | rfl | skip
    · rename_i d'
      have other : d' ≠ d := fun same => notAsap (same ▸ rfl)
      simp [held, other]
    · rename_i d'
      have other : d' ≠ d := fun same => notMigrate (same ▸ rfl)
      simp [held, other]

theorem popAsap_linked (linked : Linked rank P flight o g) (front : (g.inbox d).asap = n :: rest) :
    Linked rank P (n :: flight) o (g.popAsap d) := by
  apply inbox_linked linked
  intro m
  by_cases same : m = n
  · subst same
    apply (linked.covered m).move (.asap d) .flight (k := 1) _ (by simp)
    · simp [held, front]
    · simp [held]
    · intro x notAsap notFlight
      cases x <;> first | contradiction | rfl | skip
      · rename_i d'
        have other : d' ≠ d := fun same => notAsap (same ▸ rfl)
        simp [held, other]
      · rename_i d'
        by_cases same : d' = d <;> simp [held, same]
  · apply (linked.covered m).congr
    intro x
    cases x <;> first | rfl | skip
    · simp [held, Ne.symm same]
    · rename_i d'
      by_cases mine : d' = d
      · subst mine
        simp [held, front, Ne.symm same]
      · simp [held, mine]
    · rename_i d'
      by_cases mine : d' = d <;> simp [held, mine]

/-! Coroutines in the listener list. -/

/-- Only the coroutines among the listeners change. -/
def Relisted (g g' : Graph) : Prop :=
  g'.next = g.next ∧ g'.inbox = g.inbox ∧ ∀ m, ∃ listeners,
    g'.body m = { g.body m with listeners } ∧
      ∀ q, listeners.count (.quorum q) = (g.body m).listeners.count (.quorum q)

theorem removeListener_relisted (g : Graph) (n : EventId) (c : CoroutineId) :
    Relisted g (g.removeListener n (.coroutine c)) := by
  refine ⟨rfl, rfl, fun m => ?_⟩
  simp only [Graph.removeListener_body]
  split
  · exact ⟨_, rfl, fun q => by simp [count_swapErase]⟩
  · exact ⟨_, rfl, fun q => rfl⟩

theorem addListener_relisted (g : Graph) (n : EventId) (c : CoroutineId) :
    Relisted g (g.addListener n (.coroutine c)) := by
  refine ⟨rfl, rfl, fun m => ?_⟩
  simp only [Graph.addListener_body]
  split
  · exact ⟨_, rfl, fun q => by simp [List.count_append]⟩
  · exact ⟨_, rfl, fun q => rfl⟩

theorem Relisted.linked (relisted : Relisted g g') (linked : Linked rank P flight o g) :
    Linked rank P flight o g' := by
  obtain ⟨_, inbox, body⟩ := relisted
  have members : ∀ m, (g'.body m).members = (g.body m).members := by
    intro m
    obtain ⟨_, eq, _⟩ := body m
    rw [eq]
  refine ⟨fun e q => ?_, fun e q fired => ?_, fun e q listed => ?_, fun e q member => ?_,
    fun n => ?_⟩
  · obtain ⟨_, eq, quorums⟩ := body e
    rw [members, eq]
    simp only [quorums]
    exact linked.link e q
  · obtain ⟨_, eq, quorums⟩ := body e
    rw [eq] at fired ⊢
    have none := List.count_eq_zero.mpr (linked.silent e q fired)
    exact List.count_eq_zero.mp ((quorums q).trans none)
  · obtain ⟨_, eq, _⟩ := body e
    rw [eq]
    exact linked.pending e q listed
  · rw [members] at member
    obtain ⟨_, eq, _⟩ := body q
    rw [eq]
    exact linked.ranked e q member
  · obtain ⟨_, eq, _⟩ := body n
    rw [held_congr members inbox, eq]
    exact linked.covered n

theorem Relisted.counted (relisted : Relisted g g')
    (counted : Counted args explicit x y g) : Counted args explicit x y g' := by
  apply counted.update
  intro m
  obtain ⟨listeners, eq, _⟩ := relisted.2.2 m
  exact ⟨_, _, listeners, eq, fun _ _ live => live⟩

end Cotamer.Event

import Cotamer.Event.Combinators
import Cotamer.References

/-! The links between events and quorums, and the reference counts, while
handles are dropped. A quorum may be in the middle of a trigger: `P` lists the
notifications still to be delivered, and `flight` the handles that the running
function itself holds. -/
namespace Cotamer.Event
open SwapVector References

/-- Handles held outside the event graph. -/
structure Outside where
  client : EventId → Nat := fun _ => 0
  waiting : CoroutineId → Option EventId := fun _ => none
  visiting : DriverId → Option EventId := fun _ => none

inductive Holder where
  | flight
  | client
  | coroutine (c : CoroutineId)
  | visit (d : DriverId)
  | quorum (q : EventId)
  | asap (d : DriverId)
  | migrate (d : DriverId)
  deriving DecidableEq

/-- The handles to event `n` in each holder's hands. -/
def held (g : Graph) (o : Outside) (flight : List EventId) (n : EventId) : Holder → Nat
  | .flight => flight.count n
  | .client => o.client n
  | .coroutine c => if o.waiting c = some n then 1 else 0
  | .visit d => if o.visiting d = some n then 1 else 0
  | .quorum q => (g.body q).members.count n
  | .asap d => (g.inbox d).asap.count n
  | .migrate d => (g.inbox d).migrate.count n

/-- Events and quorums point at each other equally often, except for the
notifications on their way; quorums are built upwards; the reference counts are
right. -/
structure Linked (rank : EventId → Nat) (P : List (EventId × EventId)) (flight : List EventId)
    (o : Outside) (g : Graph) : Prop where
  link : ∀ e q, (g.body q).members.count e =
    if (g.body e).triggered then P.count (e, q) else (g.body e).listeners.count (.quorum q)
  silent : ∀ e q, (g.body e).triggered = true → .quorum q ∉ (g.body e).listeners
  pending : ∀ e q, (e, q) ∈ P → (g.body e).triggered = true
  ranked : ∀ e q, e ∈ (g.body q).members → rank e < rank q ∧ (g.body q).isQuorum = true
  covered : ∀ n, Counts (held g o flight n) (g.body n).refcount

/-- What dropping handles can change: members of dead quorums, and of `x`, are
taken out, and with them the quorums among the members' listeners. -/
structure Shrinks (x : Option EventId) (g g' : Graph) : Prop where
  next : g'.next = g.next
  inbox : g'.inbox = g.inbox
  fixed : ∀ m, g'.body m = { g.body m with
    refcount := (g'.body m).refcount, listeners := (g'.body m).listeners
    members := (g'.body m).members, freed := (g'.body m).freed }
  coroutines : ∀ m c, (g'.body m).listeners.count (.coroutine c) =
    (g.body m).listeners.count (.coroutine c)
  refcount : ∀ m, (g'.body m).refcount ≤ (g.body m).refcount
  members : ∀ m, x ≠ some m → 0 < (g'.body m).refcount → (g'.body m).members = (g.body m).members
  fewer : ∀ m, (g'.body m).members.Subperm (g.body m).members

variable {rank : EventId → Nat} {P : List (EventId × EventId)} {flight : List EventId}
  {o : Outside} {g g' : Graph} {n q m : EventId}

theorem Shrinks.refl (x : Option EventId) (g : Graph) : Shrinks x g g :=
  ⟨rfl, rfl, fun _ => rfl, fun _ _ => rfl, fun _ => Nat.le_refl _, fun _ _ _ => rfl,
    fun _ => List.Subperm.refl _⟩

theorem Shrinks.trans (first : Shrinks x g g') (second : Shrinks x g' g'') : Shrinks x g g'' where
  next := second.next.trans first.next
  inbox := second.inbox.trans first.inbox
  fixed m := by
    rw [second.fixed m, first.fixed m]
  coroutines m c := (second.coroutines m c).trans (first.coroutines m c)
  refcount m := (second.refcount m).trans (first.refcount m)
  members m ne live := (second.members m ne live).trans
    (first.members m ne (live.trans_le (second.refcount m)))
  fewer m := (second.fewer m).trans (first.fewer m)

theorem Shrinks.weaken (shrinks : Shrinks none g g') : Shrinks x g g' :=
  { shrinks with members := fun m _ live => shrinks.members m (fun h => nomatch h) live }

/-- Once it is dead, the exempt quorum needs no exemption. -/
theorem Shrinks.dead (shrinks : Shrinks (some q) g g') (dead : (g'.body q).refcount = 0) :
    Shrinks none g g' := by
  refine { shrinks with members := fun m _ live => shrinks.members m ?_ live }
  rintro ⟨⟩
  exact absurd dead (Nat.ne_of_gt live)

theorem Shrinks.isQuorum (shrinks : Shrinks x g g') (m : EventId) :
    (g'.body m).isQuorum = (g.body m).isQuorum := by
  rw [shrinks.fixed m]

theorem Shrinks.triggered (shrinks : Shrinks x g g') (m : EventId) :
    (g'.body m).triggered = (g.body m).triggered := by
  rw [shrinks.fixed m]

theorem Shrinks.triggeredMembers (shrinks : Shrinks x g g') (m : EventId) :
    (g'.body m).triggeredMembers = (g.body m).triggeredMembers := by
  rw [shrinks.fixed m]

theorem Shrinks.quorum (shrinks : Shrinks x g g') (m : EventId) :
    (g'.body m).quorum = (g.body m).quorum := by
  rw [shrinks.fixed m]

/-! Single updates. -/

theorem unref_shrinks (g : Graph) (n : EventId) : Shrinks none g (g.unref n) := by
  refine ⟨rfl, rfl, fun m => ?_, fun m c => ?_, fun m => ?_, fun m _ _ => ?_, fun m => ?_⟩
    <;> simp only [Graph.unref_body] <;> split
  all_goals first | rfl | exact Nat.sub_le _ _

theorem free_shrinks (g : Graph) (n : EventId) : Shrinks none g (g.free n) := by
  refine ⟨rfl, rfl, fun m => ?_, fun m c => ?_, fun m => ?_, fun m _ _ => ?_, fun m => ?_⟩
    <;> simp only [Graph.free_body] <;> split
  all_goals rfl

theorem held_congr (members : ∀ q, (g'.body q).members = (g.body q).members)
    (inbox : g'.inbox = g.inbox) : held g' o flight n = held g o flight n := by
  funext h
  cases h <;> simp only [held, members, inbox]

/-- An update that only touches reference counts and `freed`. -/
theorem Linked.update (linked : Linked rank P flight o g)
    (same : ∀ m, (g'.body m).members = (g.body m).members ∧
      (g'.body m).listeners = (g.body m).listeners ∧
      (g'.body m).triggered = (g.body m).triggered ∧ (g'.body m).isQuorum = (g.body m).isQuorum)
    (covered : ∀ n, Counts (held g' o flight' n) (g'.body n).refcount) :
    Linked rank P flight' o g' where
  link e q := by
    rw [(same q).1, (same e).2.1, (same e).2.2.1]
    exact linked.link e q
  silent e q triggered := by
    rw [(same e).2.1]
    exact linked.silent e q ((same e).2.2.1 ▸ triggered)
  pending e q listed := (same e).2.2.1 ▸ linked.pending e q listed
  ranked e q member := by
    rw [(same q).2.2.2]
    exact linked.ranked e q ((same q).1 ▸ member)
  covered := covered

theorem unref_linked (linked : Linked rank P (n :: flight) o g) :
    Linked rank P flight o (g.unref n) := by
  apply linked.update
  · intro m
    simp only [Graph.unref_body]
    split <;> exact ⟨rfl, rfl, rfl, rfl⟩
  · intro m
    have members : ∀ q, ((g.unref n).body q).members = (g.body q).members := by
      intro q
      simp only [Graph.unref_body]
      split <;> rfl
    rw [held_congr members (by rfl)]
    simp only [Graph.unref_body]
    split
    · rename_i same
      subst same
      apply (linked.covered m).lose .flight
      · intro h ne
        cases h <;> first | exact absurd rfl ne | rfl
      · simp [held]
    · rename_i ne
      apply (linked.covered m).congr
      intro h
      cases h <;> first | rfl | simp [held, Ne.symm ne]

theorem free_linked (linked : Linked rank P flight o g) : Linked rank P flight o (g.free n) := by
  have same : ∀ m, ((g.free n).body m).members = (g.body m).members ∧
      ((g.free n).body m).listeners = (g.body m).listeners ∧
      ((g.free n).body m).triggered = (g.body m).triggered ∧
      ((g.free n).body m).isQuorum = (g.body m).isQuorum := by
    intro m
    simp only [Graph.free_body]
    split <;> exact ⟨rfl, rfl, rfl, rfl⟩
  apply linked.update same
  intro m
  have refcount : ((g.free n).body m).refcount = (g.body m).refcount := by
    simp only [Graph.free_body]
    split <;> rfl
  rw [held_congr (fun q => (same q).1) (by rfl), refcount]
  exact linked.covered m

/-! Taking a member out. -/

theorem detachMember_body (apart : m ≠ q) (i : Nat) (e : EventId) :
    (g.detachMember q i m).body e =
      if e = q then { g.body e with members := swapRemove i (g.body e).members }
      else if e = m then { g.body e with listeners := swapErase (.quorum q) (g.body e).listeners }
      else g.body e := by
  simp only [Graph.detachMember, Graph.modify_body, Graph.removeListener_body]
  by_cases isQ : e = q
  · subst isQ
    simp [Ne.symm apart]
  · simp [isQ]

theorem detachMember_linked (linked : Linked rank P flight o g) (apart : m ≠ q)
    (bound : i < (g.body q).members.length) (here : (g.body q).members[i] = m)
    (untriggered : (g.body m).triggered = false) :
    Linked rank P (m :: flight) o (g.detachMember q i m) := by
  have body := fun e => detachMember_body (g := g) apart i e
  have members : ∀ q' e, ((g.detachMember q i m).body q').members.count e +
      (if q' = q ∧ e = m then 1 else 0) = (g.body q').members.count e := by
    intro q' e
    rw [body q']
    by_cases isQ : q' = q
    · subst isQ
      have counted := count_swapRemove bound e
      simp only [here, if_true, true_and, eq_comm (a := e)] at counted ⊢
      exact counted.symm
    · simp only [isQ, if_false, false_and, Nat.add_zero]
      split <;> rfl
  have quorums : ∀ e q', ((g.detachMember q i m).body e).listeners.count (.quorum q') +
      (if q' = q ∧ e = m then 1 else 0) = (g.body e).listeners.count (.quorum q') := by
    intro e q'
    have joined : 0 < (g.body m).listeners.count (.quorum q) := by
      have before := linked.link m q
      rw [untriggered, if_neg Bool.false_ne_true] at before
      rw [← before]
      exact List.count_pos_iff.mpr (here ▸ List.getElem_mem bound)
    rw [body e]
    by_cases isM : e = m
    · subst isM
      simp only [apart, if_false, if_true, and_true, count_swapErase, Listener.quorum.injEq,
        eq_comm (a := q)]
      split
      · rename_i same
        subst same
        omega
      · rfl
    · simp only [isM, and_false, if_false, Nat.add_zero]
      split <;> rfl
  have triggered : ∀ e, ((g.detachMember q i m).body e).triggered = (g.body e).triggered := by
    intro e
    rw [body e]
    split
    · rfl
    · split <;> rfl
  refine ⟨fun e q' => ?_, fun e q' fired => ?_, fun e q' listed => ?_, fun e q' member => ?_,
    fun e => ?_⟩
  · have before := linked.link e q'
    have left := members q' e
    have right := quorums e q'
    rw [triggered e]
    cases fired : (g.body e).triggered with
    | false =>
        simp only [fired, Bool.false_eq_true, if_false] at before ⊢
        omega
    | true =>
        have other : e ≠ m := by
          rintro rfl
          rw [untriggered] at fired
          contradiction
        simp only [fired, if_true] at before ⊢
        simp only [other, and_false, if_false] at left
        omega
  · rw [triggered e] at fired
    intro listed
    have counted := List.count_pos_iff.mpr listed
    have right := quorums e q'
    exact linked.silent e q' fired (List.count_pos_iff.mp (by omega))
  · rw [triggered e]
    exact linked.pending e q' listed
  · have kind : ((g.detachMember q i m).body q').isQuorum = (g.body q').isQuorum := by
      rw [body q']
      split
      · rfl
      · split <;> rfl
    have counted := List.count_pos_iff.mpr member
    have left := members q' e
    rw [kind]
    exact linked.ranked e q' (List.count_pos_iff.mp (by omega))
  · have kept : ((g.detachMember q i m).body e).refcount = (g.body e).refcount := by
      rw [body e]
      split
      · rfl
      · split <;> rfl
    rw [kept]
    have left := fun q' => members q' e
    by_cases isM : e = m
    · subst isM
      apply (linked.covered e).move (.quorum q) .flight _ (by simp) (k := 1)
      · have := left q
        simp only [and_self, if_true] at this
        exact this
      · simp [held]
      · intro h notQ notFlight
        cases h <;> first | exact absurd rfl notFlight | rfl | skip
        rename_i q'
        have other : q' ≠ q := fun same => notQ (same ▸ rfl)
        simpa [held, other] using left q'
    · apply (linked.covered e).congr
      intro h
      cases h <;> first | rfl | skip
      · simp [held, Ne.symm isM]
      · rename_i q'
        simpa [held, isM] using left q'

theorem detachMember_shrinks (apart : m ≠ q) (bound : i < (g.body q).members.length) :
    Shrinks (some q) g (g.detachMember q i m) := by
  have body := fun e => detachMember_body (g := g) apart i e
  refine ⟨rfl, rfl, fun e => ?_, fun e c => ?_, fun e => ?_, fun e ne _ => ?_, fun e => ?_⟩
  all_goals rw [body e]; split
  · rfl
  · split <;> rfl
  · rfl
  · split
    · simp [count_swapErase]
    · rfl
  · rfl
  · split <;> exact Nat.le_refl _
  · rename_i same
    exact absurd (congrArg some same.symm) ne
  · split <;> rfl
  · rename_i same
    subst same
    exact (List.sublist_cons_self _ _).subperm.trans (swapRemove_perm bound).subperm
  · split <;> exact List.Subperm.refl _

/-! Deletion. -/

/-- All members have triggered. -/
def Spent (g : Graph) (q : EventId) : Prop :=
  ∀ e ∈ (g.body q).members, (g.body e).triggered = true

/-- The body is deleted once at most, and then has neither references nor
members; a triggered one keeps no member that is waiting. -/
structure Tidy (g : Graph) (n : EventId) : Prop where
  once : (g.body n).freed ≤ 1
  gone : 0 < (g.body n).freed → (g.body n).refcount = 0 ∧ (g.body n).members = []
  fired : (g.body n).triggered = true → Spent g n

/-- Without references the body has been deleted, or some trigger is about to
take out its last members and delete it. -/
def Collected (g : Graph) (n : EventId) : Prop :=
  (g.body n).refcount = 0 →
    0 < (g.body n).freed ∨ Spent g n ∧ (n < g.next → (g.body n).members ≠ [])

def Keeps (g g' : Graph) (m : EventId) : Prop :=
  Tidy g m → Tidy g' m ∧ (Collected g m → Collected g' m)

theorem Keeps.trans (first : Keeps g g' m) (second : Keeps g' g'' m) : Keeps g g'' m := by
  intro tidy
  obtain ⟨tidy, collected⟩ := first tidy
  obtain ⟨tidy, collected'⟩ := second tidy
  exact ⟨tidy, fun before => collected' (collected before)⟩

/-- Bodies whose members, references and flag are the same. -/
structure Alike (g g' : Graph) (m : EventId) : Prop where
  next : g'.next = g.next
  refcount : (g'.body m).refcount = (g.body m).refcount
  members : (g'.body m).members = (g.body m).members
  freed : (g'.body m).freed = (g.body m).freed
  triggered : ∀ e, (g'.body e).triggered = (g.body e).triggered

theorem Alike.spent (alike : Alike g g' m) : Spent g' m ↔ Spent g m := by
  simp only [Spent, alike.members, alike.triggered]

theorem Alike.keeps (alike : Alike g g' m) : Keeps g g' m := by
  intro tidy
  refine ⟨⟨?_, ?_, ?_⟩, ?_⟩
  · rw [alike.freed]
    exact tidy.once
  · rw [alike.freed, alike.refcount, alike.members]
    exact tidy.gone
  · rw [alike.triggered, alike.spent]
    exact tidy.fired
  · intro collected
    rw [Collected, alike.next, alike.refcount, alike.freed, alike.members, alike.spent]
    exact collected

theorem Tidy.alive (tidy : Tidy g n) (live : 0 < (g.body n).refcount) : (g.body n).freed = 0 := by
  rcases Nat.eq_zero_or_pos (g.body n).freed with zero | positive
  · exact zero
  · exact absurd (tidy.gone positive).1 (Nat.ne_of_gt live)

/-- Members are taken out of a body that is not deleted. -/
theorem Tidy.fewer (tidy : Tidy g n) (freed : (g'.body n).freed = 0)
    (triggered : ∀ e, (g'.body e).triggered = (g.body e).triggered)
    (members : (g'.body n).members ⊆ (g.body n).members) : Tidy g' n where
  once := freed ▸ Nat.zero_le 1
  gone deleted := absurd freed (Nat.ne_of_gt deleted)
  fired set e member := by
    rw [triggered] at set ⊢
    exact tidy.fired set e (members member)

theorem Linked.alive (linked : Linked rank P flight o g) (h : Holder)
    (holds : 0 < held g o flight n h) : 0 < (g.body n).refcount :=
  holds.trans_le ((linked.covered n).holder h)

theorem Linked.flying (linked : Linked rank P (n :: flight) o g) : 0 < (g.body n).refcount :=
  linked.alive .flight (by simp [held])

/-- `delete this` -/
theorem free_tidy (alive : (g.body n).freed = 0) (dead : (g.body n).refcount = 0)
    (empty : (g.body n).members = []) : Tidy (g.free n) n ∧ Collected (g.free n) n := by
  have spent : Spent (g.free n) n := by
    intro e member
    rw [Graph.free_body, if_pos rfl, empty] at member
    exact nomatch member
  refine ⟨⟨?_, fun _ => ?_, fun _ => spent⟩, fun _ => .inl ?_⟩
  all_goals simp [alive, dead, empty]

theorem unref_alike (other : m ≠ n) : Alike g (g.unref n) m := by
  refine ⟨rfl, ?_, ?_, ?_, fun e => ?_⟩
  case refine_4 =>
    simp only [Graph.unref_body]
    split <;> rfl
  all_goals simp [other]

theorem free_alike (other : m ≠ n) : Alike g (g.free n) m := by
  refine ⟨rfl, ?_, ?_, ?_, fun e => ?_⟩
  case refine_4 =>
    simp only [Graph.free_body]
    split <;> rfl
  all_goals simp [other]

theorem detachMember_alike (apart : m ≠ q) (other : e ≠ q) : Alike g (g.detachMember q i m) e := by
  have body := fun e => detachMember_body (g := g) apart i e
  refine ⟨rfl, ?_, ?_, ?_, fun e => ?_⟩
  case refine_4 =>
    rw [body]
    split
    · rfl
    · split <;> rfl
  all_goals
    rw [body, if_neg other]
    split <;> rfl

/-- Every body is tidy and collected, except that `x` has yet to be deleted if
it was a quorum whose last handle is gone. -/
structure Tidied (x : Option EventId) (g : Graph) : Prop where
  tidy : ∀ m, Tidy g m
  collected : ∀ m, x ≠ some m → Collected g m
  exempt : ∀ m, x = some m → (g.body m).freed = 0 ∧
    ((g.body m).refcount = 0 → (g.body m).isQuorum = true ∧ Spent g m)

theorem Tidied.keeps (tidied : Tidied none g) (keeps : ∀ m, Keeps g g' m) : Tidied none g' where
  tidy m := (keeps m (tidied.tidy m)).1
  collected m free := (keeps m (tidied.tidy m)).2 (tidied.collected m free)
  exempt _ same := nomatch same

theorem Tidied.alike (tidied : Tidied none g) (alike : ∀ m, Alike g g' m) : Tidied none g' :=
  tidied.keeps fun m => (alike m).keeps

theorem Tidied.hold (tidied : Tidied none g) (live : 0 < (g.body n).refcount) : Tidied (some n) g where
  tidy := tidied.tidy
  collected m _ := tidied.collected m (fun same => nomatch same)
  exempt m same := by
    obtain rfl := Option.some.inj same
    exact ⟨(tidied.tidy n).alive live, fun dead => absurd dead (Nat.ne_of_gt live)⟩

/-- The exempt body has been seen to. -/
theorem Tidied.settle (tidied : Tidied (some n) g) (collected : Collected g n) : Tidied none g where
  tidy := tidied.tidy
  collected m _ := by
    by_cases same : n = m
    · exact same ▸ collected
    · exact tidied.collected m fun eq => same (Option.some.inj eq)
  exempt _ same := nomatch same

/-- The exempt body is deleted. -/
theorem Tidied.free (tidied : Tidied (some n) g) (dead : (g.body n).refcount = 0)
    (empty : (g.body n).members = []) : Tidied none (g.free n) := by
  have here := free_tidy (tidied.exempt n rfl).1 dead empty
  have others : ∀ m, m ≠ n → Tidy (g.free n) m ∧ Collected (g.free n) m := by
    intro m other
    obtain ⟨tidy, collected⟩ := (free_alike other).keeps (tidied.tidy m)
    exact ⟨tidy, collected (tidied.collected m fun same => other (Option.some.inj same).symm)⟩
  have each : ∀ m, Tidy (g.free n) m ∧ Collected (g.free n) m := by
    intro m
    by_cases same : m = n
    · exact same ▸ here
    · exact others m same
  exact ⟨fun m => (each m).1, fun m _ => (each m).2, fun _ same => nomatch same⟩

/-- Members are taken out of a quorum that is referred to. -/
theorem Tidied.cull (tidied : Tidied none g) (keeps : ∀ m, m ≠ q → Keeps g g' m)
    (live : 0 < (g.body q).refcount)
    (mine : g'.body q = { g.body q with members := (g'.body q).members })
    (shrinks : Shrinks (some q) g g') : Tidied none g' := by
  have refcount : (g'.body q).refcount = (g.body q).refcount := by rw [mine]
  have freed : (g'.body q).freed = (g.body q).freed := by rw [mine]
  have here : Tidy g' q := by
    apply (tidied.tidy q).fewer (freed.trans ((tidied.tidy q).alive live)) shrinks.triggered
    exact (shrinks.fewer q).subset
  apply tidied.keeps
  intro m tidy
  by_cases same : m = q
  · subst same
    exact ⟨here, fun _ dead => absurd (refcount.symm.trans dead) (Nat.ne_of_gt live)⟩
  · exact keeps m same tidy

/-! Culling and dropping. -/

/-- `drop` releases a handle that the caller holds, for events below rank `r`.
It leaves what is above the event alone. -/
def Drops (rank : EventId → Nat) (r : Nat) (drop : Graph → EventId → Graph) : Prop :=
  ∀ {P flight o g n}, rank n < r → Linked rank P (n :: flight) o g →
    Linked rank P flight o (drop g n) ∧ Shrinks none g (drop g n) ∧
      (∀ m, rank n < rank m → (drop g n).body m = g.body m) ∧ ∀ m, Keeps g (drop g n) m

theorem Drops.mono (drops : Drops rank r drop) (less : r' ≤ r) : Drops rank r' drop :=
  fun low linked => drops (low.trans_le less) linked

/-- A quorum that loses a member keeps the ones before it. -/
theorem spent_swapRemove {members : List EventId} {p : EventId → Bool}
    (before : ∀ j, j < i → ∀ e, members[j]? = some e → p e = true) (bound : i < members.length) :
    ∀ j, j < i → ∀ e, (swapRemove i members)[j]? = some e → p e = true := by
  intro j low e found
  rw [getElem_swapRemove_lt low bound] at found
  exact before j low e found

/-- Culling a quorum changes its own body in its member list only. -/
theorem cullFrom_linked (drops : Drops rank (rank q) drop) :
    ∀ {k i g flight}, i + k = (g.body q).members.length → Linked rank P flight o g →
      Linked rank P flight o (Graph.cullFrom drop q k i g) ∧
      Shrinks (some q) g (Graph.cullFrom drop q k i g) ∧
      (∀ m, rank q < rank m → (Graph.cullFrom drop q k i g).body m = g.body m) ∧
      (Graph.cullFrom drop q k i g).body q = { g.body q with
        members := ((Graph.cullFrom drop q k i g).body q).members } ∧
      (∀ m, m ≠ q → Keeps g (Graph.cullFrom drop q k i g) m) ∧
      ((∀ j, j < i → ∀ e, (g.body q).members[j]? = some e → (g.body e).triggered = true) →
        Spent (Graph.cullFrom drop q k i g) q) := by
  intro k
  induction k with
  | zero =>
      intro i g flight range linked
      refine ⟨linked, Shrinks.refl _ _, fun _ _ => rfl, rfl, fun _ _ tidy => ⟨tidy, id⟩, ?_⟩
      intro before e member
      obtain ⟨j, found⟩ := List.mem_iff_getElem?.mp member
      have bound : j < (g.body q).members.length := (List.getElem?_eq_some_iff.mp found).1
      exact before j (by omega) e found
  | succ k ih =>
      intro i g flight range linked
      have bound : i < (g.body q).members.length := by omega
      have here : (g.body q).members[i]? = some (g.body q).members[i] :=
        List.getElem?_eq_getElem bound
      simp only [Graph.cullFrom, here]
      have below := (linked.ranked _ q (List.getElem_mem bound)).1
      have apart : (g.body q).members[i] ≠ q := by
        intro same
        rw [same] at below
        exact Nat.lt_irrefl _ below
      split
      · rename_i fired
        obtain ⟨linked', shrinks, above, mine, keeps, spent⟩ := ih (i := i + 1) (by omega) linked
        refine ⟨linked', shrinks, above, mine, keeps, fun before => spent fun j low e found => ?_⟩
        rcases Nat.lt_succ_iff_lt_or_eq.mp low with low | rfl
        · exact before j low e found
        · cases Option.some.inj (here.symm.trans found)
          exact fired
      · rename_i untriggered
        generalize member : (g.body q).members[i] = m at below apart untriggered ⊢
        have detached := detachMember_linked linked apart bound member (by simpa using untriggered)
        obtain ⟨dropped, shrinks, above, keeps⟩ := drops below detached
        have body := detachMember_body (g := g) apart i
        have short := length_swapRemove bound
        have mine : (drop (g.detachMember q i m) m).body q =
            { g.body q with members := swapRemove i (g.body q).members } := by
          rw [above q below, body q, if_pos rfl]
        have shrinks₀ := (detachMember_shrinks apart bound).trans shrinks.weaken
        obtain ⟨linked', shrinks', above', mine', keeps', spent⟩ :=
          ih (i := i) (by rw [mine]; simp only; omega) dropped
        refine ⟨linked', shrinks₀.trans shrinks', fun e higher => ?_, ?_, fun e other => ?_,
          fun before => spent ?_⟩
        · have notQ : e ≠ q := by
            rintro rfl
            exact Nat.lt_irrefl _ higher
          have notM : e ≠ m := by
            rintro rfl
            exact Nat.lt_irrefl _ (below.trans higher)
          rw [above' e higher, above e (below.trans higher), body e, if_neg notQ, if_neg notM]
        · rw [mine', mine]
        · exact ((detachMember_alike apart other).keeps.trans (keeps e)).trans (keeps' e other)
        · rw [mine]
          simp only [shrinks₀.triggered]
          exact spent_swapRemove before bound

/-- One handle of several is dropped. -/
theorem unref_keeps (live : 1 < (g.body n).refcount) (m : EventId) : Keeps g (g.unref n) m := by
  by_cases same : m = n
  · subst same
    intro tidy
    have freed := tidy.alive (Nat.lt_of_succ_lt live)
    refine ⟨tidy.fewer ?_ ?_ ?_, fun _ dead => ?_⟩
    · simpa using freed
    · intro e
      simp only [Graph.unref_body]
      split <;> rfl
    · simp
    · simp only [Graph.unref_body, if_true] at dead
      omega
  · exact (unref_alike same).keeps

/-- The last handle is dropped: the body is deleted now if it has no members left. -/
theorem last_keeps (live : 0 < (g.body n).refcount) (others : ∀ m, m ≠ n → Keeps g g' m)
    (dead : (g'.body n).refcount = 0) (freed : (g'.body n).freed = (g.body n).freed)
    (spent : Tidy g n → (g'.body n).members ≠ [] → Spent g' n) (g'' : Graph)
    (done : g'' = if (g'.body n).members.isEmpty then g'.free n else g') (m : EventId) :
    Keeps g g'' m := by
  subst done
  by_cases same : m = n
  · subst same
    intro tidy
    have alive := freed.trans (tidy.alive live)
    split
    · rename_i empty
      obtain ⟨tidy', collected⟩ := free_tidy alive dead (List.isEmpty_iff.mp empty)
      exact ⟨tidy', fun _ => collected⟩
    · rename_i some
      have some : (g'.body m).members ≠ [] := by simpa using some
      have spent := spent tidy some
      refine ⟨⟨alive ▸ Nat.zero_le 1, fun deleted => ?_, fun _ => spent⟩, fun _ _ => ?_⟩
      · exact absurd alive (Nat.ne_of_gt deleted)
      · exact .inr ⟨spent, fun _ => some⟩
  · split
    · exact (others m same).trans (free_alike same).keeps
    · exact others m same

theorem derefWith_drops (fuel : Nat) : Drops rank fuel (Graph.derefWith fuel) := by
  induction fuel with
  | zero => exact fun low => absurd low (Nat.not_lt_zero _)
  | succ fuel ih =>
      intro P flight o g n low linked
      have live := linked.flying
      have unrefd := unref_linked linked
      have above : ∀ m, rank n < rank m → (g.unref n).body m = g.body m := by
        intro m higher
        rw [Graph.unref_body, if_neg]
        rintro rfl
        exact Nat.lt_irrefl _ higher
      have freed : ∀ {g' : Graph}, (∀ m, rank n < rank m → g'.body m = g.body m) →
          ∀ m, rank n < rank m → (g'.free n).body m = g.body m := by
        intro g' kept m higher
        rw [Graph.free_body, if_neg, kept m higher]
        rintro rfl
        exact Nat.lt_irrefl _ higher
      unfold Graph.derefWith
      simp only
      split
      · rename_i several
        exact ⟨unrefd, unref_shrinks g n, above, unref_keeps (by omega)⟩
      · rename_i last
        have dead : ((g.unref n).body n).refcount = 0 := by
          simp only [Graph.unref_body, if_true]
          omega
        have others : ∀ m, m ≠ n → Keeps g (g.unref n) m := fun m other => (unref_alike other).keeps
        have same : ((g.unref n).body n).freed = (g.body n).freed := by simp
        have members : ((g.unref n).body n).members = (g.body n).members := by simp
        split
        · split
          · rename_i fired
            have spent : Tidy g n → Spent (g.unref n) n := by
              intro tidy e member
              rw [members] at member
              rw [(unref_shrinks g n).triggered]
              exact tidy.fired fired e member
            have keeps := last_keeps live others dead same (fun tidy _ => spent tidy) _ rfl
            split
            · rename_i empty
              rw [if_pos empty] at keeps
              exact ⟨free_linked unrefd, (unref_shrinks g n).trans (free_shrinks _ n), freed above, keeps⟩
            · rename_i some
              rw [if_neg some] at keeps
              exact ⟨unrefd, unref_shrinks g n, above, keeps⟩
          · have drops : Drops rank (rank n) (Graph.derefWith fuel) := ih.mono (Nat.le_of_lt_succ low)
            have range : 0 + (g.body n).members.length = ((g.unref n).body n).members.length := by
              simp
            obtain ⟨culled, shrinks, kept, mine, keeps, spent⟩ := cullFrom_linked drops range unrefd
            have spent := spent fun j low => absurd low (Nat.not_lt_zero j)
            have dead' : ((Graph.cullFrom (Graph.derefWith fuel) n (g.body n).members.length 0
                (g.unref n)).body n).refcount = 0 := by
              rw [mine]
              exact dead
            have same' : ((Graph.cullFrom (Graph.derefWith fuel) n (g.body n).members.length 0
                (g.unref n)).body n).freed = (g.body n).freed := by
              rw [mine]
              exact same
            have shrunk := (unref_shrinks g n).trans (shrinks.dead dead')
            have kept := fun m higher => (kept m higher).trans (above m higher)
            have keeps := last_keeps live (fun m other => (others m other).trans (keeps m other)) dead'
              same' (fun _ _ => spent) _ rfl
            split
            · rename_i empty
              rw [if_pos empty] at keeps
              exact ⟨free_linked culled, shrunk.trans (free_shrinks _ n), freed kept, keeps⟩
            · rename_i some
              rw [if_neg some] at keeps
              exact ⟨culled, shrunk, kept, keeps⟩
        · rename_i plain
          have empty : ((g.unref n).body n).members = [] := by
            rw [members]
            cases quorum : (g.body n).isQuorum with
            | true => simpa [quorum] using plain
            | false =>
                apply List.eq_nil_iff_forall_not_mem.mpr
                intro e member
                rw [(linked.ranked e n member).2] at quorum
                contradiction
          have keeps := last_keeps live others dead same (fun _ some => absurd empty some) _ rfl
          rw [if_pos (List.isEmpty_iff.mpr empty)] at keeps
          exact ⟨free_linked unrefd, (unref_shrinks g n).trans (free_shrinks _ n), freed above, keeps⟩

theorem deref_linked (deep : ∀ m, rank m ≤ g.next) (linked : Linked rank P (n :: flight) o g) :
    Linked rank P flight o (g.deref n) ∧ Shrinks none g (g.deref n) := by
  obtain ⟨dropped, shrinks, _⟩ := derefWith_drops (g.next + 1) (Nat.lt_succ_of_le (deep n)) linked
  exact ⟨dropped, shrinks⟩

theorem deref_above (deep : ∀ m, rank m ≤ g.next) (linked : Linked rank P (n :: flight) o g)
    (higher : rank n < rank m) : (g.deref n).body m = g.body m :=
  (derefWith_drops (g.next + 1) (Nat.lt_succ_of_le (deep n)) linked).2.2.1 m higher

theorem deref_keeps (deep : ∀ m, rank m ≤ g.next) (linked : Linked rank P (n :: flight) o g)
    (m : EventId) : Keeps g (g.deref n) m :=
  (derefWith_drops (g.next + 1) (Nat.lt_succ_of_le (deep n)) linked).2.2.2 m

theorem cullMembers_linked (deep : ∀ m, rank m ≤ g.next) (linked : Linked rank P flight o g) :
    Linked rank P flight o (g.cullMembers q) ∧ Shrinks (some q) g (g.cullMembers q) ∧
      (g.cullMembers q).body q = { g.body q with members := ((g.cullMembers q).body q).members } ∧
      (∀ m, m ≠ q → Keeps g (g.cullMembers q) m) ∧ Spent (g.cullMembers q) q := by
  have drops : Drops rank (rank q) (Graph.derefWith (g.next + 1)) :=
    Drops.mono (derefWith_drops (g.next + 1)) (Nat.le_succ_of_le (deep q))
  obtain ⟨culled, shrinks, _, mine, keeps, spent⟩ := cullFrom_linked drops (Nat.zero_add _) linked
  exact ⟨culled, shrinks, mine, keeps, spent fun j low => absurd low (Nat.not_lt_zero j)⟩

end Cotamer.Event

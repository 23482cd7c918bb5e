import Mathlib
import Cotamer.Event.Lazy

/-! The operations that have nothing to do with placeholders leave them alone,
and keep the events as they are. -/
namespace Cotamer.Event
open SwapVector References Transition

variable {home : CoroutineId → DriverId} {w w' : World} {op : Op} {n m : EventId} {c : CoroutineId}
  {current : DriverId}

/-- An operation that leaves the placeholders and the quorums alone. -/
structure Steady (w w' : World) : Prop where
  next : w.graph.next ≤ w'.graph.next
  same : ∀ m, m < w.graph.next → (w'.graph.body m).isQuorum = (w.graph.body m).isQuorum ∧
    (w'.graph.body m).quorum = (w.graph.body m).quorum ∧ w'.args m = w.args m
  placeholders : SameInterest w.graph w'.graph
  triggered : ∀ m, (w.graph.body m).triggered = true → (w'.graph.body m).triggered = true
  members : ∀ m, (w'.graph.body m).members ⊆ (w.graph.body m).members
  waiting : ∀ c n, w'.outside.waiting c = some n → w.outside.waiting c = some n ∨ Satisfied w.graph n
  nodes : w'.nodes = w.nodes

theorem Steady.of_evolves (evolves : Evolves w.graph w'.graph) (same : SameInterest w.graph w'.graph)
    (args : w'.args = w.args) (nodes : w'.nodes = w.nodes)
    (waiting : ∀ c n, w'.outside.waiting c = some n → w.outside.waiting c = some n) : Steady w w' where
  next := Nat.le_of_eq evolves.next.symm
  same m _ := ⟨evolves.kinds m, evolves.quorums m, congrFun args m⟩
  placeholders := same
  triggered := evolves.triggered
  members m := (evolves.fewer m).subset
  waiting c n waits := .inl (waiting c n waits)
  nodes := nodes

theorem waiting_wait_none (o : Outside) (c : CoroutineId) {c' : CoroutineId}
    (waits : (o.wait c none).waiting c' = some n) : o.waiting c' = some n := by
  simp only [Outside.wait] at waits
  split at waits
  · cases waits
  · exact waits

theorem waiting_giveHandle (o : Outside) (h : Handle) : (o.giveHandle h).waiting = o.waiting := by
  cases h <;> rfl

theorem trigger_evolves (inv : Inv w) (home : CoroutineId → DriverId) (current : DriverId) (n : EventId) :
    Evolves w.graph (w.graph.trigger home current n) ∧
      SameInterest w.graph (w.graph.trigger home current n) := by
  unfold Graph.trigger
  cases fired : (w.graph.body n).triggered with
  | true => exact ⟨Evolves.refl _, SameInterest.refl _⟩
  | false =>
      obtain ⟨settles, _⟩ := trigger_settles inv home ⟨none, current⟩ fired
      exact ⟨settles.wakes.evolves inv.unheld, sameInterest_triggerUnlock⟩

theorem sameInterest_driverTrigger (g : Graph) (d : DriverId) (n : EventId) :
    SameInterest g (g.driverTrigger home d n).graph := by
  unfold Graph.driverTrigger
  split
  · exact sameInterest_triggerUnlock
  · split
    · exact sameInterest_removeListener g n _
    · exact SameInterest.refl g

/-- Only queues and handles change. -/
theorem Steady.of_body (body : w'.graph.body = w.graph.body) (next : w'.graph.next = w.graph.next)
    (args : w'.args = w.args) (nodes : w'.nodes = w.nodes)
    (waiting : ∀ c n, w'.outside.waiting c = some n → w.outside.waiting c = some n) : Steady w w' where
  next := Nat.le_of_eq next.symm
  same m _ := by
    rw [body, args]
    exact ⟨rfl, rfl, rfl⟩
  placeholders m := by
    rw [body]
    exact ⟨rfl, rfl⟩
  triggered m fired := by rwa [body]
  members m := by rw [body]; exact List.Subset.refl _
  waiting c n waits := .inl (waiting c n waits)
  nodes := nodes

/-- A new plain event. -/
theorem Steady.alloc (inv : Inv w) (untouched : (w.graph.body w.graph.next).interest = 0 ∧
      (w.graph.body w.graph.next).wantInterest = false)
    (graph : w'.graph = w.graph.alloc {}) (args : w'.args = w.args) (nodes : w'.nodes = w.nodes)
    (waiting : ∀ c n, w'.outside.waiting c = some n → w.outside.waiting c = some n) : Steady w w' where
  next := by
    rw [graph]
    exact Nat.le_succ _
  same m low := by
    rw [graph, args, Graph.alloc_body, if_neg (Nat.ne_of_lt low)]
    exact ⟨rfl, rfl, rfl⟩
  placeholders m := by
    rw [graph, Graph.alloc_body]
    split
    · next new => exact new ▸ ⟨untouched.1.symm, untouched.2.symm⟩
    · exact ⟨rfl, rfl⟩
  triggered m fired := by
    rw [graph, Graph.alloc_body]
    split
    · next new =>
      rw [new, inv.untriggered (Nat.le_refl _)] at fired
      contradiction
    · exact fired
  members m := by
    rw [graph, Graph.alloc_body]
    split
    · exact List.nil_subset _
    · exact List.Subset.refl _
  waiting c n waits := .inl (waiting c n waits)
  nodes := nodes

theorem visited_steady (inv : Inv w) (d : DriverId) (visits : w.outside.visiting d = some n) :
    Steady w (w.visited home d n) := by
  have visit := driverTrigger_visits inv home d n
  have same : SameInterest w.graph (w.graph.driverTrigger home d n).graph :=
    sameInterest_driverTrigger w.graph d n
  unfold World.visited
  simp only
  split
  · have deep : ∀ m, rankOf w.graph m ≤ (w.graph.driverTrigger home d n).graph.next := by
      rw [visit.evolves.next]
      exact inv.deep
    obtain ⟨_, shrinks⟩ := deref_linked deep (visit.linked.unvisit visits)
    exact .of_evolves (visit.evolves.trans shrinks.evolves) (same.trans (sameInterest_deref _ n)) rfl rfl
      fun _ _ => id
  · refine .of_evolves visit.evolves same rfl rfl fun c m waits => ?_
    have waits := waiting_wait_none _ _ waits
    rwa [waiting_giveHandle] at waits

/-- An operation other than making and awaiting events. -/
theorem step_steady (inv : Inv w) (untouched : (w.graph.body w.graph.next).interest = 0 ∧
      (w.graph.body w.graph.next).wantInterest = false)
    (combines : ∀ form args current, op ≠ .combine form args current) (awaits : ∀ c n, op ≠ .await c n)
    (moved : w.step home op = some w') : Steady w w' := by
  cases op <;> simp only [World.step, Option.ite_none_right_eq_some, Option.some.injEq] at moved
  case create =>
    cases moved
    exact .alloc inv untouched rfl rfl rfl fun _ _ => id
  case combine form args current => exact absurd rfl (combines form args current)
  case copy n =>
    obtain ⟨_, rfl⟩ := moved
    exact .of_evolves (ref_evolves _ _) (sameInterest_ref _ _) rfl rfl fun _ _ => id
  case drop n =>
    obtain ⟨owns, rfl⟩ := moved
    obtain ⟨_, shrinks⟩ := deref_linked inv.deep (inv.linked.take owns)
    exact .of_evolves shrinks.evolves (sameInterest_deref _ _) rfl rfl fun _ _ => id
  case trigger n current =>
    obtain ⟨_, rfl⟩ := moved
    obtain ⟨evolves, same⟩ := trigger_evolves inv home current n
    exact .of_evolves evolves same rfl rfl fun _ _ => id
  case await c n => exact absurd rfl (awaits c n)
  case cancel c =>
    split at moved
    · contradiction
    · rename_i n waits
      cases Option.some.inj moved
      have relisted := removeListener_relisted w.graph n c
      have removed := (relisted.linked inv.linked).unwait waits
      obtain ⟨_, shrinks⟩ := deref_linked (g := w.graph.removeListener n _) inv.deep removed
      exact .of_evolves (relisted.evolves.trans shrinks.evolves)
        ((sameInterest_removeListener _ n _).trans (sameInterest_deref _ n)) rfl rfl
        fun _ _ => waiting_wait_none _ _
  case closeFd d fd | migrate d =>
    cases moved
    exact .of_body rfl rfl rfl rfl fun _ _ => id
  case asap d n | takeHandle d n =>
    obtain ⟨_, rfl⟩ := moved
    exact .of_body rfl rfl rfl rfl fun _ _ => id
  case popAsap d =>
    split at moved
    · cases Option.some.inj moved
      exact .of_body rfl rfl rfl rfl fun _ _ => id
    · contradiction
  case driverTrigger d =>
    split at moved
    · contradiction
    · rename_i n visits
      cases Option.some.inj moved
      exact visited_steady inv d visits

/-- Client handles are given up only by the operations that say so. -/
theorem step_client (moved : w.step home op = some w') (n : EventId) :
    w.outside.client n ≤ w'.outside.client n + if op.consumes = some n then 1 else 0 := by
  have given : ∀ m (o : Outside), o.client n ≤ (o.give m).client n := by
    intro m o
    simp only [Outside.give]
    split
    · exact Nat.le_succ _
    · exact Nat.le_refl _
  have givenHandle : ∀ h (o : Outside), o.client n ≤ (o.giveHandle h).client n := by
    intro h o
    cases h with
    | none => exact Nat.le_refl _
    | some m => exact given m o
  have taken : ∀ m (o : Outside), o.client n ≤ (o.take m).client n + if some m = some n then 1 else 0 := by
    intro m o
    simp only [Outside.take, Option.some.injEq, eq_comm (a := m)]
    split
    · omega
    · exact Nat.le_refl _
  cases op <;> simp only [World.step, Option.ite_none_right_eq_some, Option.some.injEq] at moved
  case create =>
    cases moved
    exact given _ _
  case combine =>
    obtain ⟨_, rfl⟩ := moved
    exact givenHandle _ _
  case copy =>
    obtain ⟨_, rfl⟩ := moved
    exact given _ _
  case drop | asap | takeHandle =>
    obtain ⟨_, rfl⟩ := moved
    exact taken _ _
  case trigger | await =>
    obtain ⟨_, rfl⟩ := moved
    exact Nat.le_refl _
  case closeFd | migrate =>
    cases moved
    exact Nat.le_refl _
  case cancel =>
    split at moved
    · contradiction
    · cases Option.some.inj moved
      exact Nat.le_refl _
  case popAsap =>
    split at moved
    · cases Option.some.inj moved
      exact Nat.le_refl _
    · contradiction
  case driverTrigger =>
    split at moved
    · contradiction
    · cases Option.some.inj moved
      unfold World.visited
      simp only
      split
      · exact Nat.le_refl _
      · exact givenHandle _ _

end Cotamer.Event

import Cotamer.Event.Threshold

/-! The quorum graph between calls: events and quorums name each other equally
often, nobody names a deleted quorum, and a body is deleted once, by the call
that gives up its last handle. -/
namespace Cotamer.Event
open References Transition

variable {home : CoroutineId → DriverId} {s : World} {ops : List Op} {n q e : EventId}

/-- The handles to event `n`, wherever they are kept between calls. -/
def World.handles (s : World) (n : EventId) : Holder → Nat := held s.graph s.outside [] n

structure World.Consistent (s : World) : Prop where
  symmetric : ∀ e q, (s.graph.body e).triggered = false → (s.graph.body q).freed = 0 →
    (s.graph.body e).listeners.count (.quorum q) = (s.graph.body q).members.count e
  listed : ∀ e q, (s.graph.body e).freed = 0 → .quorum q ∈ (s.graph.body e).listeners →
    q < s.graph.next ∧ (s.graph.body q).freed = 0
  triggered : ∀ q, (s.graph.body q).triggered = true →
    ∀ e ∈ (s.graph.body q).members, (s.graph.body e).triggered = true
  freed : ∀ n, n < s.graph.next →
    (s.graph.body n).freed = 1 ∧ (∀ h, s.handles n h = 0) ∨
    (s.graph.body n).freed = 0 ∧ ∃ h, 0 < s.handles n h
  counted : ∀ n, Counts (s.handles n) (s.graph.body n).refcount

/-- A quorum among the listeners has the event as a member, also after it has
been deleted. -/
theorem Inv.member_of_listener (inv : Inv s) (listed : .quorum q ∈ (s.graph.body e).listeners) :
    e ∈ (s.graph.body q).members := by
  have untriggered : (s.graph.body e).triggered = false := by
    cases fired : (s.graph.body e).triggered with
    | false => rfl
    | true => exact absurd listed (inv.linked.silent e q fired)
  have counted := inv.linked.link e q
  rw [untriggered, if_neg Bool.false_ne_true] at counted
  exact List.count_pos_iff.mp (counted.symm ▸ List.count_pos_iff.mpr listed)

/-- Between calls no trigger is about to delete anything. -/
theorem Inv.freed_iff (inv : Inv s) (low : n < s.graph.next) :
    (s.graph.body n).refcount = 0 ↔ 0 < (s.graph.body n).freed := by
  constructor
  · intro dead
    rcases inv.tidied.collected n (fun h => nomatch h) dead with deleted | ⟨spent, left⟩
    · exact deleted
    · obtain ⟨e, member⟩ := List.exists_mem_of_ne_nil _ (left low)
      have waiting := inv.untriggeredMember member
      rw [spent e member] at waiting
      contradiction
  · exact fun deleted => ((inv.tidied.tidy n).gone deleted).1

theorem Inv.consistent (inv : Inv s) : s.Consistent where
  symmetric e q untriggered _ := by
    have counted := inv.linked.link e q
    rw [untriggered, if_neg Bool.false_ne_true] at counted
    exact counted.symm
  listed e q _ listed := by
    have member := inv.member_of_listener listed
    constructor
    · by_contra high
      rw [inv.below.members q (Nat.not_lt.mp high)] at member
      exact nomatch member
    · rcases Nat.eq_zero_or_pos (s.graph.body q).freed with zero | deleted
      · exact zero
      · rw [((inv.tidied.tidy q).gone deleted).2] at member
        exact nomatch member
  triggered q fired := (inv.tidied.tidy q).fired fired
  freed n low := by
    have none := (inv.linked.covered n).eq_zero
    have once := (inv.tidied.tidy n).once
    rcases Nat.eq_zero_or_pos (s.graph.body n).refcount with dead | live
    · have deleted := (inv.freed_iff low).mp dead
      exact .inl ⟨Nat.le_antisymm once deleted, none.mp dead⟩
    · right
      refine ⟨(inv.tidied.tidy n).alive live, ?_⟩
      by_contra nobody
      have zero : ∀ h, s.handles n h = 0 := by
        intro h
        exact Nat.eq_zero_of_not_pos fun some => nobody ⟨h, some⟩
      exact absurd (none.mpr zero) (Nat.ne_of_gt live)
  counted := inv.linked.covered

/-- Any order of creating, combining, copying, dropping, triggering, waiting,
cancelling and visiting. -/
theorem graph_consistent (path : Reaches (World.step home) {} ops s) : s.Consistent :=
  (Inv.reached path).consistent

/-- A quorum nested in another, each with a shared member that triggers while
their handles are already gone. -/
theorem graph_consistent_nested :
    let ops : List Op := [.create, .create, .combine .all [some 0, some 0, some 1] 0,
      .combine .any [some 2, some 0] 0, .drop 2, .trigger 0 0, .drop 3]
    ∃ s, Reaches (World.step fun _ => 0) {} ops s ∧ (s.graph.body 2).freed = 1 ∧
      (s.graph.body 3).freed = 1 ∧ s.Consistent := by
  intro ops
  have ran : (run (World.step fun _ => 0) {} ops).isSome := by decide
  obtain ⟨s, ran⟩ := Option.isSome_iff_exists.mp ran
  have seen : (run (World.step fun _ => 0) {} ops).map (fun s =>
      ((s.graph.body 2).freed, (s.graph.body 3).freed)) = some (1, 1) := by
    decide
  rw [ran] at seen
  simp only [Option.map_some, Option.some.injEq, Prod.mk.injEq] at seen
  have path := run_iff_reaches.mp ran
  exact ⟨s, path, seen.1, seen.2, graph_consistent path⟩

end Cotamer.Event

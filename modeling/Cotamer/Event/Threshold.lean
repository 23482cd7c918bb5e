import Cotamer.Event.Opening

/-! The threshold formula over whole runs. In every state between calls, a node
that somebody still refers to is triggered exactly when it was triggered
explicitly or enough of its argument positions are. -/
namespace Cotamer.Event
open SwapVector References Transition

variable {home : CoroutineId → DriverId} {s t : World} {ops : List Op} {op : Op} {node : Node}

/-- What a combinator computes from its argument positions. -/
def Form.formula (g : Graph) (args : List Handle) : Form → Prop
  | .any => ∃ h ∈ args, g.handleTriggered h = true
  | .all => ∀ h ∈ args, g.handleTriggered h = true

namespace World

/-- `trigger` was called on the event, or a driver visited it. -/
def explicitly (s : World) : Handle → Prop
  | none => False
  | some n => s.explicit n = true

/-- The event is referred to. -/
def alive (s : World) : Handle → Prop
  | none => True
  | some n => 0 < (s.graph.body n).refcount

instance (s : World) : DecidablePred s.explicitly
  | none => inferInstanceAs (Decidable False)
  | some n => inferInstanceAs (Decidable (s.explicit n = true))

instance (s : World) : DecidablePred s.alive
  | none => inferInstanceAs (Decidable True)
  | some n => inferInstanceAs (Decidable (0 < (s.graph.body n).refcount))

end World

theorem inv_initial : Inv {} where
  linked := by
    constructor
    · intro e q
      rfl
    · rintro e q ⟨⟩
    · rintro e q ⟨⟩
    · rintro e q ⟨⟩
    · intro n
      apply counts_zero.congr
      intro h
      cases h <;> simp [held]
  counted := by
    constructor
    · intro q
      exact Nat.le_refl 0
    · intro q e
      exact Nat.le_refl 0
    · rintro q ⟨⟩
    · rintro q _ ⟨⟩
    · rintro q _ ⟨⟩
  listening := by
    intro c n
    simp
  below := ⟨fun _ _ => rfl, fun _ _ => rfl, (by rintro _ _ _ ⟨⟩), by simp [Queued]⟩
  unheld n _ := ⟨rfl, (by rintro _ ⟨⟩), (by rintro _ ⟨⟩)⟩
  explicit n marked := by cases marked
  built node member := by cases member
  tidied := by
    refine ⟨fun n => ⟨Nat.zero_le 1, ?_, ?_⟩, fun n _ _ => .inr ⟨List.forall_mem_nil _, ?_⟩, ?_⟩
    · exact fun deleted => absurd deleted (Nat.lt_irrefl 0)
    · rintro ⟨⟩
    · exact fun low => absurd low (Nat.not_lt_zero n)
    · rintro _ ⟨⟩

theorem Inv.step (inv : Inv s) (moved : s.step home op = some t) : Inv t := by
  cases op <;> simp only [World.step, Option.ite_none_right_eq_some, Option.some.injEq] at moved
  case create =>
    cases moved
    exact step_plain inv s.nodes fun node member => .inl member
  case combine form args current =>
    obtain ⟨holds, rfl⟩ := moved
    exact step_combine inv home current holds
  case copy n =>
    obtain ⟨owns, rfl⟩ := moved
    exact step_copy inv owns
  case drop n =>
    obtain ⟨owns, rfl⟩ := moved
    exact step_drop inv owns
  case trigger n current =>
    obtain ⟨owns, rfl⟩ := moved
    exact step_trigger inv owns home current
  case await c n =>
    obtain ⟨⟨owns, idle, _⟩, rfl⟩ := moved
    exact step_await inv owns idle
  case cancel c =>
    split at moved
    · contradiction
    · rename_i n waits
      cases Option.some.inj moved
      exact step_cancel inv waits
  case asap d n =>
    obtain ⟨owns, rfl⟩ := moved
    exact step_asap inv owns d
  case closeFd d fd =>
    cases moved
    exact step_closeFd inv d fd
  case migrate d =>
    cases moved
    exact step_migrate inv d
  case popAsap d =>
    split at moved
    · rename_i n rest idle front
      cases Option.some.inj moved
      exact step_popAsap inv idle front
    · contradiction
  case takeHandle d n =>
    obtain ⟨⟨owns, idle⟩, rfl⟩ := moved
    exact step_takeHandle inv owns idle
  case driverTrigger d =>
    split at moved
    · contradiction
    · rename_i n visits
      cases Option.some.inj moved
      exact step_driverTrigger inv home visits

theorem Inv.reached (path : Reaches (World.step home) {} ops s) : Inv s :=
  path.invariant Inv.step inv_initial

/-! Between calls, the members of a waiting quorum are its waiting arguments. -/

theorem Inv.untriggeredMember {e q : EventId} (inv : Inv s)
    (member : e ∈ (s.graph.body q).members) : (s.graph.body e).triggered = false := by
  cases fired : (s.graph.body e).triggered with
  | false => rfl
  | true =>
      have linked := inv.linked.link e q
      rw [fired, if_pos rfl, List.count_nil] at linked
      exact absurd member (List.count_eq_zero.mp linked)

theorem Inv.sealed_iff (inv : Inv s) {q : EventId} (quorum : (s.graph.body q).isQuorum = true)
    (live : 0 < (s.graph.body q).refcount) : (s.graph.body q).triggered = true ↔
      s.explicit q = true ∨ (s.graph.body q).quorum ≤ triggeredArgs s.args s.graph q := by
  constructor
  · intro fired
    exact (inv.counted.reached q fired).imp id And.right
  · rintro (explicit | enough)
    · exact (inv.explicit q explicit).2
    · cases fired : (s.graph.body q).triggered with
      | true => rfl
      | false =>
          have waiting : firedMembers s.graph q = 0 := by
            apply List.countP_eq_zero.mpr
            intro e member
            simp [inv.untriggeredMember member]
          have sum := (inv.counted.exactly q (fun h => nomatch h) quorum live fired).1
          have low := inv.counted.below q (fun h => nomatch h) quorum live fired
          omega

theorem threshold_iff (form : Form) (args : List Handle) (g : Graph) :
    form.threshold args ≤ args.countP g.handleTriggered ↔ form.formula g args := by
  cases form with
  | any =>
      rw [Form.threshold, Form.formula, Nat.succ_le_iff, List.countP_pos_iff]
  | all =>
      rw [Form.threshold, Form.formula, ← List.countP_eq_length]
      constructor
      · exact fun many => Nat.le_antisymm List.countP_le_length many
      · exact fun same => Nat.le_of_eq same.symm

theorem Inv.plain_iff (inv : Inv s) {r : EventId} (plain : s.Plain r) :
    (s.graph.body r).triggered = true ↔ s.explicit r = true := by
  constructor
  · intro fired
    rcases inv.counted.reached r fired with explicit | ⟨quorum, _⟩
    · exact explicit
    · rw [plain.2] at quorum
      contradiction
  · exact fun explicit => (inv.explicit r explicit).2

theorem Inv.sealed_formula (inv : Inv s) {form : Form} {args : List Handle} {r : EventId}
    (made : s.Sealed form args r) (live : 0 < (s.graph.body r).refcount) :
    (s.graph.body r).triggered = true ↔ s.explicit r = true ∨ form.formula s.graph args := by
  obtain ⟨_, kind, same, quorum⟩ := made
  rw [inv.sealed_iff kind live, quorum, triggeredArgs, same, threshold_iff]

/-- A form of one argument returns the argument. -/
theorem Inv.single_formula (inv : Inv s) (form : Form) (h : Handle) :
    s.graph.handleTriggered h = true ↔ s.explicitly h ∨ form.formula s.graph [h] := by
  have formula : form.formula s.graph [h] ↔ s.graph.handleTriggered h = true := by
    cases form <;> simp [Form.formula]
  rw [formula]
  constructor
  · exact .inr
  · rintro (explicit | fired)
    · cases h with
      | none => rfl
      | some n => exact (inv.explicit n explicit).2
    · exact fired

/-- Any graph of combinators, any order of triggers, drops, waits and visits. -/
theorem combinators_compute_formula (path : Reaches (World.step home) {} ops s)
    (member : node ∈ s.nodes) (alive : s.alive node.result) :
    s.graph.handleTriggered node.result = true ↔
      s.explicitly node.result ∨ node.form.formula s.graph node.args := by
  have inv := Inv.reached path
  have built := inv.built node member
  match node with
  | ⟨.any, [], result⟩ =>
      obtain ⟨r, rfl, plain⟩ := built
      simpa [Form.formula, Graph.handleTriggered, World.explicitly] using inv.plain_iff plain
  | ⟨.all, [], result⟩ =>
      cases built
      simp [Form.formula, Graph.handleTriggered]
  | ⟨.any, [h], result⟩ =>
      obtain rfl : result = h := built
      exact inv.single_formula .any result
  | ⟨.all, [h], result⟩ =>
      obtain rfl : result = h := built
      exact inv.single_formula .all result
  | ⟨.any, h :: h' :: rest, result⟩ =>
      obtain ⟨r, rfl, made⟩ := built
      exact inv.sealed_formula made alive
  | ⟨.all, h :: h' :: rest, result⟩ =>
      obtain ⟨r, rfl, made⟩ := built
      exact inv.sealed_formula made alive

/-- A duplicated event inside a quorum whose own handle has been dropped. -/
theorem combinators_compute_formula_nested :
    let ops : List Op := [.create, .create, .combine .any [some 0, some 0] 0,
      .combine .all [some 2, some 1, none] 0, .drop 2, .trigger 0 0, .trigger 1 0]
    ∃ s, Reaches (World.step fun _ => 0) {} ops s ∧ s.explicit 3 = false ∧
      (s.graph.body 3).triggered = true ∧ ∀ h ∈ [some 2, some 1, none], s.graph.handleTriggered h := by
  intro ops
  have ran : (run (World.step fun _ => 0) {} ops).isSome := by decide
  obtain ⟨s, ran⟩ := Option.isSome_iff_exists.mp ran
  have seen : (run (World.step fun _ => 0) {} ops).map (fun s =>
      (s.nodes, s.explicit 3, (s.graph.body 3).refcount, (s.graph.body 3).triggered)) =
        some ([⟨.all, [some 2, some 1, none], some 3⟩, ⟨.any, [some 0, some 0], some 2⟩],
          false, 1, true) := by
    decide
  rw [ran] at seen
  simp only [Option.map_some, Option.some.injEq, Prod.mk.injEq] at seen
  obtain ⟨nodes, implicit, refcount, fired⟩ := seen
  have path := run_iff_reaches.mp ran
  have member : ⟨.all, [some 2, some 1, none], some 3⟩ ∈ s.nodes := by
    rw [nodes]
    exact List.mem_cons_self
  have alive : s.alive (some 3) := by
    rw [World.alive, refcount]
    exact Nat.one_pos
  have formula := (combinators_compute_formula path member alive).mp fired
  refine ⟨s, path, implicit, fired, formula.resolve_left fun explicit => ?_⟩
  rw [World.explicitly, implicit] at explicit
  contradiction

end Cotamer.Event

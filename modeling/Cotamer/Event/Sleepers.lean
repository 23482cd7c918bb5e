import Mathlib
import Cotamer.Event.Collected
import Cotamer.Event.Wanted

/-! The threshold formula with placeholders, over whole runs, and what a sleeping
coroutine can rely on: below the event it awaits no placeholder is left. -/
namespace Cotamer.Event
open References Transition

/-- The event is `n`, or an argument of an event within `n`, and has not triggered. -/
inductive Lazy.Within (s : Lazy) (n : EventId) : EventId → Prop
  | here (waiting : (s.world.graph.body n).triggered = false) : Within s n n
  | under (within : Within s n q) (member : node ∈ s.nodes) (result : node.result = some q)
      (arg : .event (some m) ∈ node.args) (waiting : (s.world.graph.body m).triggered = false) : Within s n m

variable {home : CoroutineId → DriverId} {s : Lazy} {n m q r : EventId} {c : CoroutineId}
  {node : ArgNode} {args : List Arg} {form : Form} {ops : List LazyOp}

/-! The formula with placeholders. -/

/-- The value of an argument, where placeholders have the value `b`. -/
def Arg.value (p : Handle → Bool) (b : Bool) : Arg → Bool
  | .event h => p h
  | .interest => b

/-- A placeholder has triggered when the event that replaced it has. -/
def ArgNode.placeholder (s : Lazy) (node : ArgNode) : Bool :=
  match node.result.bind s.filled with
  | none => false
  | some h => s.world.graph.handleTriggered h

/-- What a combinator computes from its arguments. -/
def ArgNode.formula (s : Lazy) (node : ArgNode) : Prop :=
  match node.form with
  | .any => ∃ a ∈ node.args, a.value s.world.graph.handleTriggered (node.placeholder s) = true
  | .all => ∀ a ∈ node.args, a.value s.world.graph.handleTriggered (node.placeholder s) = true

theorem countP_value (p : Handle → Bool) (b : Bool) (args : List Arg) :
    args.countP (Arg.value p b) =
      (handlesOf args).countP p + if b then args.count .interest else 0 := by
  induction args with
  | nil => simp [handlesOf]
  | cons a args ih =>
      have split : handlesOf (a :: args) = handlesOf [a] ++ handlesOf args := handlesOf_append [a] args
      rw [split, List.countP_append, List.countP_cons, ih, List.count_cons]
      cases a with
      | event h =>
          rw [handlesOf_event, List.countP_singleton]
          cases value : p h with
          | false => simp [Arg.value, value]
          | true =>
              simp only [Arg.value, value, if_true, beq_iff_eq, reduceCtorEq, if_false, Nat.add_zero]
              omega
      | interest =>
          rw [handlesOf_interest, List.countP_nil]
          cases b <;> simp [Arg.value, Nat.add_assoc]

theorem needed_iff (form : Form) (p : Arg → Bool) (args : List Arg) :
    form.needed args.length ≤ args.countP p ↔ match form with
      | .any => ∃ a ∈ args, p a = true
      | .all => ∀ a ∈ args, p a = true := by
  cases form with
  | any => rw [Form.needed, Nat.succ_le_iff, List.countP_pos_iff]
  | all =>
      rw [Form.needed, ← List.countP_eq_length]
      constructor
      · exact fun many => Nat.le_antisymm List.countP_le_length many
      · exact fun same => Nat.le_of_eq same.symm

theorem Lazy.Planned.positions (planned : s.Planned form args r) :
    triggeredArgs s.world.args s.world.graph r = args.countP (Arg.value s.world.graph.handleTriggered
      (ArgNode.placeholder s ⟨form, args, some r⟩)) := by
  obtain ⟨_, _, _, rest⟩ := planned
  rw [countP_value, triggeredArgs]
  cases filled : s.filled r with
  | none =>
      have value : ArgNode.placeholder s ⟨form, args, some r⟩ = false := by
        simp [ArgNode.placeholder, filled]
      simp only [filled] at rest
      rw [value, rest.2]
      rfl
  | some h =>
      have value : ArgNode.placeholder s ⟨form, args, some r⟩ = s.world.graph.handleTriggered h := by
        simp [ArgNode.placeholder, filled]
      simp only [filled] at rest
      rw [value, rest.2, List.countP_append, List.countP_replicate]

/-- Every node that somebody still refers to computes its formula. -/
theorem Lazy.Ordered.computes (ordered : s.Ordered) (member : node ∈ s.nodes)
    (alive : s.world.alive node.result) : s.world.graph.handleTriggered node.result = true ↔
      s.world.explicitly node.result ∨ node.formula s := by
  have built := ordered.built node member
  obtain ⟨form, args, result⟩ := node
  unfold ArgNode.Built at built
  simp only at built alive ⊢
  split at built
  · obtain ⟨r, rfl, plain⟩ := built
    simpa [ArgNode.formula, Graph.handleTriggered, World.explicitly] using ordered.inv.plain_iff plain
  · cases built
    simp [ArgNode.formula, Graph.handleTriggered]
  · next h _ =>
    subst built
    have formula : ArgNode.formula s ⟨form, [.event result], result⟩ ↔
        s.world.graph.handleTriggered result = true := by
      cases form <;> simp [ArgNode.formula, Arg.value]
    rw [formula]
    refine ⟨.inr, fun why => ?_⟩
    rcases why with explicit | fired
    · cases result with
      | none => rfl
      | some n => exact (ordered.inv.explicit n explicit).2
    · exact fired
  · obtain ⟨r, rfl, planned⟩ := built
    have sealed := ordered.inv.sealed_iff planned.2.1 alive
    rw [planned.2.2.1, planned.positions, needed_iff] at sealed
    exact sealed

/-- Any tree of combinators with placeholders, any order of triggers, drops, waits,
visits, and tasks that are started or awaited. -/
theorem placeholders_compute_formula (path : Reaches (Lazy.step home) {} ops s) (member : node ∈ s.nodes)
    (alive : s.world.alive node.result) : s.world.graph.handleTriggered node.result = true ↔
      s.world.explicitly node.result ∨ node.formula s :=
  (Lazy.Ordered.reached path).computes member alive

/-- A task is started while it waits for its interest event in two quorums. -/
theorem placeholders_compute_formula_nested :
    let ops : List LazyOp := [.plain .create, .combine .any [.interest, .event (some 0)] 0,
      .combine .all [.event (some 1), .interest, .event (some 0)] 0, .await 5 2 0, .start 5 0,
      .plain (.trigger 0 0)]
    let node : ArgNode := ⟨.all, [.event (some 1), .interest, .event (some 0)], some 2⟩
    ∃ s, Reaches (Lazy.step fun _ => 0) {} ops s ∧ s.world.explicit 2 = false ∧ node.formula s := by
  intro ops node
  have ran : (run (Lazy.step fun _ => 0) {} ops).isSome := by decide
  obtain ⟨s, ran⟩ := Option.isSome_iff_exists.mp ran
  have seen : (run (Lazy.step fun _ => 0) {} ops).map (fun s =>
      (s.nodes.head?, s.world.explicit 2, (s.world.graph.body 2).refcount,
        (s.world.graph.body 2).triggered)) = some (some node, false, 3, true) := by
    decide
  rw [ran] at seen
  simp only [Option.map_some, Option.some.injEq, Prod.mk.injEq] at seen
  obtain ⟨first, implicit, refcount, fired⟩ := seen
  have path := run_iff_reaches.mp ran
  have alive : s.world.alive (some 2) := by
    rw [World.alive, refcount]
    exact Nat.succ_pos 2
  have formula := (placeholders_compute_formula path (List.mem_of_mem_head? first) alive).mp fired
  refine ⟨s, path, implicit, formula.resolve_left fun explicit => ?_⟩
  simp [World.explicitly, node, implicit] at explicit

/-! Below an event that a coroutine awaits. -/

theorem event_mem_handlesOf {h : Handle} (member : .event h ∈ args) : h ∈ handlesOf args :=
  List.mem_filterMap.mpr ⟨_, member, rfl⟩

/-- A node with an argument that differs from its result is a quorum. -/
theorem ArgNode.Built.planned (built : node.Built s) (result : node.result = some q)
    (other : ∃ a ∈ node.args, a ≠ .event (some q)) : s.Planned node.form node.args q := by
  obtain ⟨form, args, result'⟩ := node
  obtain ⟨a, member, differs⟩ := other
  unfold ArgNode.Built at built
  simp only at result member built ⊢
  split at built
  · cases member
  · cases member
  · cases List.mem_singleton.mp member
    exact absurd (congrArg Arg.event (built.symm.trans result)) differs
  · obtain ⟨r, returned, planned⟩ := built
    cases returned.symm.trans result
    exact planned

/-- An untriggered argument of a waiting quorum is one of its members. -/
theorem Lazy.Ordered.member (ordered : s.Ordered) (planned : s.Planned form args q)
    (live : 0 < (s.world.graph.body q).refcount) (waiting : (s.world.graph.body q).triggered = false)
    (arg : .event (some m) ∈ args) (untriggered : (s.world.graph.body m).triggered = false) :
    m ∈ (s.world.graph.body q).members := by
  obtain ⟨_, quorum, _, rest⟩ := planned
  have listed : some m ∈ s.world.args q := by
    split at rest
    · rw [rest.2]
      exact event_mem_handlesOf arg
    · rw [rest.2]
      exact List.mem_append_left _ (event_mem_handlesOf arg)
  have counts := (ordered.inv.counted.exactly q (by rintro ⟨⟩) quorum live waiting).2 m untriggered
  exact List.count_pos_iff.mp (counts.symm ▸ List.count_pos_iff.mpr listed)

theorem Lazy.Ordered.within (ordered : s.Ordered) (live : 0 < (s.world.graph.body n).refcount)
    (calm : (s.world.graph.body n).wantInterest = false) (within : s.Within n q) :
    0 < (s.world.graph.body q).refcount ∧ (s.world.graph.body q).triggered = false ∧
      (s.world.graph.body q).wantInterest = false := by
  induction within with
  | here waiting => exact ⟨live, waiting, calm⟩
  | @under q node m _ member result arg waiting ih =>
      obtain ⟨live, untriggered, calm⟩ := ih
      by_cases same : m = q
      · exact same ▸ ⟨live, untriggered, calm⟩
      · have other : ∃ a ∈ node.args, a ≠ .event (some q) :=
          ⟨_, arg, fun eq => same (by cases eq; rfl)⟩
        have planned := (ordered.built node member).planned result other
        have inside := ordered.member planned live untriggered arg waiting
        have alive := ordered.inv.linked.alive (.quorum q) (List.count_pos_iff.mpr inside)
        exact ⟨alive, waiting, (ordered.marked q id untriggered calm).2 m inside waiting⟩

/-- While a coroutine sleeps on an event, no placeholder is left in it or in the waiting
events below it: each has been replaced by an interest event, which has not triggered
if the placeholder is an argument of `any`. -/
theorem sleepers_want_nothing (path : Reaches (Lazy.step home) {} ops s)
    (waits : s.world.outside.waiting c = some n) (within : s.Within n q) (member : node ∈ s.nodes)
    (result : node.result = some q) (placeholder : .interest ∈ node.args) :
    (s.world.graph.body q).interest = 0 ∧
      ∃ h, s.filled q = some h ∧ (node.form = .any → s.world.graph.handleTriggered h = false) := by
  have ordered := Lazy.Ordered.reached path
  have live : 0 < (s.world.graph.body n).refcount :=
    ordered.inv.linked.alive (.coroutine c) (by simp [held, waits])
  have top : (s.world.graph.body n).triggered = false := by
    clear result
    induction within with
    | here waiting => exact waiting
    | under _ _ _ _ _ ih => exact ih
  obtain ⟨alive, untriggered, calm⟩ := ordered.within live (ordered.calm c n waits top) within
  have planned := (ordered.built node member).planned result ⟨_, placeholder, by rintro ⟨⟩⟩
  obtain ⟨_, _, _, rest⟩ := planned
  have none := (ordered.marked q id untriggered calm).1
  refine ⟨none, ?_⟩
  cases filled : s.filled q with
  | none =>
      simp only [filled] at rest
      have some := List.count_pos_iff.mpr placeholder
      rw [← rest.1, none] at some
      exact absurd some (Nat.lt_irrefl 0)
  | some h =>
      refine ⟨h, rfl, fun any => ?_⟩
      by_contra fired
      have formula : node.formula s := by
        simp only [ArgNode.formula, any]
        refine ⟨.interest, placeholder, ?_⟩
        simpa [Arg.value, ArgNode.placeholder, result, filled] using fired
      have triggers := (ordered.computes member (by rw [result]; exact alive)).mpr (.inr formula)
      rw [result] at triggers
      exact Bool.false_ne_true (untriggered.symm.trans triggers)

/-- The placeholder of a quorum below the awaited one. -/
theorem sleepers_want_nothing_below :
    let ops : List LazyOp := [.plain .create, .combine .any [.interest, .event (some 0)] 0,
      .combine .all [.event (some 1), .event (some 0)] 0, .await 5 2 0]
    ∃ s, Reaches (Lazy.step fun _ => 0) {} ops s ∧ (s.world.graph.body 1).interest = 0 ∧
      ∃ h, s.filled 1 = some h ∧ s.world.graph.handleTriggered h = false := by
  intro ops
  have ran : (run (Lazy.step fun _ => 0) {} ops).isSome := by decide
  obtain ⟨s, ran⟩ := Option.isSome_iff_exists.mp ran
  have seen : (run (Lazy.step fun _ => 0) {} ops).map (fun s =>
      (s.nodes, s.world.outside.waiting 5, (s.world.graph.body 1).triggered,
        (s.world.graph.body 2).triggered)) =
      some ([⟨.all, [.event (some 1), .event (some 0)], some 2⟩,
        ⟨.any, [.interest, .event (some 0)], some 1⟩], some 2, false, false) := by
    decide
  rw [ran] at seen
  simp only [Option.map_some, Option.some.injEq, Prod.mk.injEq] at seen
  obtain ⟨nodes, waits, inner, outer⟩ := seen
  have path := run_iff_reaches.mp ran
  have upper : ⟨.all, [.event (some 1), .event (some 0)], some 2⟩ ∈ s.nodes := by
    rw [nodes]
    exact List.mem_cons_self
  have lower : ⟨.any, [.interest, .event (some 0)], some 1⟩ ∈ s.nodes := by
    rw [nodes]
    exact List.mem_cons_of_mem _ List.mem_cons_self
  have within : s.Within 2 1 := .under (.here outer) upper rfl List.mem_cons_self inner
  obtain ⟨none, h, filled, asleep⟩ := sleepers_want_nothing path waits within lower rfl List.mem_cons_self
  exact ⟨s, path, none, h, filled, asleep rfl⟩

/-- Replacing placeholders leaves no body behind and deletes none twice, although
it may trigger and delete the quorums it has come to. -/
theorem placeholders_leak_nothing (path : Reaches (Lazy.step home) {} ops s) : s.world.Consistent :=
  (Lazy.Ordered.reached path).inv.consistent

/-- A task that was started awaits a quorum over one that nobody else knows; that
one triggers and is deleted while its placeholder is replaced. -/
theorem placeholders_leak_nothing_inner :
    let ops : List LazyOp := [.plain .create, .start 5 0, .combine .any [.interest, .event (some 0)] 0,
      .combine .all [.event (some 1), .event (some 0)] 0, .plain (.drop 1), .await 5 2 0]
    ∃ s, Reaches (Lazy.step fun _ => 0) {} ops s ∧ (s.world.graph.body 1).freed = 1 ∧
      s.world.Consistent := by
  intro ops
  have ran : (run (Lazy.step fun _ => 0) {} ops).isSome := by decide
  obtain ⟨s, ran⟩ := Option.isSome_iff_exists.mp ran
  have seen : (run (Lazy.step fun _ => 0) {} ops).map (fun s => (s.world.graph.body 1).freed) = some 1 := by
    decide
  rw [ran] at seen
  have path := run_iff_reaches.mp ran
  exact ⟨s, path, Option.some.inj seen, placeholders_leak_nothing path⟩

end Cotamer.Event

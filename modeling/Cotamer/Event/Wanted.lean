import Mathlib
import Cotamer.Event.Steady

/-! Events with placeholders in every state that a run comes to. No coroutine
waits on an event that wants interest. -/
namespace Cotamer.Event
open SwapVector References Transition

variable {home : CoroutineId → DriverId} {s t : Lazy} {w : World} {g g' : Graph} {op : Op}
  {n m q r : EventId} {c : CoroutineId} {current : DriverId} {node : ArgNode} {args : List Arg}
  {form : Form} {ops : List LazyOp}

/-! The invariant of events with placeholders. -/

/-- A quorum over the given arguments, whose placeholders have been replaced, all
by one handle, or not. -/
def Lazy.Planned (s : Lazy) (form : Form) (args : List Arg) (r : EventId) : Prop :=
  r < s.world.graph.next ∧ (s.world.graph.body r).isQuorum = true ∧
    (s.world.graph.body r).quorum = form.needed args.length ∧
    match s.filled r with
    | none => (s.world.graph.body r).interest = args.count .interest ∧ s.world.args r = handlesOf args
    | some h => (s.world.graph.body r).interest = 0 ∧
        s.world.args r = handlesOf args ++ List.replicate (args.count .interest) h

/-- The event returned by a combinator call. -/
def ArgNode.Built (s : Lazy) (node : ArgNode) : Prop :=
  match node.form, node.args with
  | .any, [] => ∃ r, node.result = some r ∧ s.world.Plain r
  | .all, [] => node.result = none
  | _, [.event h] => node.result = h
  | form, args => ∃ r, node.result = some r ∧ s.Planned form args r

structure Lazy.Ordered (s : Lazy) : Prop where
  inv : Inv s.world
  nodes : s.world.nodes = []
  marked : Marked (fun _ => False) s.world.graph
  wanted : ∀ m, (s.world.graph.body m).wantInterest = true → (s.world.graph.body m).isQuorum = true
  fresh : ∀ m, s.world.graph.next ≤ m → (s.world.graph.body m).interest = 0 ∧
    (s.world.graph.body m).wantInterest = false ∧ s.filled m = none
  calm : ∀ c n, s.world.outside.waiting c = some n → (s.world.graph.body n).triggered = false →
    (s.world.graph.body n).wantInterest = false
  kept : ∀ n, s.kept n = true → 0 < s.world.outside.client n
  owned : ∀ c n, (s.promise c).interest = some n →
    s.kept n = true ∧ (s.world.graph.body n).isQuorum = false
  apart : ∀ c c' n, (s.promise c).interest = some n → (s.promise c').interest = some n → c = c'
  built : ∀ node ∈ s.nodes, node.Built s

theorem ArgNode.Built.mono (built : node.Built s) (next : s.world.graph.next ≤ t.world.graph.next)
    (kinds : ∀ m, m < s.world.graph.next →
      (t.world.graph.body m).isQuorum = (s.world.graph.body m).isQuorum)
    (planned : ∀ form args r, s.Planned form args r → t.Planned form args r) : node.Built t := by
  obtain ⟨form, args, result⟩ := node
  unfold ArgNode.Built at built ⊢
  split at built
  · obtain ⟨r, returned, low, kind⟩ := built
    exact ⟨r, returned, low.trans_le next, (kinds r low).trans kind⟩
  · exact built
  · exact built
  · obtain ⟨r, returned, plan⟩ := built
    exact ⟨r, returned, planned _ _ r plan⟩

theorem Steady.marked (steady : Steady w w') (marked : Marked (fun _ => False) w.graph) :
    Marked (fun _ => False) w'.graph :=
  marked.quiets (.of_same steady.placeholders steady.triggered steady.members)
    fun p _ => (steady.placeholders p).2

theorem Lazy.Planned.steady (steady : Steady s.world w) (planned : s.Planned form args r) :
    Lazy.Planned { s with world := w } form args r := by
  obtain ⟨low, kind, quorum, rest⟩ := planned
  obtain ⟨kinds, quorums, positions⟩ := steady.same r low
  refine ⟨low.trans_le steady.next, kinds.trans kind, quorums.trans quorum, ?_⟩
  simp only [positions, (steady.placeholders r).1]
  exact rest

/-- An operation that leaves the placeholders alone keeps the invariant. -/
theorem Lazy.Ordered.steady (ordered : s.Ordered) (inv : Inv w) (steady : Steady s.world w)
    (client : ∀ n, s.kept n = true → 0 < w.outside.client n) :
    Lazy.Ordered { s with world := w } where
  inv := inv
  nodes := steady.nodes.trans ordered.nodes
  marked := steady.marked ordered.marked
  wanted m wants := by
    have before : (s.world.graph.body m).wantInterest = true := (steady.placeholders m).2 ▸ wants
    have low : m < s.world.graph.next := by
      by_contra high
      rw [(ordered.fresh m (Nat.le_of_not_lt high)).2.1] at before
      contradiction
    exact (steady.same m low).1.trans (ordered.wanted m before)
  fresh m high := by
    obtain ⟨none, unwanted, unfilled⟩ := ordered.fresh m (steady.next.trans high)
    exact ⟨(steady.placeholders m).1.trans none, (steady.placeholders m).2.trans unwanted, unfilled⟩
  calm c n waits untriggered := by
    have before : (s.world.graph.body n).triggered = false :=
      untriggered_before steady.triggered untriggered
    refine (steady.placeholders n).2.trans ?_
    rcases steady.waiting c n waits with waited | fired | calm
    · exact ordered.calm c n waited before
    · exact absurd (before.symm.trans fired) Bool.false_ne_true
    · exact calm
  kept := client
  owned c n mine := by
    obtain ⟨kept, plain⟩ := ordered.owned c n mine
    have low := ordered.inv.unheld.client (ordered.kept n kept)
    exact ⟨kept, (steady.same n low).1.trans plain⟩
  apart := ordered.apart
  built node member := (ordered.built node member).mono steady.next
    (fun m low => (steady.same m low).1) fun _ _ _ planned => planned.steady steady

theorem Lazy.Ordered.untouched (ordered : s.Ordered) :
    (s.world.graph.body s.world.graph.next).interest = 0 ∧
      (s.world.graph.body s.world.graph.next).wantInterest = false := by
  obtain ⟨none, unwanted, _⟩ := ordered.fresh s.world.graph.next (Nat.le_refl _)
  exact ⟨none, unwanted⟩

/-- Operations on the world that do not take a promise's handle. -/
theorem Lazy.Ordered.world (ordered : s.Ordered) (moved : s.world.step home op = some w)
    (spares : s.spares op = true) : Lazy.Ordered { s with world := w } := by
  have combines : ∀ form args current, op ≠ .combine form args current := by
    rintro form args current rfl
    contradiction
  have awaits : ∀ c n, op ≠ .await c n := by
    rintro c n rfl
    contradiction
  refine ordered.steady (ordered.inv.step moved)
    (step_steady ordered.inv ordered.untouched combines awaits moved) fun n kept => ?_
  have left := step_client moved n
  have held := ordered.kept n kept
  split at left
  · next consumes =>
    have several : 1 < s.world.outside.client n := by
      cases op <;> simp_all [Lazy.spares, Op.consumes]
    omega
  · omega

/-! Promises. -/

/-- Nothing but the promise of a coroutine without an interest event changes. -/
theorem Lazy.Ordered.setPromise (ordered : s.Ordered) (p : Promised) (unasked : p.interest = none) :
    (s.setPromise c p).Ordered := by
  have mine : ∀ c' n, ((s.setPromise c p).promise c').interest = some n →
      (s.promise c').interest = some n := by
    intro c' n same
    simp only [Lazy.setPromise] at same
    split at same
    · rw [unasked] at same
      cases same
    · exact same
  exact { ordered with
    owned := fun c' n same => ordered.owned c' n (mine c' n same)
    apart := fun c' c'' n same same' => ordered.apart c' c'' n (mine c' n same) (mine c'' n same')
    built := fun node member => (ordered.built node member).mono (Nat.le_refl _) (fun _ _ => rfl)
      fun _ _ _ planned => planned }

/-- A plain event that nobody knows yet. -/
theorem Lazy.Ordered.create (ordered : s.Ordered) : Lazy.Ordered { s with world := { s.world with
    graph := s.world.graph.alloc {}
    outside := s.world.outside.give s.world.graph.next } } := by
  have moved : s.world.step (fun _ => 0) .create = some { s.world with
      graph := s.world.graph.alloc {}
      outside := s.world.outside.give s.world.graph.next } := rfl
  exact ordered.world moved rfl

theorem Lazy.Ordered.makeInterest (ordered : s.Ordered) (c : CoroutineId) :
    (s.makeInterest c).Ordered := by
  unfold Lazy.makeInterest
  split
  · exact ordered
  · have created := ordered.create
    have new : ∀ c' n, (if c' = c then { hasInterest := true, interest := some s.world.graph.next }
        else s.promise c' : Promised).interest = some n →
        c' = c ∧ n = s.world.graph.next ∨ c' ≠ c ∧ (s.promise c').interest = some n := by
      intro c' n same
      split at same
      · next here => exact .inl ⟨here, (Option.some.inj same).symm⟩
      · next other => exact .inr ⟨other, same⟩
    have old : ∀ c' n, (s.promise c').interest = some n → n ≠ s.world.graph.next := by
      rintro c' n same rfl
      have low := ordered.inv.unheld.client (ordered.kept _ (ordered.owned c' _ same).1)
      exact Nat.lt_irrefl _ low
    refine { created with
      kept := fun n marked => ?_
      owned := fun c' n same => ?_
      apart := fun c' c'' n same same' => ?_
      built := fun node member => ?_ }
    · simp only [Bool.or_eq_true, decide_eq_true_eq] at marked
      rcases marked with rfl | before
      · simp [Outside.give]
      · exact created.kept n before
    · rcases new c' n same with ⟨_, rfl⟩ | ⟨_, before⟩
      · simp
      · obtain ⟨kept, plain⟩ := created.owned c' n before
        exact ⟨by simpa using .inr kept, plain⟩
    · rcases new c' n same with ⟨rfl, rfl⟩ | ⟨_, before⟩
      · rcases new c'' _ same' with ⟨rfl, _⟩ | ⟨_, before⟩
        · rfl
        · exact absurd rfl (old c'' _ before)
      · rcases new c'' n same' with ⟨rfl, rfl⟩ | ⟨_, before'⟩
        · exact absurd rfl (old c' _ before)
        · exact ordered.apart c' c'' n before before'
    · exact (created.built node member).mono (Nat.le_refl _) (fun _ _ => rfl)
        fun _ _ _ planned => planned

theorem Lazy.Ordered.triggerInterest (ordered : s.Ordered) (home : CoroutineId → DriverId)
    (current : DriverId) (mine : (s.promise c).interest = h) :
    (s.triggerInterest home current h).Ordered := by
  cases h with
  | none => exact ordered
  | some n =>
      have owns := ordered.kept n (ordered.owned c n mine).1
      have moved : s.world.step home (.trigger n current) = some { s.world with
          graph := s.world.graph.trigger home current n
          explicit := s.world.mark n } := if_pos owns
      exact ordered.world moved rfl

theorem Lazy.Ordered.copy (ordered : s.Ordered) (holds : s.world.outside.holds h = true) :
    Lazy.Ordered { s with world := { s.world with
      graph := s.world.graph.copyHandle h
      outside := s.world.outside.giveHandle h } } := by
  cases h with
  | none => exact ordered
  | some n =>
      have owns : 0 < s.world.outside.client n := by simpa [Outside.holds] using holds
      have moved : s.world.step (fun _ => 0) (.copy n) = some { s.world with
          graph := s.world.graph.ref n
          outside := s.world.outside.give n } := if_pos owns
      exact ordered.world moved rfl

/-- The frame of a coroutine is gone, and its promise with it. -/
theorem Lazy.Ordered.destroy (ordered : s.Ordered) (mine : (s.promise c).interest = some n) :
    Lazy.Ordered { s.setPromise c {} with
      world := { s.world with graph := s.world.graph.deref n, outside := s.world.outside.take n }
      kept := fun m => m != n && s.kept m } := by
  have owns := ordered.kept n (ordered.owned c n mine).1
  have moved : s.world.step (fun _ => 0) (.drop n) =
      some { s.world with graph := s.world.graph.deref n, outside := s.world.outside.take n } := if_pos owns
  have inv := ordered.inv.step moved
  have steady := step_steady ordered.inv ordered.untouched (by rintro _ _ _ ⟨⟩) (by rintro _ _ ⟨⟩) moved
  have fewer : Lazy.Ordered { s.setPromise c {} with kept := fun m => m != n && s.kept m } := by
    have left := ordered.setPromise (c := c) {} rfl
    have other : ∀ c' m, ((s.setPromise c {}).promise c').interest = some m →
        m ≠ n ∧ (s.promise c').interest = some m := by
      intro c' m same
      simp only [Lazy.setPromise] at same
      split at same
      · cases same
      · next notMine =>
        refine ⟨?_, same⟩
        rintro rfl
        exact notMine (ordered.apart c' c m same mine)
    refine { left with
      kept := fun m marked => ?_
      owned := fun c' m same => ?_
      built := fun node member => ?_ }
    · simp only [Bool.and_eq_true] at marked
      exact ordered.kept m marked.2
    · obtain ⟨apart, before⟩ := other c' m same
      obtain ⟨kept, plain⟩ := ordered.owned c' m before
      exact ⟨by simpa [apart] using kept, plain⟩
    · exact (left.built node member).mono (Nat.le_refl _) (fun _ _ => rfl) fun _ _ _ planned => planned
  refine fewer.steady inv steady fun m marked => ?_
  simp only [Bool.and_eq_true, bne_iff_ne, ne_eq] at marked
  simpa [Outside.take, marked.1] using ordered.kept m marked.2

/-! Awaiting. -/

/-- The graph after an operation that creates no event. -/
theorem Filling.inv (filling : Filling w args' none [] g) (inv : Inv w) (nodes : w.nodes = []) :
    Inv { w with graph := g, args := args' } where
  linked := by
    have ranks : rankOf g = rankOf w.graph := by
      funext m
      rw [rankOf, rankOf, filling.kinds]
    simp only [ranks]
    exact filling.linked
  counted := filling.counted
  listening := filling.listening
  below := filling.below
  unheld := by
    simp only [filling.next]
    exact inv.unheld
  explicit n marked := by
    obtain ⟨low, fired⟩ := inv.explicit n marked
    exact ⟨filling.next ▸ low, filling.triggered n fired⟩
  built node member := by
    rw [nodes] at member
    cases member
  tidied := filling.tidied

theorem Lazy.Ordered.offered (ordered : s.Ordered) (c : CoroutineId) :
    Offered s.world (s.promise c).interest s.world.graph where
  holds := by
    cases mine : (s.promise c).interest with
    | none => rfl
    | some n => simpa [Outside.holds] using ordered.kept n (ordered.owned c n mine).1
  plain n mine := (ordered.owned c n mine).2
  wanted := ordered.wanted
  unheld := ordered.inv.unheld

/-- The awaiter's interest event replaces every placeholder that is left. -/
theorem Lazy.Ordered.fixWantInterest (ordered : s.Ordered) (owns : 0 < s.world.outside.client n)
    (wants : (s.world.graph.body n).wantInterest = true) (home : CoroutineId → DriverId)
    (c : CoroutineId) (current : DriverId) :
    (s.fixWantInterest home c n current).Ordered ∧
      Satisfied (s.fixWantInterest home c n current).world.graph n := by
  have fixes : Fixes s.world (s.promise c).interest s.world.args [] s.world.graph n
      (s.fixWantInterest home c n current).world.graph :=
    fixWantInterest_fixes ordered.inv owns (ordered.wanted n wants) (ordered.offered c)
  have filling := fixes.refills.filling
  have quiets := fixes.refills.quiets
  refine ⟨?_, fixes.satisfied⟩
  constructor
  · exact filling.inv ordered.inv ordered.nodes
  · exact ordered.nodes
  · exact fixes.marked _ ordered.marked
  · intro m wanted
    exact (filling.kinds m).trans (ordered.wanted m (quiets.want m wanted))
  · intro m high
    obtain ⟨none, unwanted, unfilled⟩ := ordered.fresh m (filling.next ▸ high)
    have gone : ((s.fixWantInterest home c n current).world.graph.body m).interest = 0 := by
      rcases quiets.interest m with same | gone
      · exact same.trans none
      · exact gone
    refine ⟨gone, quiets.calm unwanted, ?_⟩
    simp only [Lazy.fixWantInterest, none, Nat.not_lt_zero, if_false]
    exact unfilled
  · intro c' m waits untriggered
    exact quiets.calm (ordered.calm c' m waits (quiets.waiting untriggered))
  · exact ordered.kept
  · intro c' m mine
    obtain ⟨kept, plain⟩ := ordered.owned c' m mine
    exact ⟨kept, (filling.kinds m).trans plain⟩
  · exact ordered.apart
  · intro node member
    refine (ordered.built node member).mono (Nat.le_of_eq filling.next.symm)
      (fun m _ => filling.kinds m) fun form args r planned => ?_
    obtain ⟨low, kind, quorum, rest⟩ := planned
    refine ⟨low.trans_eq filling.next.symm, (filling.kinds r).trans kind,
      (filling.quorums r).trans quorum, ?_⟩
    have left := quiets.interest r
    simp only [Lazy.fixWantInterest, refill] at left ⊢
    cases filled : s.filled r with
    | some h =>
        simp only [filled] at rest
        obtain ⟨none, positions⟩ := rest
        rw [none, or_self] at left
        simp only [none, Nat.not_lt_zero, if_false, Nat.zero_sub, List.replicate_zero, List.append_nil]
        exact ⟨left, positions⟩
    | none =>
        simp only [filled] at rest
        obtain ⟨count, positions⟩ := rest
        split
        · next h replaced =>
          split at replaced
          · cases replaced
          · next same =>
            have same : (((s.world.graph.fixWantInterest home current (s.promise c).interest n).body
                r).interest) = (s.world.graph.body r).interest := by
              rcases left with same | gone <;> omega
            rw [same, Nat.sub_self, List.replicate_zero, List.append_nil]
            exact ⟨count, positions⟩
        · next h replaced =>
          split at replaced
          · next less =>
            cases Option.some.inj replaced
            have gone : (((s.world.graph.fixWantInterest home current (s.promise c).interest n).body
                r).interest) = 0 := by
              rcases left with same | gone <;> omega
            rw [gone, Nat.sub_zero, count, positions]
            exact ⟨rfl, rfl⟩
          · cases replaced

/-! Building a quorum with placeholders. -/

/-- Placeholders while the quorum `q` takes its arguments, of which `k` are
placeholders so far. -/
structure Building (base : Graph) (q : EventId) (k : Nat) (g : Graph) : Prop where
  interest : ∀ m, (g.body m).interest = if m = q then k else (base.body m).interest
  want : ∀ m, m ≠ q → (g.body m).wantInterest = (base.body m).wantInterest
  members : ∀ m, m ≠ q → (g.body m).members ⊆ (base.body m).members
  calm : (g.body q).wantInterest = false →
    k = 0 ∧ ∀ e ∈ (g.body q).members, (g.body e).wantInterest = false

variable {base : Graph} {done : List Handle} {k : Nat} {a : Arg}

theorem Building.fewer (building : Building base q k g) (same : SameInterest g g')
    (fewer : ∀ m, (g'.body m).members ⊆ (g.body m).members) : Building base q k g' where
  interest m := (same m).1.trans (building.interest m)
  want m other := (same m).2.trans (building.want m other)
  members m other := List.Subset.trans (fewer m) (building.members m other)
  calm unwanted := by
    obtain ⟨none, members⟩ := building.calm ((same q).2.symm.trans unwanted)
    exact ⟨none, fun e member => (same e).2.trans (members e (fewer q member))⟩

theorem Building.join (building : Building base q k g) (apart : n ≠ q) (inside : q ∉ (g.body q).members) :
    Building base q k (g.join q n) := by
  have interest : ∀ m, ((g.join q n).body m).interest = (g.body m).interest := by
    intro m
    obtain ⟨_, eq⟩ := join_body g apart m
    rw [eq]
  have want : ∀ m, ((g.join q n).body m).wantInterest =
      if m = q then (g.body m).wantInterest || (g.body n).wantInterest else (g.body m).wantInterest := by
    intro m
    simp only [Graph.join, Graph.modify_body, Graph.addListener_body, ref_body_eq]
    split
    · next same =>
      subst same
      simp [Ne.symm apart]
    · split <;> rfl
  have members : ∀ m, ((g.join q n).body m).members = (g.body m).members ++ if m = q then [n] else [] := by
    intro m
    obtain ⟨_, eq⟩ := join_body g apart m
    rw [eq]
  refine ⟨fun m => (interest m).trans (building.interest m), fun m other => ?_, fun m other => ?_, fun calm => ?_⟩
  · rw [want, if_neg other]
    exact building.want m other
  · rw [members, if_neg other, List.append_nil]
    exact building.members m other
  · rw [want, if_pos rfl, Bool.or_eq_false_iff] at calm
    obtain ⟨none, before⟩ := building.calm calm.1
    refine ⟨none, fun e member => ?_⟩
    rw [members, if_pos rfl] at member
    rcases List.mem_append.mp member with old | new
    · have other : e ≠ q := fun same => inside (same ▸ old)
      rw [want, if_neg other]
      exact before e old
    · cases List.mem_singleton.mp new
      rw [want, if_neg apart]
      exact calm.2

theorem Opening.reflag (opening : Opening w base done g) (reflagged : Reflagged g g') :
    Opening w base done g' :=
  opening.evolves reflagged.evolves reflagged.triggered reflagged.2.1 (reflagged.linked opening.linked)
    (reflagged.counted opening.counted) (reflagged.listening opening.listening)
    (reflagged.tidied opening.tidied)

/-- One argument of a quorum that is being built. -/
theorem addArg_opening (opening : Opening w base done g) (building : Building base w.graph.next k g)
    (unheld : w.outside.Below w.graph.next) (untriggered : (w.graph.body w.graph.next).triggered = false)
    (kind : (base.body w.graph.next).isQuorum = true)
    (holds : (handlesOf [a]).all w.outside.holds = true) :
    Opening w base (done ++ handlesOf [a]) (g.addArg w.graph.next a) ∧
      Building base w.graph.next (k + [a].count .interest) (g.addArg w.graph.next a) := by
  cases a with
  | interest =>
      let f : EventBody → EventBody := fun b => { b with wantInterest := true, interest := b.interest + 1 }
      have reflagged : Reflagged g (g.modify w.graph.next f) := reflagged_modify f fun b => ⟨_, _, rfl⟩
      rw [handlesOf_interest, List.append_nil]
      refine ⟨opening.reflag reflagged, fun m => ?_, fun m other => ?_, fun m other => ?_, fun calm => ?_⟩
      · have before := building.interest m
        simp only [Graph.addArg, Graph.modify_body]
        split
        · next here =>
          rw [if_pos here] at before
          simp [before]
        · next other => rwa [if_neg other] at before
      · simp only [Graph.addArg, Graph.modify_body, if_neg other]
        exact building.want m other
      · simp only [Graph.addArg, Graph.modify_body, if_neg other]
        exact building.members m other
      · simp [Graph.addArg] at calm
  | event h =>
      have held : w.outside.holds h = true := by simpa using holds
      have added := addCopy_opening opening unheld untriggered kind held
      refine ⟨added, ?_⟩
      show Building base w.graph.next k (g.addCopy w.graph.next h)
      cases h with
      | none =>
          apply building.fewer
          · exact (tally_adds (h := none) g w.graph.next).same
          · intro m
            rw [Graph.addCopy, Graph.copyHandle, Graph.addMember, Graph.modify_body]
            split <;> exact List.Subset.refl _
      | some n =>
          have owns : 0 < w.outside.client n := by simpa [Outside.holds] using held
          have apart : n ≠ w.graph.next := Nat.ne_of_lt (unheld.client owns)
          have same : ((g.ref n).body n).triggered = (g.body n).triggered := by rw [ref_body_eq]
          simp only [Graph.addCopy, Graph.copyHandle, Graph.addMember, same]
          split
          · have linked := tally_linked (ref_linked opening.linked n) w.graph.next
            obtain ⟨_, shrinks⟩ := deref_linked (g := (g.ref n).tally w.graph.next) opening.deep linked
            have adds : Adds none g (((g.ref n).tally w.graph.next).deref n) := tally_deref_adds shrinks
            exact building.fewer adds.same fun m e member => (adds.members m e member).resolve_right (by rintro ⟨⟩)
          · refine building.join apart fun inside => ?_
            exact Nat.lt_irrefl _ (opening.linked.ranked _ _ inside).1

theorem handlesOf_append (args args' : List Arg) :
    handlesOf (args ++ args') = handlesOf args ++ handlesOf args' := List.filterMap_append

theorem addArgs_opening (args : List Arg) (opening : Opening w base done g)
    (building : Building base w.graph.next k g)
    (unheld : w.outside.Below w.graph.next) (untriggered : (w.graph.body w.graph.next).triggered = false)
    (kind : (base.body w.graph.next).isQuorum = true)
    (holds : (handlesOf args).all w.outside.holds = true) :
    Opening w base (done ++ handlesOf args) (args.foldl (Graph.addArg w.graph.next) g) ∧
      Building base w.graph.next (k + args.count .interest) (args.foldl (Graph.addArg w.graph.next) g) := by
  induction args generalizing done k g with
  | nil => exact ⟨by simpa [handlesOf] using opening, by simpa using building⟩
  | cons a args ih =>
      have split : handlesOf (a :: args) = handlesOf [a] ++ handlesOf args := handlesOf_append [a] args
      rw [split, List.all_append, Bool.and_eq_true] at holds
      obtain ⟨opened, built⟩ := addArg_opening opening building unheld untriggered kind holds.1
      obtain ⟨opened, built⟩ := ih opened built holds.2
      refine ⟨?_, ?_⟩
      · rw [split, ← List.append_assoc]
        exact opened
      · have count : (a :: args).count .interest = [a].count .interest + args.count .interest := by
          rw [← List.count_append, List.singleton_append]
        rw [count, ← Nat.add_assoc]
        exact built

theorem combined_quorum (s : Lazy) (form : Form) (quorum : makesQuorum args = true) (current : DriverId) :
    s.combined home form args current =
      let r := s.world.graph.makeArgs home current (form.needed args.length) args
      { s with
        world := { s.world with
          graph := r.1
          outside := s.world.outside.give s.world.graph.next
          args := withArgs s.world.args s.world.graph.next (handlesOf args) }
        nodes := ⟨form, args, some s.world.graph.next⟩ :: s.nodes } := by
  unfold Lazy.combined
  have applied : form.applyArgs home current args s.world.graph =
      s.world.graph.makeArgs home current (form.needed args.length) args := by
    unfold Form.applyArgs
    split <;> simp_all [makesQuorum]
  simp only [applied, quorum, if_true]
  rfl

/-- The world after a quorum over `args` was made. -/
structure Made (w : World) (form : Form) (args : List Arg) (g' : Graph) : Prop where
  next : g'.next = w.graph.next + 1
  quorum : (g'.body w.graph.next).isQuorum = true ∧
    (g'.body w.graph.next).quorum = form.needed args.length ∧
    (g'.body w.graph.next).interest = args.count .interest
  old : ∀ m, m ≠ w.graph.next → (g'.body m).isQuorum = (w.graph.body m).isQuorum ∧
    (g'.body m).quorum = (w.graph.body m).quorum ∧ (g'.body m).interest = (w.graph.body m).interest ∧
    (g'.body m).wantInterest = (w.graph.body m).wantInterest
  triggered : ∀ m, (w.graph.body m).triggered = true → (g'.body m).triggered = true
  members : ∀ m, m ≠ w.graph.next → (g'.body m).members ⊆ (w.graph.body m).members
  calm : (g'.body w.graph.next).wantInterest = false → args.count .interest = 0 ∧
    ∀ e ∈ (g'.body w.graph.next).members, (g'.body e).wantInterest = false
  inv : Inv { w with
    graph := g'
    outside := w.outside.give w.graph.next
    args := withArgs w.args w.graph.next (handlesOf args) }

theorem makeArgs_made (inv : Inv w) (form : Form) (args : List Arg)
    (holds : (handlesOf args).all w.outside.holds = true) (home : CoroutineId → DriverId)
    (current : DriverId) :
    Made w form args (w.graph.makeArgs home current (form.needed args.length) args).1 := by
  let base := w.graph.alloc (freshBody true (form.needed args.length))
  let g := args.foldl (Graph.addArg w.graph.next) base
  let g' := g.sealQuorum home current w.graph.next
  have untriggered := inv.untriggered (Nat.le_refl _)
  have kind : (base.body w.graph.next).isQuorum = true := by simp [base, freshBody]
  have start : Building base w.graph.next 0 base := by
    refine ⟨fun m => ?_, fun _ _ => rfl, fun _ _ => List.Subset.refl _, fun _ => ⟨rfl, ?_⟩⟩
    · split
      · next new => simp [base, new, freshBody]
      · rfl
    · simp [base, freshBody]
  obtain ⟨opening, building⟩ := addArgs_opening args (alloc_opening inv (form.needed args.length)) start
    inv.unheld untriggered kind holds
  rw [List.nil_append] at opening
  rw [Nat.zero_add] at building
  have settles := sealQuorum_spec opening inv kind home current
  have unheld : w.outside.Below g.next := by
    rw [show g.next = _ from opening.next]
    exact inv.unheld.mono (Nat.le_succ _)
  have evolves : Evolves g g' := settles.wakes.evolves unheld
  have same : SameInterest g g' := by
    simp only [g', Graph.sealQuorum]
    split
    · exact sameInterest_triggerUnlock
    · exact SameInterest.refl _
  have next : g'.next = w.graph.next + 1 := evolves.next.trans opening.next
  have kinds : ∀ m, (g'.body m).isQuorum = (base.body m).isQuorum :=
    fun m => (evolves.kinds m).trans (opening.kinds m)
  have quorums : ∀ m, (g'.body m).quorum = (base.body m).quorum :=
    fun m => (evolves.quorums m).trans (opening.quorums m)
  have interests : ∀ m, (g'.body m).interest =
      if m = w.graph.next then args.count .interest else (base.body m).interest :=
    fun m => (same m).1.trans (building.interest m)
  have before : ∀ m, m ≠ w.graph.next → base.body m = w.graph.body m := by
    intro m other
    simp [base, other]
  have old : ∀ m, m ≠ w.graph.next → (g'.body m).isQuorum = (w.graph.body m).isQuorum ∧
      (g'.body m).quorum = (w.graph.body m).quorum ∧ (g'.body m).interest = (w.graph.body m).interest ∧
      (g'.body m).wantInterest = (w.graph.body m).wantInterest := by
    intro m other
    rw [← before m other]
    exact ⟨kinds m, quorums m, (interests m).trans (if_neg other), (same m).2.trans (building.want m other)⟩
  have triggered : ∀ m, (w.graph.body m).triggered = true → (g'.body m).triggered = true :=
    fun m fired => evolves.triggered m ((opening.triggered m).trans fired)
  refine ⟨next, ⟨(kinds _).trans kind, (quorums _).trans ?_, (interests _).trans (if_pos rfl)⟩, old, triggered,
    fun m other => ?_, fun calm => ?_, ?_⟩
  · simp [base, freshBody]
  · rw [← before m other]
    exact List.Subset.trans (evolves.fewer m).subset (building.members m other)
  · obtain ⟨none, members⟩ := building.calm ((same _).2.symm.trans calm)
    exact ⟨none, fun e member => (same e).2.trans (members e ((evolves.fewer _).subset member))⟩
  · apply inv.grows
    · exact next
    · intro m low
      have other : m ≠ w.graph.next := Nat.ne_of_lt low
      exact ⟨(old m other).1, (old m other).2.1, if_neg other⟩
    · exact triggered
    · have ranks : rankOf g' = rankOf base := evolves.rank.trans opening.ranks
      show Linked (rankOf g') [] [] (w.outside.give w.graph.next) g'
      rw [ranks]
      exact settles.linked.give
    · exact settles.counted
    · exact settles.wakes.listening
    · exact opening.below.evolves evolves
    · show (w.outside.give w.graph.next).Below g'.next
      rw [next]
      exact (inv.unheld.mono (Nat.le_succ _)).give (Nat.lt_succ_self _)
    · exact fun _ => rfl
    · exact fun node member => .inl member
    · exact settles.tidied (opening.tidied.hold opening.linked.flying)

/-- `any` or `all` with several arguments, or of a placeholder. -/
theorem Lazy.Ordered.quorum (ordered : s.Ordered) (form : Form) (many : makesQuorum args = true)
    (holds : (handlesOf args).all s.world.outside.holds = true) (home : CoroutineId → DriverId)
    (current : DriverId) : (s.combined home form args current).Ordered := by
  rw [combined_quorum s form many current]
  have made := makeArgs_made ordered.inv form args holds home current
  generalize s.world.graph.makeArgs home current (form.needed args.length) args = made' at made
  obtain ⟨g', returned⟩ := made'
  change Made s.world form args g' at made
  have below := ordered.inv.below
  have waiting : ∀ m, (g'.body m).triggered = false → (s.world.graph.body m).triggered = false :=
    fun _ => untriggered_before made.triggered
  have want : ∀ m, m ≠ s.world.graph.next →
      (g'.body m).wantInterest = (s.world.graph.body m).wantInterest := fun m other => (made.old m other).2.2.2
  constructor
  · exact made.inv
  · exact ordered.nodes
  · intro p _ waits calm
    by_cases new : p = s.world.graph.next
    · subst new
      obtain ⟨none, members⟩ := made.calm calm
      exact ⟨made.quorum.2.2.trans none, fun e member _ => members e member⟩
    · obtain ⟨none, members⟩ := ordered.marked p id (waiting p waits) ((want p new).symm.trans calm)
      refine ⟨(made.old p new).2.2.1.trans none, fun e member untriggered => ?_⟩
      have before := made.members p new member
      have other : e ≠ s.world.graph.next := by
        rintro rfl
        exact below.noMember _ p (Nat.le_refl _) before
      exact (want e other).trans (members e before (waiting e untriggered))
  · intro m wants
    by_cases new : m = s.world.graph.next
    · subst new
      exact made.quorum.1
    · exact (made.old m new).1.trans (ordered.wanted m ((want m new).symm.trans wants))
  · intro m high
    have high' : s.world.graph.next + 1 ≤ m := made.next ▸ high
    have other : m ≠ s.world.graph.next := Nat.ne_of_gt high'
    obtain ⟨none, unwanted, unfilled⟩ := ordered.fresh m (Nat.le_of_succ_le high')
    exact ⟨(made.old m other).2.2.1.trans none, (want m other).trans unwanted, unfilled⟩
  · intro c n waits untriggered
    have other : n ≠ s.world.graph.next := Nat.ne_of_lt (ordered.inv.unheld.waiting waits)
    exact (want n other).trans (ordered.calm c n waits (waiting n untriggered))
  · intro n kept
    have before := ordered.kept n kept
    simp only [Outside.give]
    split
    · exact Nat.lt_add_right 1 before
    · exact before
  · intro c n mine
    obtain ⟨kept, plain⟩ := ordered.owned c n mine
    have other : n ≠ s.world.graph.next := Nat.ne_of_lt (ordered.inv.unheld.client (ordered.kept n kept))
    exact ⟨kept, (made.old n other).1.trans plain⟩
  · exact ordered.apart
  · intro node member
    rcases List.mem_cons.mp member with rfl | before
    · have planned : Lazy.Planned { s with
          world := { s.world with
            graph := g'
            outside := s.world.outside.give s.world.graph.next
            args := withArgs s.world.args s.world.graph.next (handlesOf args) }
          nodes := ⟨form, args, some s.world.graph.next⟩ :: s.nodes } form args s.world.graph.next := by
        refine ⟨?_, made.quorum.1, made.quorum.2.1, ?_⟩
        · show s.world.graph.next < g'.next
          rw [made.next]
          exact Nat.lt_succ_self _
        · simp only [(ordered.fresh s.world.graph.next (Nat.le_refl _)).2.2]
          exact ⟨made.quorum.2.2, if_pos rfl⟩
      unfold ArgNode.Built
      split
      · simp_all [makesQuorum]
      · simp_all [makesQuorum]
      · simp_all [makesQuorum]
      · exact ⟨_, rfl, planned⟩
    · have grown : s.world.graph.next ≤ g'.next := (Nat.le_succ _).trans_eq made.next.symm
      refine (ordered.built node before).mono grown (fun m low => (made.old m (Nat.ne_of_lt low)).1)
        fun form args r planned => ?_
      obtain ⟨low, kind, quorum, rest⟩ := planned
      have other : r ≠ s.world.graph.next := Nat.ne_of_lt low
      obtain ⟨kinds, quorums, interests, _⟩ := made.old r other
      refine ⟨low.trans_le grown, kinds.trans kind, quorums.trans quorum, ?_⟩
      simp only [interests, withArgs, if_neg other]
      exact rest

theorem Lazy.Ordered.record (ordered : s.Ordered) (node : ArgNode) (built : node.Built s) :
    Lazy.Ordered { s with nodes := node :: s.nodes } := by
  have kept : ∀ {node : ArgNode}, node.Built s → node.Built { s with nodes := node :: s.nodes } :=
    fun built => built.mono (Nat.le_refl _) (fun _ _ => rfl) fun _ _ _ planned => planned
  refine { ordered with built := fun other member => ?_ }
  rcases List.mem_cons.mp member with rfl | old
  · exact kept built
  · exact (ordered.built other old).mono (Nat.le_refl _) (fun _ _ => rfl) fun _ _ _ planned => planned

theorem Lazy.Ordered.combine (ordered : s.Ordered) (form : Form)
    (holds : (handlesOf args).all s.world.outside.holds = true) (home : CoroutineId → DriverId)
    (current : DriverId) : (s.combined home form args current).Ordered := by
  cases many : makesQuorum args with
  | true => exact ordered.quorum form many holds home current
  | false =>
      match args with
      | [] =>
          cases form with
          | any =>
              have low : s.world.graph.next < s.world.graph.next + 1 := Nat.lt_succ_self _
              exact ordered.create.record ⟨.any, [], some s.world.graph.next⟩
                ⟨s.world.graph.next, rfl, low, by simp⟩
          | all => exact ordered.record ⟨.all, [], none⟩ rfl
      | [.event h] =>
          have held : s.world.outside.holds h = true := by simpa using holds
          have combined : s.combined home form [.event h] current =
              { s with
                world := { s.world with
                  graph := s.world.graph.copyHandle h
                  outside := s.world.outside.giveHandle h }
                nodes := ⟨form, [.event h], h⟩ :: s.nodes } := by
            cases form <;> rfl
          rw [combined]
          refine (ordered.copy held).record ⟨form, [.event h], h⟩ ?_
          cases form <;> rfl
      | [.interest] => simp [makesQuorum] at many
      | _ :: _ :: _ => simp [makesQuorum] at many

/-! Steps and runs. -/

theorem makeInterest_rest (s : Lazy) (c : CoroutineId) :
    (∀ n, s.world.outside.client n ≤ (s.makeInterest c).world.outside.client n) ∧
      (s.makeInterest c).world.outside.waiting = s.world.outside.waiting ∧
      ∀ n, n < s.world.graph.next →
        (s.makeInterest c).world.graph.body n = s.world.graph.body n := by
  unfold Lazy.makeInterest
  split
  · exact ⟨fun _ => Nat.le_refl _, rfl, fun _ _ => rfl⟩
  · refine ⟨fun n => ?_, rfl, fun n low => ?_⟩
    · simp only [Outside.give]
      split
      · exact Nat.le_succ _
      · exact Nat.le_refl _
    · simp [Nat.ne_of_lt low]

/-- An event that is about to be awaited wants nothing any more. -/
theorem Lazy.Ordered.prepared (ordered : s.Ordered) (owns : 0 < s.world.outside.client n)
    (home : CoroutineId → DriverId) (c : CoroutineId) (current : DriverId) :
    (s.prepared home c n current).Ordered ∧ Satisfied (s.prepared home c n current).world.graph n ∧
      0 < (s.prepared home c n current).world.outside.client n ∧
      (s.prepared home c n current).world.outside.waiting = s.world.outside.waiting := by
  unfold Lazy.prepared
  split
  · next wants =>
    obtain ⟨client, waiting, body⟩ := makeInterest_rest s c
    have owns' := owns.trans_le (client n)
    have wants' : ((s.makeInterest c).world.graph.body n).wantInterest = true := by
      rw [body n (ordered.inv.unheld.client owns)]
      exact wants
    obtain ⟨fixed, satisfied⟩ := (ordered.makeInterest c).fixWantInterest owns' wants' home c current
    exact ⟨fixed, satisfied, owns', waiting⟩
  · next unwanted => exact ⟨ordered, .inr (by simpa using unwanted), owns, rfl⟩

theorem Lazy.Ordered.await (ordered : s.Ordered) (owns : 0 < s.world.outside.client n)
    (idle : s.world.outside.waiting c = none) (satisfied : Satisfied s.world.graph n) :
    Lazy.Ordered { s with world := { s.world with
      graph := s.world.graph.await c n
      outside := s.world.outside.wait c (some n) } } := by
  have same : SameInterest s.world.graph (s.world.graph.await c n) :=
    (sameInterest_ref s.world.graph n).trans (sameInterest_addListener _ n _)
  have evolves := await_evolves s.world.graph c n
  refine ordered.steady (step_await ordered.inv owns idle) ⟨?_, ?_, same, evolves.triggered, ?_, ?_, rfl⟩
    ordered.kept
  · exact Nat.le_of_eq evolves.next.symm
  · exact fun m _ => ⟨evolves.kinds m, evolves.quorums m, rfl⟩
  · exact fun m => (evolves.fewer m).subset
  · intro c' m waits
    simp only [Outside.wait] at waits
    split at waits
    · cases waits
      exact .inr satisfied
    · exact .inl waits

theorem Lazy.Ordered.step {op : LazyOp} (ordered : s.Ordered) (moved : s.step home op = some t) :
    t.Ordered := by
  cases op with
  | plain op =>
      simp only [Lazy.step] at moved
      split at moved
      · next spares =>
        obtain ⟨w, stepped, rfl⟩ := Option.map_eq_some_iff.mp moved
        exact ordered.world stepped spares
      · contradiction
  | combine form args current =>
      simp only [Lazy.step] at moved
      split at moved
      · next holds =>
        cases Option.some.inj moved
        exact ordered.combine form holds home current
      · contradiction
  | await c n current =>
      simp only [Lazy.step] at moved
      split at moved
      · next ready =>
        obtain ⟨ordered, satisfied, owns, waiting⟩ := ordered.prepared ready.1 home c current
        split at moved
        · cases Option.some.inj moved
          exact ordered
        · cases Option.some.inj moved
          exact ordered.await owns ((congrFun waiting c).trans ready.2.1) satisfied
      · contradiction
  | interestEvent c =>
      cases Option.some.inj moved
      have made := ordered.makeInterest c
      exact made.copy (made.offered c).holds
  | start c current =>
      simp only [Lazy.step] at moved
      split at moved
      · next mine =>
        cases Option.some.inj moved
        exact ordered.triggerInterest home current mine
      · cases Option.some.inj moved
        exact ordered.setPromise _ rfl
  | prepareAwaiter c current =>
      cases Option.some.inj moved
      exact ordered.triggerInterest home current rfl
  | destroy c =>
      simp only [Lazy.step] at moved
      split at moved
      · split at moved
        · cases Option.some.inj moved
          exact ordered.setPromise _ rfl
        · next mine =>
          cases Option.some.inj moved
          exact ordered.destroy mine
      · contradiction

theorem Lazy.ordered_initial : Lazy.Ordered {} where
  inv := inv_initial
  nodes := rfl
  marked _ _ _ _ := ⟨rfl, fun _ member => absurd member List.not_mem_nil⟩
  wanted _ wants := absurd wants Bool.false_ne_true
  fresh _ _ := ⟨rfl, rfl, rfl⟩
  calm _ _ _ _ := rfl
  kept _ marked := absurd marked Bool.false_ne_true
  owned _ _ mine := by cases mine
  apart _ _ _ mine := by cases mine
  built _ member := absurd member List.not_mem_nil

theorem Lazy.Ordered.reached (path : Reaches (Lazy.step home) {} ops s) : s.Ordered :=
  path.invariant Lazy.Ordered.step Lazy.ordered_initial

end Cotamer.Event

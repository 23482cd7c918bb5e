import Mathlib
import Cotamer.Event.Placeholders

/-! A waiting quorum takes further arguments: the graph between two of them is
as orderly as between calls, but for the threshold of that quorum. -/
namespace Cotamer.Event
open SwapVector References Transition

variable {s : World} {g g' g'' : Graph} {args : EventId → List Handle} {y : Option EventId}
  {flight flight' : List EventId} {n q m : EventId} {h ievent : Handle} {done : List Handle}
  {explicit : EventId → Prop} {rank : EventId → Nat} {o : Outside} {X : EventId → Prop}

/-- The graph in the middle of an operation on world `s` that creates no event.
`args` are the argument positions of the quorums by now, and `y` may have reached
its threshold. -/
structure Filling (s : World) (args : EventId → List Handle) (y : Option EventId)
    (flight : List EventId) (g : Graph) : Prop where
  next : g.next = s.graph.next
  kinds : ∀ m, (g.body m).isQuorum = (s.graph.body m).isQuorum
  quorums : ∀ m, (g.body m).quorum = (s.graph.body m).quorum
  triggered : ∀ m, (s.graph.body m).triggered = true → (g.body m).triggered = true
  below : g.Below
  linked : Linked (rankOf s.graph) [] flight s.outside g
  counted : Counted args (fun n => s.explicit n = true) none y g
  listening : Listening s.outside none g
  tidied : Tidied none g

theorem Inv.filling (inv : Inv s) : Filling s s.args none [] s.graph where
  next := rfl
  kinds _ := rfl
  quorums _ := rfl
  triggered _ fired := fired
  below := inv.below
  linked := inv.linked
  counted := inv.counted
  listening := inv.listening
  tidied := inv.tidied

theorem Filling.deep (filling : Filling s args y flight g) (m : EventId) :
    rankOf s.graph m ≤ g.next := by
  have same : rankOf s.graph m = rankOf g m := by rw [rankOf, rankOf, filling.kinds]
  rw [same]
  exact filling.below.deep m

theorem Filling.evolves (filling : Filling s args y flight g) (evolves : Evolves g g')
    (linked : Linked (rankOf s.graph) [] flight' s.outside g')
    (counted : Counted args' (fun n => s.explicit n = true) none y' g')
    (listening : Listening s.outside none g') (tidied : Tidied none g') :
    Filling s args' y' flight' g' where
  next := evolves.next.trans filling.next
  kinds m := (evolves.kinds m).trans (filling.kinds m)
  quorums m := (evolves.quorums m).trans (filling.quorums m)
  triggered m fired := evolves.triggered m (filling.triggered m fired)
  below := filling.below.evolves evolves
  linked := linked
  counted := counted
  listening := listening
  tidied := tidied

/-- A running function holds the event, or its caller does. -/
def Kept (s : World) (flight : List EventId) (q : EventId) : Prop :=
  q ∈ flight ∨ 0 < s.outside.client q

theorem Filling.alive (filling : Filling s args y flight g) (kept : Kept s flight q) :
    0 < (g.body q).refcount := by
  rcases kept with flying | owned
  · exact filling.linked.alive .flight (List.count_pos_iff.mpr flying)
  · exact filling.linked.alive .client owned

theorem Filling.ranked (filling : Filling s args y flight g) (member : m ∈ (g.body q).members) :
    rankOf s.graph m < rankOf s.graph q :=
  (filling.linked.ranked m q member).1

/-! Handles that the running function takes and drops. -/

theorem Filling.ref (filling : Filling s args y flight g) (alive : 0 < (g.body n).refcount) :
    Filling s args y (n :: flight) (g.ref n) := by
  apply filling.evolves (ref_evolves g n)
  · exact ref_linked filling.linked n
  · exact ref_keeps_counted filling.counted alive
  · intro c m
    rw [ref_body_eq]
    exact filling.listening c m
  · exact ref_tidied (filling.tidied.hold alive)

theorem Filling.deref (filling : Filling s args y (n :: flight) g) :
    Filling s args y flight (g.deref n) ∧ Shrinks none g (g.deref n) := by
  obtain ⟨dropped, shrinks⟩ := deref_linked filling.deep filling.linked
  refine ⟨filling.evolves shrinks.evolves dropped (filling.counted.shrinks shrinks)
    (filling.listening.shrinks shrinks) ?_, shrinks⟩
  exact filling.tidied.keeps (deref_keeps filling.deep filling.linked)

/-- The order of the running function's handles does not matter. -/
theorem Filling.perm (filling : Filling s args y flight g) (perm : flight.Perm flight') :
    Filling s args y flight' g := by
  refine { filling with linked := { filling.linked with covered := fun n => ?_ } }
  apply (filling.linked.covered n).congr
  intro x
  cases x <;> first | rfl | exact (perm.count_eq n).symm

/-! Changes of the placeholder counts alone. -/

/-- Only placeholders differ. -/
def Reflagged (g g' : Graph) : Prop :=
  g'.next = g.next ∧ g'.inbox = g.inbox ∧
    ∀ m, ∃ interest wantInterest, g'.body m = { g.body m with interest, wantInterest }

theorem reflagged_modify (f : EventBody → EventBody)
    (only : ∀ b, ∃ interest wantInterest, f b = { b with interest, wantInterest }) :
    Reflagged g (g.modify n f) := by
  refine ⟨rfl, rfl, fun m => ?_⟩
  simp only [Graph.modify_body]
  split
  · exact only _
  · exact ⟨_, _, rfl⟩

theorem Reflagged.field (reflagged : Reflagged g g') {α : Type} (f : EventBody → α)
    (same : ∀ b interest wantInterest, f { b with interest, wantInterest } = f b) (m : EventId) :
    f (g'.body m) = f (g.body m) := by
  obtain ⟨_, _, eq⟩ := reflagged.2.2 m
  rw [eq, same]

theorem Reflagged.triggered (reflagged : Reflagged g g') (m : EventId) :
    (g'.body m).triggered = (g.body m).triggered :=
  reflagged.field EventBody.triggered (fun _ _ _ => rfl) m

theorem Reflagged.members (reflagged : Reflagged g g') (m : EventId) :
    (g'.body m).members = (g.body m).members :=
  reflagged.field EventBody.members (fun _ _ _ => rfl) m

theorem Reflagged.counted (reflagged : Reflagged g g') (counted : Counted args explicit none y g) :
    Counted args explicit none y g' := by
  have kinds := reflagged.field EventBody.isQuorum fun _ _ _ => rfl
  have counts := reflagged.field EventBody.triggeredMembers fun _ _ _ => rfl
  have quorums := reflagged.field EventBody.quorum fun _ _ _ => rfl
  have refcounts := reflagged.field EventBody.refcount fun _ _ _ => rfl
  have positions : ∀ q, triggeredArgs args g' q = triggeredArgs args g q :=
    triggeredArgs_congr reflagged.triggered
  have fired := fun q => firedMembers_congr (q := q) reflagged.triggered (reflagged.members q)
  constructor
  · intro q
    rw [positions, fired, counts]
    exact counted.atMost q
  · intro q e
    rw [reflagged.members]
    exact counted.among q e
  · intro q up
    rw [Due, positions, kinds, quorums]
    exact counted.reached q (reflagged.triggered q ▸ up)
  · intro q exempt quorum live waiting
    rw [positions, fired, counts, reflagged.members]
    simp only [reflagged.triggered] at waiting ⊢
    exact counted.exactly q exempt (kinds q ▸ quorum) (refcounts q ▸ live) waiting
  · intro q exempt quorum live waiting
    rw [counts, quorums]
    exact counted.below q exempt (kinds q ▸ quorum) (refcounts q ▸ live) (reflagged.triggered q ▸ waiting)

theorem Reflagged.evolves (reflagged : Reflagged g g') : Evolves g g' where
  next := reflagged.1
  kinds := reflagged.field EventBody.isQuorum fun _ _ _ => rfl
  quorums := reflagged.field EventBody.quorum fun _ _ _ => rfl
  triggered m fired := (reflagged.triggered m).trans fired
  fewer m := by rw [reflagged.members]
  posts d m queued := by
    rw [Queued, reflagged.2.1] at queued
    exact .inl queued

theorem Reflagged.linked (reflagged : Reflagged g g') (linked : Linked rank P flight o g) :
    Linked rank P flight o g' := by
  apply linked.update
  · exact fun m => ⟨reflagged.members m, reflagged.field EventBody.listeners (fun _ _ _ => rfl) m,
      reflagged.triggered m, reflagged.field EventBody.isQuorum (fun _ _ _ => rfl) m⟩
  · intro n
    rw [held_congr reflagged.members reflagged.2.1,
      reflagged.field EventBody.refcount fun _ _ _ => rfl]
    exact linked.covered n

theorem Reflagged.listening (reflagged : Reflagged g g') (listening : Listening o coh g) :
    Listening o coh g' := by
  intro c m
  rw [reflagged.field EventBody.listeners fun _ _ _ => rfl]
  exact listening c m

theorem Reflagged.tidied (reflagged : Reflagged g g') (tidied : Tidied none g) : Tidied none g' :=
  tidied.alike fun m => ⟨reflagged.1, reflagged.field EventBody.refcount (fun _ _ _ => rfl) m,
    reflagged.members m, reflagged.field EventBody.freed (fun _ _ _ => rfl) m, reflagged.triggered⟩

theorem Filling.reflag (filling : Filling s args y flight g) (reflagged : Reflagged g g') :
    Filling s args y flight g' :=
  filling.evolves reflagged.evolves (reflagged.linked filling.linked) (reflagged.counted filling.counted)
    (reflagged.listening filling.listening) (reflagged.tidied filling.tidied)

/-! One more argument. -/

/-- The effect of adding the position `h` to some quorum, on everything but the
counts of that quorum. -/
structure Adds (h : Handle) (g g' : Graph) : Prop where
  same : SameInterest g g'
  triggered : ∀ m, (g'.body m).triggered = (g.body m).triggered
  members : ∀ m e, e ∈ (g'.body m).members → e ∈ (g.body m).members ∨ h = some e

theorem tally_adds (g : Graph) (q : EventId) : Adds h g (g.tally q) := by
  refine ⟨fun m => ?_, fun m => ?_, fun m e member => ?_⟩
  · rw [tally_body]
    exact ⟨rfl, rfl⟩
  · rw [tally_body]
  · rw [tally_body] at member
    exact .inl member

/-- A handle is copied, counted and dropped. -/
theorem tally_deref_adds (shrinks : Shrinks none ((g.ref n).tally q) (((g.ref n).tally q).deref n)) :
    Adds h g (((g.ref n).tally q).deref n) where
  same := ((sameInterest_ref g n).trans (tally_adds (h := h) (g.ref n) q).same).trans (sameInterest_deref _ n)
  triggered m := by rw [shrinks.triggered, tally_body, ref_body_eq]
  members m e member := by
    have before := (shrinks.fewer m).subset member
    rw [tally_body, ref_body_eq] at before
    exact .inl before

theorem join_adds (apart : n ≠ q) (unwanted : (g.body n).wantInterest = false) :
    Adds (some n) g (g.join q n) where
  same m := by
    simp only [Graph.join, Graph.modify_body, Graph.addListener_body, ref_body_eq]
    split
    · next same =>
      subst same
      simp [unwanted, Ne.symm apart]
    · split <;> exact ⟨rfl, rfl⟩
  triggered m := by
    obtain ⟨_, eq⟩ := join_body g apart m
    rw [eq]
  members m e member := by
    obtain ⟨_, eq⟩ := join_body g apart m
    rw [eq] at member
    rcases List.mem_append.mp member with before | new
    · exact .inl before
    · split at new
      · cases List.mem_singleton.mp new
        exact .inr rfl
      · cases new

/-- The position `h` is added to a waiting quorum that somebody holds. `h` is no
quorum, and somebody else keeps it alive. -/
theorem Filling.addCopy (filling : Filling s (withArgs args q done) (some q) flight g)
    (quorum : (g.body q).isQuorum = true) (fresh : (g.body q).triggered = false)
    (kept : Kept s flight q) (holds : s.outside.holds h = true)
    (plain : ∀ n, h = some n → (g.body n).isQuorum = false ∧ (g.body n).wantInterest = false)
    (unheld : s.outside.Below s.graph.next) (low : q < s.graph.next) :
    Filling s (withArgs args q (done ++ [h])) (some q) flight (g.addCopy q h) ∧
      Adds h g (g.addCopy q h) := by
  cases h with
  | none =>
      refine ⟨?_, tally_adds g q⟩
      apply filling.evolves (tally_evolves g q)
      · exact tally_linked filling.linked q
      · exact tally_counted filling.counted rfl
      · intro c m
        rw [tally_body]
        exact filling.listening c m
      · exact filling.tidied.alike fun m => tally_alike g _ m
  | some n =>
      have owns : 0 < s.outside.client n := by simpa [Outside.holds] using holds
      have alive := filling.linked.alive .client owns
      have same : ((g.ref n).body n).triggered = (g.body n).triggered := by rw [ref_body_eq]
      simp only [Graph.addCopy, Graph.copyHandle, Graph.addMember, same]
      split
      · next fired =>
        have counted := tally_counted (h := some n) (ref_keeps_counted filling.counted alive)
          (same.trans fired)
        have evolves := (ref_evolves g n).trans (tally_evolves (g.ref n) q)
        have tallied : Filling s (withArgs args q (done ++ [some n])) (some q) (n :: flight)
            ((g.ref n).tally q) := by
          apply filling.evolves evolves (tally_linked (ref_linked filling.linked n) q) counted
          · intro c m
            rw [tally_body, ref_body_eq]
            exact filling.listening c m
          · exact (ref_tidied (filling.tidied.hold alive)).alike fun m => tally_alike (g.ref n) q m
        exact ⟨tallied.deref.1, tally_deref_adds tallied.deref.2⟩
      · next waiting =>
        have waits : (g.body n).triggered = false := by simpa using waiting
        have apart : n ≠ q := by
          rintro rfl
          rw [(plain n rfl).1] at quorum
          contradiction
        have above : rankOf s.graph n < rankOf s.graph q := by
          have bottom : rankOf s.graph n = 0 := by
            rw [rankOf, ← filling.kinds, (plain n rfl).1]
            rfl
          have top : rankOf s.graph q = q + 1 := by
            rw [rankOf, ← filling.kinds, quorum]
            rfl
          rw [bottom, top]
          exact Nat.succ_pos q
        have body := join_body g apart
        refine ⟨?_, join_adds apart (plain n rfl).2⟩
        show Filling s (withArgs args q (done ++ [some n])) (some q) flight (g.join q n)
        constructor
        · exact filling.next
        · intro m
          obtain ⟨_, eq⟩ := body m
          rw [eq]
          exact filling.kinds m
        · intro m
          obtain ⟨_, eq⟩ := body m
          rw [eq]
          exact filling.quorums m
        · intro m fired
          obtain ⟨_, eq⟩ := body m
          rw [eq]
          exact filling.triggered m fired
        · apply join_below filling.below apart
          · rw [filling.next]
            exact unheld.client owns
          · rw [filling.next]
            exact low
        · exact join_linked filling.linked waits above quorum
        · exact join_counted filling.counted apart waits alive
        · intro c m
          obtain ⟨_, eq⟩ := body m
          have before := filling.listening c m
          rw [eq]
          rw [List.count_append, before]
          by_cases here : m = n <;> simp [here]
        · exact join_tidied filling.tidied apart alive (filling.alive kept) fresh

/-- The context of `fix_want_interest`: what its argument is, and which events
may want it. -/
structure Offered (s : World) (ievent : Handle) (g : Graph) : Prop where
  holds : s.outside.holds ievent = true
  plain : ∀ n, ievent = some n → (g.body n).isQuorum = false
  wanted : ∀ m, (g.body m).wantInterest = true → (g.body m).isQuorum = true
  unheld : s.outside.Below s.graph.next

theorem Offered.calm (offered : Offered s ievent g) (same : ievent = some n) :
    (g.body n).wantInterest = false := by
  by_contra wanted
  have quorum := offered.wanted n (by simpa using wanted)
  rw [offered.plain n same] at quorum
  contradiction

theorem Offered.next (offered : Offered s ievent g)
    (kinds : ∀ m, (g'.body m).isQuorum = (g.body m).isQuorum)
    (want : ∀ m, (g'.body m).wantInterest = true → (g.body m).wantInterest = true) :
    Offered s ievent g' where
  holds := offered.holds
  plain n same := (kinds n).trans (offered.plain n same)
  wanted m wants := (kinds m).trans (offered.wanted m (want m wants))
  unheld := offered.unheld

/-- The loop over the placeholders of one quorum. -/
theorem Filling.applyInterest (filling : Filling s (withArgs args q done) (some q) flight g)
    (quorum : (g.body q).isQuorum = true) (fresh : (g.body q).triggered = false)
    (kept : Kept s flight q) (offered : Offered s ievent g) (low : q < s.graph.next)
    (count : (g.body q).interest = k) :
    let g' := (Graph.applyInterest q ievent)^[k] g
    Filling s (withArgs args q (done ++ List.replicate k ievent)) (some q) flight g' ∧
      (∀ m, (g'.body m).interest = if m = q then 0 else (g.body m).interest) ∧
      (∀ m, (g'.body m).wantInterest = (g.body m).wantInterest) ∧
      (∀ m, (g'.body m).triggered = (g.body m).triggered) ∧
      ∀ m e, e ∈ (g'.body m).members → e ∈ (g.body m).members ∨ ievent = some e := by
  induction k generalizing g done with
  | zero =>
      refine ⟨by simpa using filling, fun m => ?_, fun _ => rfl, fun _ => rfl, fun _ _ => .inl⟩
      simp only [Function.iterate_zero, id_eq]
      split
      · next same => exact same ▸ count
      · rfl
  | succ k ih =>
      let f : EventBody → EventBody := fun b => { b with interest := b.interest - 1 }
      have taken : Reflagged g (g.modify q f) := reflagged_modify f fun b => ⟨_, _, rfl⟩
      have interest : ∀ m, ((g.modify q f).body m).interest =
          if m = q then (g.body m).interest - 1 else (g.body m).interest := by
        intro m
        simp only [Graph.modify_body]
        split <;> rfl
      have want : ∀ m, ((g.modify q f).body m).wantInterest = (g.body m).wantInterest := by
        intro m
        simp only [Graph.modify_body]
        split <;> rfl
      have kinds := taken.field EventBody.isQuorum fun _ _ _ => rfl
      have offered' : Offered s ievent (g.modify q f) :=
        offered.next kinds fun m wanted => want m ▸ wanted
      obtain ⟨added, adds⟩ := (filling.reflag taken).addCopy ((kinds q).trans quorum)
        ((taken.triggered q).trans fresh) kept offered.holds
        (fun n same => ⟨offered'.plain n same, offered'.calm same⟩) offered.unheld low
      have kinds' : ∀ m, (((g.modify q f).addCopy q ievent).body m).isQuorum = (g.body m).isQuorum :=
        fun m => (added.kinds m).trans (filling.kinds m).symm
      obtain ⟨filled, interests, wants, triggers, members⟩ := ih added ((kinds' q).trans quorum)
        ((adds.triggered q).trans ((taken.triggered q).trans fresh))
        (offered'.next (fun m => (kinds' m).trans (kinds m).symm) fun m wanted => (adds.same m).2 ▸ wanted)
        (by rw [(adds.same q).1, interest, if_pos rfl, count]; rfl)
      simp only [Function.iterate_succ_apply]
      refine ⟨?_, fun m => ?_, fun m => ?_, fun m => ?_, fun m e member => ?_⟩
      · rw [List.replicate_succ, List.append_cons]
        exact filled
      · rw [show Graph.applyInterest q ievent g = (g.modify q f).addCopy q ievent from rfl, interests m]
        split
        · rfl
        · next other => rw [(adds.same m).1, interest, if_neg other]
      · exact (wants m).trans ((adds.same m).2.trans (want m))
      · exact (triggers m).trans ((adds.triggered m).trans (taken.triggered m))
      · rcases members m e member with before | new
        · rcases adds.members m e before with before | new
          · exact .inl (taken.members m ▸ before)
          · exact .inr new
        · exact .inr new

end Cotamer.Event

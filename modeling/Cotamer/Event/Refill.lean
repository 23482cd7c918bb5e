import Mathlib
import Cotamer.Event.Filling

/-! `fix_want_interest` replaces every placeholder in a quorum and in the waiting
quorums below it, and keeps the graph in order. -/
namespace Cotamer.Event
open SwapVector References Transition

variable {s : World} {g g' g'' : Graph} {args : EventId → List Handle} {y : Option EventId}
  {flight flight' : List EventId} {n q m : EventId} {ievent : Handle} {X : EventId → Prop}
  {list : List EventId} {home : CoroutineId → DriverId} {current : DriverId} {fuel : Nat}

/-- The argument positions after the placeholders that are gone were replaced. -/
def refill (ievent : Handle) (g g' : Graph) (args : EventId → List Handle) : EventId → List Handle :=
  fun q => args q ++ List.replicate ((g.body q).interest - (g'.body q).interest) ievent

/-- Placeholders only go away, all of a quorum's at once, and no member that wants
interest is new. -/
structure Quiets (g g' : Graph) : Prop where
  interest : ∀ m, (g'.body m).interest = (g.body m).interest ∨ (g'.body m).interest = 0
  want : ∀ m, (g'.body m).wantInterest = true → (g.body m).wantInterest = true
  triggered : ∀ m, (g.body m).triggered = true → (g'.body m).triggered = true
  members : ∀ m e, e ∈ (g'.body m).members →
    e ∈ (g.body m).members ∨ (g'.body e).wantInterest = false

theorem Quiets.calm (quiets : Quiets g g') (calm : (g.body m).wantInterest = false) :
    (g'.body m).wantInterest = false := by
  by_contra wants
  rw [quiets.want m (by simpa using wants)] at calm
  contradiction

theorem Quiets.trans (first : Quiets g g') (second : Quiets g' g'') : Quiets g g'' where
  interest m := by
    rcases second.interest m with same | gone
    · rw [same]
      exact first.interest m
    · exact .inr gone
  want m wants := first.want m (second.want m wants)
  triggered m fired := second.triggered m (first.triggered m fired)
  members m e member := by
    rcases second.members m e member with before | calm
    · exact (first.members m e before).imp id second.calm
    · exact .inr calm

/-- Handles are dropped or events trigger. -/
theorem Quiets.of_same (same : SameInterest g g')
    (triggered : ∀ m, (g.body m).triggered = true → (g'.body m).triggered = true)
    (fewer : ∀ m, (g'.body m).members ⊆ (g.body m).members) : Quiets g g' where
  interest m := .inl (same m).1
  want m wants := (same m).2 ▸ wants
  triggered := triggered
  members m _ member := .inl (fewer m member)

theorem refill_refill (first : Quiets g g') (second : Quiets g' g'') :
    refill ievent g' g'' (refill ievent g g' args) = refill ievent g g'' args := by
  funext q
  simp only [refill, List.append_assoc, List.replicate_append_replicate]
  congr 2
  rcases first.interest q with same | gone <;> rcases second.interest q with same' | gone' <;> omega

/-- A step of `fix_want_interest` that leaves the handles `flight`. -/
structure Refills (s : World) (ievent : Handle) (args : EventId → List Handle) (flight : List EventId)
    (g g' : Graph) : Prop where
  filling : Filling s (refill ievent g g' args) none flight g'
  quiets : Quiets g g'

theorem Refills.trans (first : Refills s ievent args flight g g')
    (second : Refills s ievent (refill ievent g g' args) flight' g' g'') :
    Refills s ievent args flight' g g'' where
  filling := by
    rw [← refill_refill first.quiets second.quiets]
    exact second.filling
  quiets := first.quiets.trans second.quiets

/-- Nothing was replaced. -/
theorem Refills.of_same (same : SameInterest g g') (filling : Filling s args none flight g')
    (triggered : ∀ m, (g.body m).triggered = true → (g'.body m).triggered = true)
    (fewer : ∀ m, (g'.body m).members ⊆ (g.body m).members) : Refills s ievent args flight g g' where
  filling := by
    have none : refill ievent g g' args = args := by
      funext q
      simp [refill, (same q).1]
    rwa [none]
  quiets := .of_same same triggered fewer

theorem Refills.offered (refills : Refills s ievent args flight g g') (filling : Filling s args' y flight' g)
    (offered : Offered s ievent g) : Offered s ievent g' :=
  offered.next (fun m => (refills.filling.kinds m).trans (filling.kinds m).symm) refills.quiets.want

/-- A waiting quorum without the flag has no placeholder, and no waiting member
with the flag. Quorums in `X` are still being seen to. -/
def Marked (X : EventId → Prop) (g : Graph) : Prop :=
  ∀ q, ¬X q → (g.body q).triggered = false → (g.body q).wantInterest = false →
    (g.body q).interest = 0 ∧
    ∀ e ∈ (g.body q).members, (g.body e).triggered = false → (g.body e).wantInterest = false

/-- No event is untriggered again. -/
theorem untriggered_before (triggered : ∀ m, (g.body m).triggered = true → (g'.body m).triggered = true)
    (waiting : (g'.body m).triggered = false) : (g.body m).triggered = false := by
  cases before : (g.body m).triggered with
  | false => rfl
  | true => exact (triggered m before).symm.trans waiting

theorem Quiets.waiting (quiets : Quiets g g') (waiting : (g'.body m).triggered = false) :
    (g.body m).triggered = false :=
  untriggered_before quiets.triggered waiting

theorem Marked.quiets (marked : Marked X g) (quiets : Quiets g g')
    (same : ∀ p, ¬X p → (g'.body p).wantInterest = (g.body p).wantInterest) : Marked X g' := by
  intro p free waiting calm
  obtain ⟨none, members⟩ := marked p free (quiets.waiting waiting) ((same p free).symm.trans calm)
  refine ⟨?_, fun e member untriggered => ?_⟩
  · rcases quiets.interest p with same | gone
    · exact same.trans none
    · exact gone
  · rcases quiets.members p e member with before | calm
    · exact quiets.calm (members e before (quiets.waiting untriggered))
    · exact calm

/-- The quorum needs no interest any more. -/
def Satisfied (g : Graph) (q : EventId) : Prop :=
  (g.body q).triggered = true ∨ (g.body q).wantInterest = false

theorem Quiets.satisfied (quiets : Quiets g g') (satisfied : Satisfied g q) : Satisfied g' q :=
  satisfied.imp (quiets.triggered q) quiets.calm

/-! The handles of the members that want interest. -/

theorem refs_refill (list : List EventId) {flight : List EventId} {g : Graph}
    (filling : Filling s args none flight g) (alive : ∀ m ∈ list, 0 < (g.body m).refcount) :
    Filling s args none (list.reverse ++ flight) (list.foldl Graph.ref g) ∧
      SameInterest g (list.foldl Graph.ref g) ∧
      (∀ m, ((list.foldl Graph.ref g).body m).triggered = (g.body m).triggered) ∧
      ∀ m, ((list.foldl Graph.ref g).body m).members = (g.body m).members := by
  induction list generalizing flight g with
  | nil => exact ⟨filling, SameInterest.refl g, fun _ => rfl, fun _ => rfl⟩
  | cons n list ih =>
      have taken := filling.ref (alive n List.mem_cons_self)
      obtain ⟨held, same, triggered, members⟩ := ih taken fun m member => by
        rw [ref_body_eq]
        exact Nat.lt_add_right _ (alive m (List.mem_cons_of_mem n member))
      refine ⟨?_, (sameInterest_ref g n).trans same, fun m => ?_, fun m => ?_⟩
      · simpa using held
      · exact (triggered m).trans (by rw [ref_body_eq])
      · exact (members m).trans (by rw [ref_body_eq])

theorem derefs_refill (list : List EventId) {g : Graph} {args : EventId → List Handle}
    (filling : Filling s args none (list ++ flight) g) :
    Refills s ievent args flight g (list.foldl Graph.deref g) := by
  induction list generalizing g args with
  | nil => exact .of_same (SameInterest.refl g) filling (fun _ => id) fun _ => List.Subset.refl _
  | cons n list ih =>
      obtain ⟨dropped, shrinks⟩ := filling.deref
      have first : Refills s ievent args (list ++ flight) g (g.deref n) :=
        .of_same (sameInterest_deref g n) dropped (fun m fired => (shrinks.triggered m).trans fired)
          fun m => (shrinks.fewer m).subset
      exact first.trans (ih first.filling)

/-! One quorum, then the members that want interest. -/

/-- What is left when `fix_want_interest` has come to quorum `q`. -/
structure Fixes (s : World) (ievent : Handle) (args : EventId → List Handle) (flight : List EventId)
    (g : Graph) (q : EventId) (g' : Graph) : Prop where
  refills : Refills s ievent args flight g g'
  marked : ∀ X, Marked X g → Marked X g'
  satisfied : Satisfied g' q

/-- `fix` may be called on a quorum below rank `fuel` that somebody holds. -/
def Fixing (s : World) (ievent : Handle) (fuel : Nat) (fix : Graph → EventId → Graph) : Prop :=
  ∀ {args flight g q}, rankOf s.graph q < fuel → Kept s flight q → (s.graph.body q).isQuorum = true →
    Filling s args none flight g → Offered s ievent g → Fixes s ievent args flight g q (fix g q)

theorem members_refill {fix : Graph → EventId → Graph} (spec : Fixing s ievent fuel fix)
    (list : List EventId) {g : Graph} {args : EventId → List Handle}
    (ready : ∀ m ∈ list, rankOf s.graph m < fuel ∧ m ∈ flight ∧ (s.graph.body m).isQuorum = true)
    (filling : Filling s args none flight g) (offered : Offered s ievent g) :
    Refills s ievent args flight g (list.foldl fix g) ∧
      (∀ X, Marked X g → Marked X (list.foldl fix g)) ∧
      ∀ m ∈ list, Satisfied (list.foldl fix g) m := by
  induction list generalizing g args with
  | nil =>
      refine ⟨?_, fun _ => id, fun m member => absurd member List.not_mem_nil⟩
      exact .of_same (SameInterest.refl g) filling (fun _ => id) fun _ => List.Subset.refl _
  | cons n list ih =>
      obtain ⟨low, flying, quorum⟩ := ready n List.mem_cons_self
      have first := spec low (.inl flying) quorum filling offered
      obtain ⟨rest, marked, satisfied⟩ := ih (fun m member => ready m (List.mem_cons_of_mem n member))
        first.refills.filling (first.refills.offered filling offered)
      refine ⟨first.refills.trans rest, fun X before => marked X (first.marked X before), fun m member => ?_⟩
      rcases List.mem_cons.mp member with rfl | later
      · exact rest.quiets.satisfied first.satisfied
      · exact satisfied m later

/-- The placeholders of `q` itself are replaced; its members are as they were. -/
theorem local_refill (filling : Filling s args none flight g) (kept : Kept s flight q)
    (quorum : (s.graph.body q).isQuorum = true) (fresh : (g.body q).triggered = false)
    (offered : Offered s ievent g) :
    let cleared := g.modify q fun b => { b with wantInterest := false }
    let h := (Graph.applyInterest q ievent)^[(cleared.body q).interest] cleared
    Filling s (refill ievent g h args) (some q) flight h ∧ Quiets g h ∧
      (h.body q).triggered = false ∧ (h.body q).wantInterest = false ∧ (h.body q).interest = 0 ∧
      ∀ X, Marked X g → Marked (fun p => X p ∨ p = q) h := by
  intro cleared h
  let f : EventBody → EventBody := fun b => { b with wantInterest := false }
  have reflagged : Reflagged g cleared := reflagged_modify f fun b => ⟨_, _, rfl⟩
  have kinds := reflagged.field EventBody.isQuorum fun _ _ _ => rfl
  have interest : ∀ m, (cleared.body m).interest = (g.body m).interest := by
    intro m
    simp only [cleared, Graph.modify_body]
    split <;> rfl
  have want : ∀ m, (cleared.body m).wantInterest = if m = q then false else (g.body m).wantInterest := by
    intro m
    simp only [cleared, Graph.modify_body]
    split <;> rfl
  have low : q < s.graph.next := by
    by_contra high
    have none := filling.below.kinds q (filling.next.trans_le (Nat.le_of_not_lt high))
    rw [filling.kinds, quorum] at none
    contradiction
  have offered' : Offered s ievent cleared := by
    refine offered.next kinds fun m wants => ?_
    rw [want] at wants
    split at wants
    · contradiction
    · exact wants
  have start : Filling s (withArgs args q (args q)) (some q) flight cleared := by
    have same : withArgs args q (args q) = args := by
      funext m
      unfold withArgs
      split
      · next here => rw [here]
      · rfl
    rw [same]
    have before := filling.reflag reflagged
    refine { before with counted := { before.counted with below := fun m _ => ?_ } }
    exact before.counted.below m (by rintro ⟨⟩)
  obtain ⟨filled, interests, wants, triggers, members⟩ := start.applyInterest
    ((kinds q).trans ((filling.kinds q).trans quorum)) ((reflagged.triggered q).trans fresh) kept offered'
    low rfl
  have calm : ∀ m, (h.body m).wantInterest = if m = q then false else (g.body m).wantInterest :=
    fun m => (wants m).trans (want m)
  have quiets : Quiets g h := by
    refine ⟨fun m => ?_, fun m wanted => ?_, fun m fired => ?_, fun m e member => ?_⟩
    · rw [show (h.body m).interest = _ from interests m]
      split
      · exact .inr rfl
      · exact .inl (interest m)
    · rw [calm] at wanted
      split at wanted
      · contradiction
      · exact wanted
    · exact (triggers m).trans ((reflagged.triggered m).trans fired)
    · rcases members m e member with before | new
      · exact .inl (reflagged.members m ▸ before)
      · exact .inr ((wants e).trans (offered'.calm new))
  refine ⟨?_, quiets, ?_, ?_, ?_, fun X marked => ?_⟩
  · have positions : refill ievent g h args =
        withArgs args q (args q ++ List.replicate (cleared.body q).interest ievent) := by
      funext m
      unfold refill withArgs
      rw [show (h.body m).interest = _ from interests m]
      split
      · next here => rw [here, interest, Nat.sub_zero]
      · rw [interest, Nat.sub_self, List.replicate_zero, List.append_nil]
    rw [positions]
    exact filled
  · exact (triggers q).trans ((reflagged.triggered q).trans fresh)
  · rw [calm, if_pos rfl]
  · exact (interests q).trans (if_pos rfl)
  · have weaker : Marked (fun p => X p ∨ p = q) g := fun p free => marked p fun exempt => free (.inl exempt)
    refine weaker.quiets quiets fun p free => ?_
    rw [calm, if_neg fun here => free (.inr here)]

/-- The quorum has reached its threshold. -/
theorem trigger_refill (ievent : Handle) (filling : Filling s args (some q) flight g) (kept : Kept s flight q)
    (quorum : (s.graph.body q).isQuorum = true) (fresh : (g.body q).triggered = false)
    (enough : (g.body q).quorum ≤ (g.body q).triggeredMembers)
    (unheld : s.outside.Below s.graph.next) :
    let g' := (triggerUnlock home ⟨none, current⟩ ⟨g, none⟩ q).graph
    Refills s ievent args flight g g' ∧ (g'.body q).triggered = true := by
  intro g'
  have weak : Counted args (fun n => s.explicit n = true) (some q) (some q) g :=
    { filling.counted with exactly := fun m _ => filling.counted.exactly m (by rintro ⟨⟩) }
  have due : Due args (fun n => s.explicit n = true) g q := by
    refine .inr ⟨(filling.kinds q).trans quorum, ?_⟩
    exact enough.trans ((Nat.le_add_right _ _).trans (filling.counted.atMost q))
  obtain ⟨settles, fired⟩ : Settles (rankOf s.graph) [] flight args (fun n => s.explicit n = true) home
      ⟨none, current⟩ s.outside (some q) ⟨g, none⟩ (triggerUnlock home ⟨none, current⟩ ⟨g, none⟩ q) ∧
      (g'.body q).triggered = true :=
    triggerUnlock_settles filling.deep filling.linked weak fresh due filling.listening claims_none
  have unclaimed := trigger_unclaimed settles.wakes rfl rfl
  have listening := settles.wakes.listening
  rw [unclaimed] at listening
  have evolves : Evolves g g' := by
    apply settles.wakes.evolves
    rw [filling.next]
    exact unheld
  have after : Filling s args none flight g' := by
    apply filling.evolves evolves settles.linked settles.counted listening
    exact settles.tidied (filling.tidied.hold (filling.alive kept))
  exact ⟨.of_same sameInterest_triggerUnlock after evolves.triggered fun m => (evolves.fewer m).subset, fired⟩

/-- The members that want interest are taken from the list of `q` before any of
them is changed, and held until all of them have been seen to. -/
theorem below_refill {fix : Graph → EventId → Graph} (spec : Fixing s ievent fuel fix)
    (low : rankOf s.graph q ≤ fuel) (filling : Filling s args none flight g) (offered : Offered s ievent g)
    (done : (g.body q).interest = 0) :
    let wi := g.wanting q
    let g' := wi.foldl Graph.deref (wi.foldl fix (wi.foldl Graph.ref g))
    Refills s ievent args flight g g' ∧
      ∀ X, Marked (fun p => X p ∨ p = q) g → Marked X g' := by
  intro wi g'
  have members : ∀ m ∈ wi, m ∈ (g.body q).members ∧ (g.body m).wantInterest = true := by
    intro m member
    exact List.mem_filter.mp member
  have alive : ∀ m ∈ wi, 0 < (g.body m).refcount := by
    intro m member
    exact filling.linked.alive (.quorum q) (List.count_pos_iff.mpr (members m member).1)
  obtain ⟨held, same, triggered, listed⟩ := refs_refill wi filling alive
  have taken : Refills s ievent args (wi ++ flight) g (wi.foldl Graph.ref g) := by
    apply Refills.of_same same
    · exact held.perm ((List.reverse_perm wi).append_right flight)
    · exact fun m fired => (triggered m).trans fired
    · exact fun m => (listed m).symm ▸ List.Subset.refl _
  obtain ⟨fixed, marked, satisfied⟩ := members_refill spec wi (fun m member => by
      obtain ⟨inside, wants⟩ := members m member
      refine ⟨(filling.ranked inside).trans_le low, List.mem_append_left flight member, ?_⟩
      exact (filling.kinds m).symm.trans (offered.wanted m wants))
    taken.filling (taken.offered filling offered)
  have dropped : Refills s ievent _ flight _ g' := derefs_refill wi (taken.trans fixed).filling
  have last := sameInterest_foldl sameInterest_deref wi (g := wi.foldl fix (wi.foldl Graph.ref g))
  refine ⟨(taken.trans fixed).trans dropped, fun X before p free waiting calm => ?_⟩
  have after : Marked (fun p => X p ∨ p = q) g' := by
    apply (marked _ (before.quiets taken.quiets fun p _ => (same p).2)).quiets dropped.quiets
    exact fun p _ => (last p).2
  by_cases here : p = q
  · subst here
    have quiets := (taken.quiets.trans fixed.quiets).trans dropped.quiets
    refine ⟨?_, fun e member untriggered => ?_⟩
    · rcases quiets.interest p with same | gone
      · exact same.trans done
      · exact gone
    · rcases quiets.members p e member with inside | calm
      · cases wants : (g.body e).wantInterest with
        | false => exact quiets.calm wants
        | true =>
            have seen := satisfied e (List.mem_filter.mpr ⟨inside, wants⟩)
            rcases dropped.quiets.satisfied seen with fired | calm
            · exact absurd (untriggered.symm.trans fired) Bool.false_ne_true
            · exact calm
      · exact calm
  · exact after p (fun exempt => exempt.elim free here) waiting calm

theorem fixWantInterestWith_fixing (fuel : Nat) :
    Fixing s ievent fuel (Graph.fixWantInterestWith home current ievent fuel) := by
  induction fuel with
  | zero => exact fun low => absurd low (Nat.not_lt_zero _)
  | succ fuel ih =>
      intro args flight g q low kept quorum filling offered
      let f : EventBody → EventBody := fun b => { b with wantInterest := false }
      have reflagged : Reflagged g (g.modify q f) := reflagged_modify f fun b => ⟨_, _, rfl⟩
      unfold Graph.fixWantInterestWith
      simp only
      split
      · next fired =>
        have fired : (g.body q).triggered = true := (reflagged.triggered q).symm.trans fired
        have want : ∀ p, p ≠ q → ((g.modify q f).body p).wantInterest = (g.body p).wantInterest := by
          intro p other
          rw [Graph.modify_body, if_neg other]
        have quiets : Quiets g (g.modify q f) := by
          refine ⟨fun m => .inl ?_, fun m wants => ?_, fun m up => ?_, fun m e member => .inl ?_⟩
          · simp only [Graph.modify_body]
            split <;> rfl
          · simp only [Graph.modify_body] at wants
            split at wants
            · contradiction
            · exact wants
          · exact (reflagged.triggered m).trans up
          · exact reflagged.members m ▸ member
        have none : refill ievent g (g.modify q f) args = args := by
          funext m
          have same : ((g.modify q f).body m).interest = (g.body m).interest := by
            simp only [Graph.modify_body]
            split <;> rfl
          rw [refill, same, Nat.sub_self, List.replicate_zero, List.append_nil]
        refine ⟨⟨?_, quiets⟩, fun X marked p free waiting calm => ?_, .inl ?_⟩
        · rw [none]
          exact filling.reflag reflagged
        · have other : p ≠ q := by
            rintro rfl
            exact absurd ((quiets.waiting waiting).symm.trans fired) Bool.false_ne_true
          have weaker : Marked (fun p => X p ∨ p = q) g :=
            fun p free => marked p fun exempt => free (.inl exempt)
          exact weaker.quiets quiets (fun p free => want p fun here => free (.inr here)) p
            (fun exempt => exempt.elim free other) waiting calm
        · exact (reflagged.triggered q).trans fired
      · next waiting =>
        have fresh : (g.body q).triggered = false := by
          rw [← reflagged.triggered q]
          simpa using waiting
        obtain ⟨filled, quiets, untriggered, calm, done, marked⟩ :=
          local_refill filling kept quorum fresh offered
        split
        · next enough =>
          obtain ⟨triggers, fired⟩ := trigger_refill ievent filled kept quorum untriggered enough
            offered.unheld
          have whole := quiets.trans triggers.quiets
          refine ⟨⟨?_, whole⟩, fun X before p free waits quiet => ?_, .inl fired⟩
          · rw [← refill_refill quiets triggers.quiets]
            exact triggers.filling
          · have other : p ≠ q := by
              rintro rfl
              exact absurd (waits.symm.trans fired) Bool.false_ne_true
            exact (marked X before).quiets triggers.quiets (fun p _ => (sameInterest_triggerUnlock p).2) p
              (fun exempt => exempt.elim free other) waits quiet
        · next below =>
          have settled := filled.counted.settle fun _ => Nat.lt_of_not_le below
          have after : Refills s ievent args flight g _ := ⟨{ filled with counted := settled }, quiets⟩
          obtain ⟨rest, unmarked⟩ := below_refill ih (Nat.le_of_lt_succ low) after.filling
            (after.offered filling offered) done
          refine ⟨after.trans rest, fun X before => unmarked X (marked X before), .inr ?_⟩
          exact rest.quiets.calm calm

/-- `fix_want_interest` of an event that a client holds. -/
theorem fixWantInterest_fixes (inv : Inv s) (owns : 0 < s.outside.client q)
    (quorum : (s.graph.body q).isQuorum = true) (offered : Offered s ievent s.graph) :
    Fixes s ievent s.args [] s.graph q (s.graph.fixWantInterest home current ievent q) :=
  fixWantInterestWith_fixing _ (Nat.lt_succ_of_le (inv.deep q)) (.inr owns) quorum inv.filling offered

end Cotamer.Event

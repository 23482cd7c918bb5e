import Mathlib
import Cotamer.Event.Threshold

/-! Placeholders. An argument `interest{}` of `any()` or `all()` is counted in
the flags of the quorum, and replaced by the interest event of the first task
that awaits the quorum or an event above it. -/
namespace Cotamer.Event
open SwapVector

/-- An argument of `any()` or `all()`. -/
inductive Arg where
  | event (h : Handle)
  | interest
  deriving DecidableEq, Repr

namespace Graph

/-- `add_member`, for either kind of argument. -/
def addArg (q : EventId) (g : Graph) : Arg → Graph
  | .event h => g.addCopy q h
  | .interest => g.modify q fun b => { b with wantInterest := true, interest := b.interest + 1 }

/-- `quorum_event_body::make` -/
def makeArgs (home : CoroutineId → DriverId) (current : DriverId) (quorum : Nat) (args : List Arg)
    (g : Graph) : Graph × Handle :=
  ((args.foldl (addArg g.next) (g.alloc { isQuorum := true, quorum })).sealQuorum home current g.next,
    some g.next)

/-- One turn of the loop that applies local interest. -/
def applyInterest (q : EventId) (ievent : Handle) (g : Graph) : Graph :=
  (g.modify q fun b => { b with interest := b.interest - 1 }).addCopy q ievent

/-- The members that want interest, each with a handle of its own. -/
def wanting (g : Graph) (q : EventId) : List EventId :=
  (g.body q).members.filter fun m => (g.body m).wantInterest

/-- `fix_want_interest`; `fuel` bounds the nesting of quorums. -/
def fixWantInterestWith (home : CoroutineId → DriverId) (current : DriverId) (ievent : Handle) :
    Nat → Graph → EventId → Graph
  | 0, g, _ => g
  | fuel + 1, g, q =>
    let g := g.modify q fun b => { b with wantInterest := false }
    if (g.body q).triggered then g
    else
      let g := (applyInterest q ievent)^[(g.body q).interest] g
      if (g.body q).quorum ≤ (g.body q).triggeredMembers then
        (triggerUnlock home ⟨none, current⟩ ⟨g, none⟩ q).graph
      else
        let wi := g.wanting q
        let g := wi.foldl (fixWantInterestWith home current ievent fuel) (wi.foldl ref g)
        wi.foldl deref g

/-- Quorums are nested at most as deep as there are bodies. -/
def fixWantInterest (home : CoroutineId → DriverId) (current : DriverId) (ievent : Handle)
    (g : Graph) (q : EventId) : Graph :=
  fixWantInterestWith home current ievent (g.next + 1) g q

end Graph

/-! Nothing but these functions touches the placeholders. -/

/-- Every body has the placeholders it had. -/
def SameInterest (g g' : Graph) : Prop :=
  ∀ m, (g'.body m).interest = (g.body m).interest ∧ (g'.body m).wantInterest = (g.body m).wantInterest

variable {g g' g'' : Graph} {n q m : EventId} {home : CoroutineId → DriverId} {k : Caller}

theorem SameInterest.refl (g : Graph) : SameInterest g g := fun _ => ⟨rfl, rfl⟩

theorem SameInterest.trans (first : SameInterest g g') (second : SameInterest g' g'') :
    SameInterest g g'' :=
  fun m => ⟨(second m).1.trans (first m).1, (second m).2.trans (first m).2⟩

theorem sameInterest_modify (f : EventBody → EventBody)
    (same : ∀ b, (f b).interest = b.interest ∧ (f b).wantInterest = b.wantInterest) :
    SameInterest g (g.modify n f) := by
  intro m
  simp only [Graph.modify_body]
  split
  · exact same _
  · exact ⟨rfl, rfl⟩

/-- A loop keeps the placeholders if each turn does. -/
theorem sameInterest_foldl {step : Graph → EventId → Graph}
    (same : ∀ g n, SameInterest g (step g n)) (list : List EventId) :
    SameInterest g (list.foldl step g) := by
  induction list generalizing g with
  | nil => exact SameInterest.refl g
  | cons n list ih => exact (same g n).trans ih

theorem sameInterest_ref (g : Graph) (n : EventId) : SameInterest g (g.ref n) :=
  sameInterest_modify _ fun _ => ⟨rfl, rfl⟩

theorem sameInterest_refBy (g : Graph) (n : EventId) (times : Nat) : SameInterest g (g.refBy n times) :=
  sameInterest_modify _ fun _ => ⟨rfl, rfl⟩

theorem sameInterest_unref (g : Graph) (n : EventId) : SameInterest g (g.unref n) :=
  sameInterest_modify _ fun _ => ⟨rfl, rfl⟩

theorem sameInterest_free (g : Graph) (n : EventId) : SameInterest g (g.free n) :=
  sameInterest_modify _ fun _ => ⟨rfl, rfl⟩

theorem sameInterest_removeListener (g : Graph) (n : EventId) (l : Listener) :
    SameInterest g (g.removeListener n l) :=
  sameInterest_modify _ fun _ => ⟨rfl, rfl⟩

theorem sameInterest_addListener (g : Graph) (n : EventId) (l : Listener) :
    SameInterest g (g.addListener n l) :=
  sameInterest_modify _ fun _ => ⟨rfl, rfl⟩

theorem sameInterest_detachMember (g : Graph) (q : EventId) (i : Nat) (m : EventId) :
    SameInterest g (g.detachMember q i m) :=
  (sameInterest_removeListener g m (.quorum q)).trans (sameInterest_modify _ fun _ => ⟨rfl, rfl⟩)

theorem sameInterest_cullFrom {drop : Graph → EventId → Graph}
    (same : ∀ g n, SameInterest g (drop g n)) (k : Nat) :
    ∀ i g, SameInterest g (Graph.cullFrom drop q k i g) := by
  induction k with
  | zero => exact fun _ g => SameInterest.refl g
  | succ k ih =>
      intro i g
      unfold Graph.cullFrom
      split
      · exact SameInterest.refl g
      · next m _ =>
        split
        · exact ih _ g
        · exact ((sameInterest_detachMember g q i m).trans (same _ m)).trans (ih _ _)

theorem sameInterest_derefWith (fuel : Nat) :
    ∀ g n, SameInterest g (Graph.derefWith fuel g n) := by
  induction fuel with
  | zero => exact fun g _ => SameInterest.refl g
  | succ fuel ih =>
      intro g n
      have unrefd := sameInterest_unref g n
      have freed : ∀ {g' : Graph}, SameInterest g g' → SameInterest g (g'.free n) :=
        fun before => before.trans (sameInterest_free _ n)
      have emptied : ∀ {g' : Graph}, SameInterest g g' →
          SameInterest g (if (g'.body n).members.isEmpty then g'.free n else g') := by
        intro g' before
        split
        · exact freed before
        · exact before
      unfold Graph.derefWith
      simp only
      split
      · exact unrefd
      · split
        · split
          · exact emptied unrefd
          · exact emptied (unrefd.trans (sameInterest_cullFrom ih _ _ _))
        · exact freed unrefd

theorem sameInterest_deref (g : Graph) (n : EventId) : SameInterest g (g.deref n) :=
  sameInterest_derefWith _ g n

theorem sameInterest_cullMembers (g : Graph) (q : EventId) : SameInterest g (g.cullMembers q) :=
  sameInterest_cullFrom (sameInterest_derefWith _) _ _ g

theorem sameInterest_post (g : Graph) (d : DriverId) : SameInterest g (Graph.post k n g d) := by
  unfold Graph.post
  split <;> exact SameInterest.refl g

theorem sameInterest_triggerMember {fire : Wake → EventId → Wake} {w : Wake}
    (same : ∀ w n, SameInterest w.graph (fire w n).graph) :
    SameInterest w.graph (triggerMember fire n w q).graph := by
  have counted : SameInterest w.graph (w.graph.countMember n q) := by
    unfold Graph.countMember
    split
    · refine SameInterest.trans ?_ (sameInterest_deref _ n)
      exact sameInterest_modify _ fun _ => ⟨rfl, rfl⟩
    · exact SameInterest.refl _
  unfold triggerMember
  simp only
  split
  · exact counted.trans (same ⟨_, _⟩ q)
  · split
    · exact counted.trans (sameInterest_free _ q)
    · exact counted

theorem sameInterest_triggerUnlockWith (fuel : Nat) :
    ∀ w n, SameInterest w.graph (triggerUnlockWith home k fuel w n).graph := by
  induction fuel with
  | zero => exact fun w _ => SameInterest.refl w.graph
  | succ fuel ih =>
      intro w n
      have informed : ∀ (quorums : List EventId) (w : Wake), SameInterest w.graph
          (quorums.foldl (triggerMember (triggerUnlockWith home k fuel) n) w).graph := by
        intro quorums
        induction quorums with
        | nil => exact fun w => SameInterest.refl w.graph
        | cons q quorums rest => exact fun w => (sameInterest_triggerMember ih).trans (rest _)
      have posted : ∀ (drivers : List DriverId) (g : Graph),
          SameInterest g (drivers.foldl (Graph.post k n) g) := by
        intro drivers
        induction drivers with
        | nil => exact fun g => SameInterest.refl g
        | cons d drivers rest => exact fun g => (sameInterest_post g d).trans (rest _)
      have after : ∀ g' kept (quorums : List EventId) coh (drivers : List DriverId), SameInterest w.graph g' →
          SameInterest w.graph (drivers.foldl (Graph.post k n)
            (Graph.refBy (quorums.foldl (triggerMember (triggerUnlockWith home k fuel) n)
              ⟨g'.fire n kept, coh⟩).graph n drivers.length)) := by
        intro g' kept quorums coh drivers before
        have fired : SameInterest g' (g'.fire n kept) := sameInterest_modify _ fun _ => ⟨rfl, rfl⟩
        refine ((before.trans fired).trans (informed quorums ⟨_, coh⟩)).trans ?_
        exact (sameInterest_refBy _ n _).trans (posted drivers _)
      unfold triggerUnlockWith
      simp only
      split
      · have culled := (sameInterest_ref w.graph n).trans (sameInterest_cullMembers _ n)
        exact (after _ _ _ _ _ culled).trans (sameInterest_deref _ n)
      · exact after _ _ _ _ _ (SameInterest.refl _)

theorem sameInterest_triggerUnlock {w : Wake} :
    SameInterest w.graph (triggerUnlock home k w n).graph :=
  sameInterest_triggerUnlockWith _ w n

end Cotamer.Event

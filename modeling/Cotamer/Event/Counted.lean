import Cotamer.Event.Linked

/-! The threshold formula. `args` are the argument positions each quorum was
built with and `explicit` says on which events `trigger` was called; neither is
part of the program. -/
namespace Cotamer.Event
open SwapVector References

/-- The triggered argument positions of a quorum. -/
def triggeredArgs (args : EventId → List Handle) (g : Graph) (q : EventId) : Nat :=
  (args q).countP g.handleTriggered

/-- Members that have triggered and not yet been counted. -/
def firedMembers (g : Graph) (q : EventId) : Nat :=
  (g.body q).members.countP fun e => (g.body e).triggered

/-- The event has a reason to be triggered. -/
def Due (args : EventId → List Handle) (explicit : EventId → Prop) (g : Graph) (q : EventId) :
    Prop :=
  explicit q ∨ (g.body q).isQuorum = true ∧ (g.body q).quorum ≤ triggeredArgs args g q

/-- A waiting quorum has counted exactly its triggered positions, still has the
others as members, and is below its threshold. While they change, `x` is exempt
from the first two and `y` from the last. -/
structure Counted (args : EventId → List Handle) (explicit : EventId → Prop)
    (x y : Option EventId) (g : Graph) : Prop where
  atMost : ∀ q, (g.body q).triggeredMembers + firedMembers g q ≤ triggeredArgs args g q
  among : ∀ q e, (g.body q).members.count e ≤ (args q).count (some e)
  reached : ∀ q, (g.body q).triggered = true → Due args explicit g q
  exactly : ∀ q, x ≠ some q → (g.body q).isQuorum = true → 0 < (g.body q).refcount →
    (g.body q).triggered = false →
    triggeredArgs args g q = (g.body q).triggeredMembers + firedMembers g q ∧
    ∀ e, (g.body e).triggered = false → (g.body q).members.count e = (args q).count (some e)
  below : ∀ q, y ≠ some q → (g.body q).isQuorum = true → 0 < (g.body q).refcount →
    (g.body q).triggered = false → (g.body q).triggeredMembers < (g.body q).quorum

/-- Every waiting coroutine is listed once, at the event it waits on, except the
one that has been claimed. -/
def Listening (o : Outside) (coh : Option CoroutineId) (g : Graph) : Prop :=
  ∀ c n, (g.body n).listeners.count (.coroutine c) =
    if o.waiting c = some n ∧ coh ≠ some c then 1 else 0

variable {rank : EventId → Nat} {P : List (EventId × EventId)} {flight : List EventId}
  {o : Outside} {g g' : Graph} {n q m : EventId} {args : EventId → List Handle}
  {explicit : EventId → Prop} {x y : Option EventId}

theorem handleTriggered_congr (same : ∀ m, (g'.body m).triggered = (g.body m).triggered) :
    g'.handleTriggered = g.handleTriggered := by
  funext h
  cases h with
  | none => rfl
  | some m => exact same m

theorem triggeredArgs_congr (same : ∀ m, (g'.body m).triggered = (g.body m).triggered) (q : EventId) :
    triggeredArgs args g' q = triggeredArgs args g q := by
  rw [triggeredArgs, handleTriggered_congr same, triggeredArgs]

theorem firedMembers_congr (same : ∀ m, (g'.body m).triggered = (g.body m).triggered)
    (members : (g'.body q).members = (g.body q).members) : firedMembers g' q = firedMembers g q := by
  simp only [firedMembers, members, same]

theorem Shrinks.firedMembers_le (shrinks : Shrinks x g g') (q : EventId) :
    firedMembers g' q ≤ firedMembers g q := by
  simp only [firedMembers, shrinks.triggered]
  exact (shrinks.fewer q).countP_le _

theorem Counted.weaken (counted : Counted args explicit none none g) :
    Counted args explicit x y g :=
  { counted with
    exactly := fun q _ => counted.exactly q (fun h => nomatch h)
    below := fun q _ => counted.below q (fun h => nomatch h) }

theorem Counted.shrinks (counted : Counted args explicit x y g) (shrinks : Shrinks x g g') :
    Counted args explicit x y g' := by
  have same := shrinks.triggered
  refine ⟨fun q => ?_, fun q e => ?_, fun q fired => ?_, fun q ne quorum live waiting => ?_,
    fun q ne quorum live waiting => ?_⟩
  · rw [triggeredArgs_congr same, shrinks.triggeredMembers]
    exact (Nat.add_le_add_left (shrinks.firedMembers_le q) _).trans (counted.atMost q)
  · exact ((shrinks.fewer q).count_le _).trans (counted.among q e)
  · rw [Due, triggeredArgs_congr same, shrinks.quorum, shrinks.isQuorum]
    exact counted.reached q (same q ▸ fired)
  · have members := shrinks.members q ne live
    rw [triggeredArgs_congr same, firedMembers_congr same members, members, shrinks.triggeredMembers]
    simp only [same]
    exact counted.exactly q ne (shrinks.isQuorum q ▸ quorum) (live.trans_le (shrinks.refcount q))
      (same q ▸ waiting)
  · rw [shrinks.quorum, shrinks.triggeredMembers]
    exact counted.below q ne (shrinks.isQuorum q ▸ quorum) (live.trans_le (shrinks.refcount q))
      (same q ▸ waiting)

theorem Listening.shrinks (listening : Listening o coh g) (shrinks : Shrinks x g g') :
    Listening o coh g' := by
  intro c n
  rw [shrinks.coroutines]
  exact listening c n

/-- Neither reference counts nor listeners nor queues matter to the formula, as
long as no quorum that was not exempt comes to life. -/
theorem Counted.update (counted : Counted args explicit x y g)
    (body : ∀ m, ∃ refcount freed listeners,
      g'.body m = { g.body m with refcount, freed, listeners } ∧
      (x ≠ some m ∨ y ≠ some m → (g.body m).triggered = false → 0 < refcount →
        0 < (g.body m).refcount)) :
    Counted args explicit x y g' := by
  have field : ∀ {α : Type} (f : EventBody → α), (∀ b refcount freed listeners,
      f { b with refcount, freed, listeners } = f b) → ∀ m, f (g'.body m) = f (g.body m) := by
    intro α f same m
    obtain ⟨refcount, freed, listeners, eq, _⟩ := body m
    rw [eq, same]
  have same := field EventBody.triggered fun _ _ _ _ => rfl
  have members := field EventBody.members fun _ _ _ _ => rfl
  have counts := field EventBody.triggeredMembers fun _ _ _ _ => rfl
  have quorums := field EventBody.quorum fun _ _ _ _ => rfl
  have kinds := field EventBody.isQuorum fun _ _ _ _ => rfl
  refine ⟨fun q => ?_, fun q e => ?_, fun q fired => ?_, fun q ne quorum live waiting => ?_,
    fun q ne quorum live waiting => ?_⟩
  · rw [triggeredArgs_congr same, firedMembers_congr same (members q), counts]
    exact counted.atMost q
  · rw [members]
    exact counted.among q e
  · rw [Due, triggeredArgs_congr same, quorums, kinds]
    exact counted.reached q (same q ▸ fired)
  · rw [triggeredArgs_congr same, firedMembers_congr same (members q), members, counts]
    simp only [same]
    obtain ⟨refcount, freed, listeners, eq, alive⟩ := body q
    rw [eq] at live
    exact counted.exactly q ne (kinds q ▸ quorum) (alive (.inl ne) (same q ▸ waiting) live)
      (same q ▸ waiting)
  · rw [counts, quorums]
    obtain ⟨refcount, freed, listeners, eq, alive⟩ := body q
    rw [eq] at live
    exact counted.below q ne (kinds q ▸ quorum) (alive (.inr ne) (same q ▸ waiting) live)
      (same q ▸ waiting)

/-! An event triggers. -/

/-- Set the flag and replace the listeners. -/
def Graph.fire (g : Graph) (n : EventId) (kept : List Listener) : Graph :=
  g.modify n fun b => { b with triggered := true, listeners := kept }

theorem countP_or_eq {α : Type} [BEq α] [LawfulBEq α] {p p' : α → Bool} {a : α}
    (fresh : p a = false) (grown : ∀ b, p' b = true ↔ p b = true ∨ b = a) (l : List α) :
    l.countP p' = l.countP p + l.count a := by
  induction l with
  | nil => rfl
  | cons b l ih =>
      have here : (if p' b then 1 else 0) = (if p b then 1 else 0) + if b == a then 1 else 0 := by
        by_cases same : b = a
        · subst same
          simp [fresh, (grown b).mpr]
        · have unchanged : p' b = p b := by
            rw [Bool.eq_iff_iff, grown, or_iff_left same]
          simp [same, unchanged]
      simp only [List.countP_cons, List.count_cons, ih, here]
      omega

theorem fire_triggered (g : Graph) (n : EventId) (kept : List Listener) (m : EventId) :
    ((g.fire n kept).body m).triggered = true ↔ (g.body m).triggered = true ∨ m = n := by
  simp only [Graph.fire, Graph.modify_body]
  split <;> simp_all

theorem fire_triggeredArgs (fresh : (g.body n).triggered = false) (kept : List Listener)
    (q : EventId) : triggeredArgs args (g.fire n kept) q =
      triggeredArgs args g q + (args q).count (some n) := by
  apply countP_or_eq
  · exact fresh
  · intro h
    cases h with
    | none => simp [Graph.handleTriggered]
    | some m => simpa [Graph.handleTriggered] using fire_triggered g n kept m

theorem fire_members (g : Graph) (n : EventId) (kept : List Listener) (q : EventId) :
    ((g.fire n kept).body q).members = (g.body q).members := by
  simp only [Graph.fire, Graph.modify_body]
  split <;> rfl

theorem fire_firedMembers (fresh : (g.body n).triggered = false) (kept : List Listener)
    (q : EventId) : firedMembers (g.fire n kept) q =
      firedMembers g q + (g.body q).members.count n := by
  rw [firedMembers, fire_members]
  exact countP_or_eq (p := fun e => (g.body e).triggered) fresh (fire_triggered g n kept) _

/-- Triggering an event adds as much to the formula of a waiting quorum as to the
members it has yet to count. -/
theorem Counted.fire (counted : Counted args explicit (some n) (some n) g)
    (fresh : (g.body n).triggered = false) (kept : List Listener) (why : Due args explicit g n) :
    Counted args explicit none none (g.fire n kept) := by
  have body : ∀ m, (g.fire n kept).body m =
      if m = n then { g.body m with triggered := true, listeners := kept } else g.body m :=
    fun m => rfl
  have counts : ∀ m, ((g.fire n kept).body m).triggeredMembers = (g.body m).triggeredMembers := by
    intro m
    rw [body m]
    split <;> rfl
  have quorums : ∀ m, ((g.fire n kept).body m).quorum = (g.body m).quorum := by
    intro m
    rw [body m]
    split <;> rfl
  refine ⟨fun q => ?_, fun q e => ?_, fun q fired => ?_, fun q _ quorum live waiting => ?_,
    fun q _ quorum live waiting => ?_⟩
  · rw [counts, fire_triggeredArgs fresh, fire_firedMembers fresh]
    have := counted.atMost q
    have := counted.among q n
    omega
  · rw [fire_members]
    exact counted.among q e
  · have kinds : ((g.fire n kept).body q).isQuorum = (g.body q).isQuorum := by
      rw [body q]
      split <;> rfl
    have due : Due args explicit g q := by
      rcases (fire_triggered g n kept q).mp fired with before | rfl
      · exact counted.reached q before
      · exact why
    rw [Due, quorums, kinds, fire_triggeredArgs fresh]
    exact due.imp id fun enough => ⟨enough.1, Nat.le_add_right_of_le enough.2⟩
  · have ne : q ≠ n := by
      rintro rfl
      simp [body] at waiting
    rw [body q, if_neg ne] at quorum live waiting
    obtain ⟨same, rest⟩ := counted.exactly q (fun h => ne (Option.some.inj h).symm) quorum
      live waiting
    rw [counts, fire_triggeredArgs fresh, fire_firedMembers fresh, fire_members, rest n fresh]
    refine ⟨by omega, fun e still => rest e ?_⟩
    cases before : (g.body e).triggered with
    | false => rfl
    | true =>
        rw [(fire_triggered g n kept e).mpr (.inl before)] at still
        contradiction
  · have ne : q ≠ n := by
      rintro rfl
      simp [body] at waiting
    rw [body q, if_neg ne] at quorum live waiting
    rw [counts, quorums]
    exact counted.below q (fun h => ne (Option.some.inj h).symm) quorum live waiting

end Cotamer.Event

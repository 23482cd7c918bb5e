import Cotamer.Totals
import Cotamer.Transition

/-! `driver_guard` and `guard_count_`. While the driver is clearing, guards do
not touch the count, and `process_clearing` sets it to zero; a guard made before
is still there afterwards. -/
namespace Cotamer.Guards
open Totals Transition

/-- Where the loop is, as far as `clearing_` and `guard_count_` matter. Coroutines
run in every stage but `exam`. -/
inductive Stage where
  | outside                    -- the loop is not running
  | resumes                    -- the asap aliquot
  | unwinds                    -- the coroutines process_clearing resumes
  | exam                       -- the exit test
  | waits                      -- descriptor events and timers
  deriving DecidableEq, Repr

/-- A `driver_guard`. `drv` says that `drv_` is this driver; `born` is the number of
clears that were complete when the guard was made, and moves with `drv_`. -/
structure Guard where
  live : Bool := true
  drv : Bool := false
  born : Nat := 0
  deriving DecidableEq, Repr

structure State where
  stage : Stage := .outside
  clearing : Bool := false
  guardCount : Int := 0
  clears : Nat := 0            -- completed clears
  guards : List Guard := []
  deriving DecidableEq, Repr

inductive Op where
  -- user code
  | construct
  | moveConstruct (x : Nat)
  | moveAssign (g x : Nat)
  | destroy (g : Nat)
  | clear
  -- the loop
  | enter
  | endAliquot
  | endClearing
  | exam (idle : Bool)
  | endTimers (poll : Bool)
  deriving DecidableEq, Repr

namespace State

def userCode (s : State) : Bool := s.stage != .exam

def guard? (s : State) (g : Nat) : Option Guard := s.guards[g]?.filter Guard.live

/-- `if (drv_ && !drv_->clearing()) { --drv_->guard_count_; }` -/
def release (s : State) (guard : Guard) : State :=
  if guard.drv && !s.clearing then { s with guardCount := s.guardCount - 1 } else s

def put (s : State) (g : Nat) (guard : Guard) : State := { s with guards := s.guards.set g guard }

/-- `std::exchange(x.drv_, nullptr)` -/
def moved (guard : Guard) : Guard := { guard with drv := false }

def step (s : State) : Op → Option State
  | .construct =>
    if !s.userCode then none
    else if s.clearing then some { s with guards := s.guards ++ [{}] }
    else some { s with
      guardCount := s.guardCount + 1
      guards := s.guards ++ [{ drv := true, born := s.clears }] }
  | .moveConstruct x =>
    match s.guard? x with
    | some source =>
      if s.userCode then
        let s := s.put x (moved source)
        some { s with guards := s.guards ++ [source] }
      else none
    | none => none
  | .moveAssign g x =>
    match s.guard? g, s.guard? x with
    | some guard, some source =>
      if s.userCode then
        -- `drv_` is overwritten last, so a guard moved to itself keeps it
        some (((s.release guard).put x (moved source)).put g source)
      else none
    | _, _ => none
  | .destroy g =>
    match s.guard? g with
    | some guard => if s.userCode then some ((s.release guard).put g { guard with live := false }) else none
    | none => none
  | .clear => if s.userCode then some { s with clearing := true } else none
  | .enter => if s.stage = .outside then some { s with stage := .resumes } else none
  | .endAliquot =>
    if s.stage = .resumes then
      some (if s.clearing then { s with stage := .unwinds, guardCount := 0 } else { s with stage := .exam })
    else none
  | .endClearing => if s.stage = .unwinds then some { s with stage := .exam } else none
  | .exam idle =>
    if s.stage = .exam then
      some (if idle && s.guardCount == 0 then { s with
          stage := .outside, clearing := false, clears := if s.clearing then s.clears + 1 else s.clears }
        else { s with stage := .waits })
    else none
  | .endTimers poll =>
    if s.stage = .waits then some { s with stage := if poll then .outside else .resumes } else none

end State

/-- A live guard that holds the driver, made after the last completed clear. -/
def Guard.current (clears : Nat) (g : Guard) : Nat := (g.live && g.drv && g.born == clears).toNat

/-- The guards the count is about. -/
def State.held (s : State) : Nat := total (Guard.current s.clears) s.guards

/-- The count is that of the live guards, except while the driver is clearing. -/
structure State.Accounted (s : State) : Prop where
  nonneg : 0 ≤ s.guardCount
  counts : s.clearing = false → s.guardCount = s.held

instance (s : State) : Decidable s.Accounted :=
  decidable_of_iff (0 ≤ s.guardCount ∧ (s.clearing = false → s.guardCount = s.held))
    ⟨fun both => ⟨both.1, both.2⟩, fun both => ⟨both.nonneg, both.counts⟩⟩

/-- Unless the driver is clearing, no guard from before the last completed clear
gives the driver up, and no guard that holds the driver is moved to itself. -/
def State.Careful (s : State) : Op → Prop
  | .moveAssign g x => ∀ guard ∈ s.guard? g, s.clearing = false → guard.drv = true →
      g ≠ x ∧ guard.born = s.clears
  | .destroy g => ∀ guard ∈ s.guard? g, s.clearing = false → guard.drv = true → guard.born = s.clears
  | _ => True

namespace State

variable {s t : State} {op : Op} {ops : List Op} {g x : Nat} {guard source : Guard}

theorem guard?_some (found : s.guard? g = some guard) :
    s.guards[g]? = some guard ∧ guard.live = true := by
  simpa [guard?, Option.filter_eq_some_iff] using found

/-- What holds in every run. -/
structure Sound (s : State) : Prop where
  older : ∀ g ∈ s.guards, g.born ≤ s.clears
  unwinds : s.stage = .unwinds → s.clearing = true ∧ s.guardCount = 0
  exam : s.stage = .exam → s.clearing = true → s.guardCount = 0

theorem moved_current (clears : Nat) (guard : Guard) : (moved guard).current clears = 0 := by
  simp [moved, Guard.current]

theorem current_live (live : guard.live = true) :
    guard.current s.clears = (guard.drv && guard.born == s.clears).toNat := by
  rw [Guard.current, live, Bool.true_and]

theorem release_eq (s : State) (guard : Guard) :
    s.release guard = { s with guardCount := s.guardCount - (guard.drv && !s.clearing).toNat } := by
  cases released : guard.drv && !s.clearing with
  | false => simp [release, released]
  | true => simp [release, released]

theorem set_self {guards : List Guard} (found : guards[g]? = some guard) :
    guards.set g guard = guards := by
  obtain ⟨bound, rfl⟩ := List.getElem?_eq_some_iff.mp found
  exact List.set_getElem_self bound

theorem accounted_iff : s.Accounted ↔ (0 : Int) ≤ s.guardCount ∧ (s.clearing = false → s.guardCount = s.held) :=
  ⟨fun accounted => ⟨accounted.nonneg, accounted.counts⟩, fun both => ⟨both.1, both.2⟩⟩

/-- What the count becomes when a guard is given up and `less` are left. -/
theorem release_accounted {others : List Guard} {less : Nat} (accounted : s.Accounted)
    (left : total (Guard.current s.clears) others = less) :
    ({ s.release guard with guards := others } : State).Accounted ↔
      (s.clearing = false → less + guard.drv.toNat = s.held) := by
  have nonneg := accounted.nonneg
  have counts := accounted.counts
  rw [accounted_iff, release_eq]
  simp only [held, left]
  cases clearing : s.clearing with
  | true => simp [nonneg]
  | false =>
      specialize counts clearing
      simp only [Bool.not_false, Bool.and_true, forall_const, counts, held]
      omega

/-- A guard overwritten or destroyed. -/
theorem dropped_accounted {others : List Guard} (live : guard.live = true)
    (less : total (Guard.current s.clears) others + guard.current s.clears = s.held)
    (accounted : s.Accounted) :
    ({ s.release guard with guards := others } : State).Accounted ↔
      (s.clearing = false → guard.drv = true → guard.born = s.clears) := by
  rw [release_accounted accounted rfl]
  rw [current_live live] at less
  refine imp_congr_right fun _ => ?_
  cases drv : guard.drv with
  | false => simpa [drv] using less
  | true =>
      by_cases current : guard.born = s.clears
      · simpa [drv, current] using less
      · have other : (guard.born == s.clears) = false := beq_false_of_ne current
        have same : total (Guard.current s.clears) others = s.held := by simpa [drv, other] using less
        simp [current, same]

/-- A guard moved to itself stays, but has given up the driver. -/
theorem self_accounted (accounted : s.Accounted) :
    ({ s.release guard with guards := s.guards } : State).Accounted ↔
      (s.clearing = false → guard.drv = true → g ≠ g ∧ guard.born = s.clears) := by
  have whole : total (Guard.current s.clears) s.guards = s.held := rfl
  rw [release_accounted accounted whole]
  refine imp_congr_right fun _ => ?_
  cases drv : guard.drv with
  | false => simp
  | true => simp

theorem destroy_accounted (accounted : s.Accounted) (found : s.guard? g = some guard) :
    ((s.release guard).put g { guard with live := false }).Accounted ↔ s.Careful (.destroy g) := by
  obtain ⟨here, live⟩ := guard?_some found
  have less : total (Guard.current s.clears) (s.guards.set g { guard with live := false }) +
      guard.current s.clears = s.held := by
    have dead : ({ guard with live := false } : Guard).current s.clears = 0 := rfl
    have set := @total_set _ _ _ _ (Guard.current s.clears) here { guard with live := false }
    rw [dead] at set
    exact set
  have dropped := dropped_accounted live less accounted
  simp only [put, release_eq, Careful, found, Option.mem_some_iff, forall_eq'] at dropped ⊢
  exact dropped

/-- The target of a move gives up what it had, and the count of the source stays. -/
theorem moveAssign_accounted (accounted : s.Accounted) (found : s.guard? g = some guard)
    (other : s.guard? x = some source) :
    (((s.release guard).put x (moved source)).put g source).Accounted ↔
      s.Careful (.moveAssign g x) := by
  obtain ⟨here, live⟩ := guard?_some found
  obtain ⟨there, _⟩ := guard?_some other
  have first := @total_set _ _ _ _ (Guard.current s.clears) there (moved source)
  rw [moved_current] at first
  simp only [Careful, found, Option.mem_some_iff, forall_eq']
  by_cases self : g = x
  · subst self
    cases Option.some.inj (here.symm.trans there)
    have back : (s.guards.set g (moved guard)).set g guard = s.guards := by
      rw [List.set_set]
      exact set_self here
    have itself := @self_accounted s g guard accounted
    simp only [put, release_eq, back] at itself ⊢
    exact itself
  · have next : (s.guards.set x (moved source))[g]? = some guard := by
      rw [List.getElem?_set_ne (Ne.symm self)]
      exact here
    have less : total (Guard.current s.clears) ((s.guards.set x (moved source)).set g source) +
        guard.current s.clears = s.held := by
      have second := @total_set _ _ _ _ (Guard.current s.clears) next source
      rw [held]
      omega
    have dropped := dropped_accounted live less accounted
    simp only [put, release_eq, self, not_false_eq_true, true_and, ne_eq] at dropped ⊢
    exact dropped

/-- New guards and a moved one: the others are as they were. -/
theorem appended_held (others : List Guard) (guard : Guard) :
    total (Guard.current s.clears) (others ++ [guard]) =
      total (Guard.current s.clears) others + guard.current s.clears := by
  rw [total_append]
  rfl

theorem step_exact (sound : s.Sound) (accounted : s.Accounted) (moved : s.step op = some t) :
    t.Accounted ↔ s.Careful op := by
  have counts := accounted.counts
  have nonneg := accounted.nonneg
  cases op with
  | construct =>
      refine iff_of_true ?_ trivial
      simp only [step] at moved
      split at moved
      · contradiction
      · split at moved <;> cases Option.some.inj moved
        · rename_i clearing
          exact ⟨nonneg, fun still => absurd (clearing.symm.trans still) (by decide)⟩
        · rename_i still
          have one : (⟨true, true, s.clears⟩ : Guard).current s.clears = 1 := by simp [Guard.current]
          have whole := counts ((Bool.not_eq_true _).mp still)
          rw [accounted_iff]
          simp only [held, appended_held, one] at whole ⊢
          omega
  | moveConstruct x =>
      refine iff_of_true ?_ trivial
      simp only [step] at moved
      split at moved
      · rename_i source found
        split at moved
        · cases Option.some.inj moved
          obtain ⟨there, _⟩ := guard?_some found
          refine ⟨nonneg, fun still => ?_⟩
          have set := @total_set _ _ _ _ (Guard.current s.clears) there (State.moved source)
          rw [moved_current] at set
          have whole := counts still
          simp only [held, put, appended_held] at whole ⊢
          omega
        · contradiction
      · contradiction
  | moveAssign g x =>
      simp only [step] at moved
      split at moved
      · rename_i guard source found other
        split at moved
        · cases Option.some.inj moved
          exact moveAssign_accounted accounted found other
        · contradiction
      · contradiction
  | destroy g =>
      simp only [step] at moved
      split at moved
      · rename_i guard found
        split at moved
        · cases Option.some.inj moved
          exact destroy_accounted accounted found
        · contradiction
      · contradiction
  | clear =>
      refine iff_of_true ?_ trivial
      simp only [step] at moved
      split at moved
      · cases Option.some.inj moved
        exact ⟨nonneg, fun still => Bool.noConfusion still⟩
      · contradiction
  | enter | endClearing | endTimers =>
      refine iff_of_true ?_ trivial
      simp only [step] at moved
      split at moved
      · cases Option.some.inj moved
        exact ⟨nonneg, counts⟩
      · contradiction
  | endAliquot =>
      refine iff_of_true ?_ trivial
      simp only [step] at moved
      split at moved
      · cases Option.some.inj moved
        split
        · rename_i clearing
          exact ⟨Int.le_refl 0, fun still => absurd (clearing.symm.trans still) (by decide)⟩
        · exact ⟨nonneg, counts⟩
      · contradiction
  | exam idle =>
      refine iff_of_true ?_ trivial
      simp only [step] at moved
      split at moved
      · cases Option.some.inj moved
        split
        · rename_i passes
          have zero : s.guardCount = 0 := by
            have both := Bool.and_eq_true_iff.mp passes
            simpa using both.2
          refine ⟨nonneg, fun _ => ?_⟩
          cases clearing : s.clearing with
          | false => exact counts clearing
          | true =>
              -- every guard is from before the clear that is now complete
              have none : total (Guard.current (s.clears + 1)) s.guards = 0 := by
                rw [total_eq_zero]
                intro guard member
                have before := sound.older guard member
                have other : (guard.born == s.clears + 1) = false := by
                  rw [beq_eq_false_iff_ne]
                  omega
                simp [Guard.current, other]
              simp only [held, if_true, none, zero]
              rfl
        · exact ⟨nonneg, counts⟩
      · contradiction

theorem Sound.put (sound : s.Sound) (guard : Guard) (older : guard.born ≤ s.clears) :
    (s.put g guard).Sound where
  older := by
    intro other member
    rcases List.mem_or_eq_of_mem_set member with before | rfl
    · exact sound.older other before
    · exact older
  unwinds := sound.unwinds
  exam := sound.exam

theorem Sound.append (sound : s.Sound) (guard : Guard) (older : guard.born ≤ s.clears) :
    ({ s with guards := s.guards ++ [guard] } : State).Sound where
  older := by
    intro other member
    rcases List.mem_append.mp member with before | new
    · exact sound.older other before
    · rw [List.mem_singleton.mp new]
      exact older
  unwinds := sound.unwinds
  exam := sound.exam

/-- Outside the exit test, and as long as the driver is not clearing, the count may change. -/
theorem Sound.recount (sound : s.Sound) (n : Int) (user : s.userCode = true)
    (still : s.clearing = true → n = s.guardCount) : ({ s with guardCount := n } : State).Sound where
  older := sound.older
  unwinds unwinding := by
    obtain ⟨clearing, zero⟩ := sound.unwinds unwinding
    exact ⟨clearing, (still clearing).trans zero⟩
  exam examining := by
    rw [userCode, bne_iff_ne] at user
    exact absurd examining user

theorem Sound.release (sound : s.Sound) (user : s.userCode = true) (guard : Guard) :
    (s.release guard).Sound := by
  rw [release_eq]
  apply sound.recount _ user
  intro clearing
  simp [clearing]

theorem step_sound (sound : s.Sound) (moved : step s op = some t) : t.Sound := by
  cases op with
  | construct =>
      simp only [step] at moved
      split at moved
      · contradiction
      · rename_i user
        split at moved <;> cases Option.some.inj moved
        · exact sound.append {} (Nat.zero_le _)
        · rename_i still
          have user : s.userCode = true := by simpa using user
          have recounted := sound.recount (s.guardCount + 1) user fun clearing => absurd clearing still
          exact recounted.append ⟨true, true, s.clears⟩ (Nat.le_refl _)
  | moveConstruct x =>
      simp only [step] at moved
      split at moved
      · rename_i source found
        split at moved
        · cases Option.some.inj moved
          have older := sound.older source (List.mem_of_getElem? (guard?_some found).1)
          exact (sound.put (State.moved source) older).append source older
        · contradiction
      · contradiction
  | moveAssign g x =>
      simp only [step] at moved
      split at moved
      · rename_i guard source found other
        split at moved
        · rename_i user
          cases Option.some.inj moved
          have older := sound.older source (List.mem_of_getElem? (guard?_some other).1)
          have released := sound.release user guard
          rw [release_eq] at released ⊢
          exact (released.put (State.moved source) older).put source older
        · contradiction
      · contradiction
  | destroy g =>
      simp only [step] at moved
      split at moved
      · rename_i guard found
        split at moved
        · rename_i user
          cases Option.some.inj moved
          have older := sound.older guard (List.mem_of_getElem? (guard?_some found).1)
          have released := sound.release user guard
          rw [release_eq] at released ⊢
          exact released.put { guard with live := false } older
        · contradiction
      · contradiction
  | clear =>
      simp only [step] at moved
      split at moved
      · rename_i user
        cases Option.some.inj moved
        rw [userCode, bne_iff_ne] at user
        exact ⟨sound.older, fun unwinding => ⟨rfl, (sound.unwinds unwinding).2⟩,
          fun examining => absurd examining user⟩
      · contradiction
  | enter =>
      simp only [step] at moved
      split at moved
      · cases Option.some.inj moved
        exact ⟨sound.older, nofun, nofun⟩
      · contradiction
  | endAliquot =>
      simp only [step] at moved
      split at moved
      · cases Option.some.inj moved
        split
        · rename_i clearing
          exact ⟨sound.older, fun _ => ⟨clearing, rfl⟩, nofun⟩
        · rename_i still
          exact ⟨sound.older, nofun, fun _ clearing => absurd clearing still⟩
      · contradiction
  | endClearing =>
      simp only [step] at moved
      split at moved
      · rename_i unwinding
        cases Option.some.inj moved
        exact ⟨sound.older, nofun, fun _ _ => (sound.unwinds unwinding).2⟩
      · contradiction
  | exam idle =>
      simp only [step] at moved
      split at moved
      · cases Option.some.inj moved
        split
        · refine ⟨fun guard member => ?_, nofun, nofun⟩
          have older := sound.older guard member
          show guard.born ≤ if s.clearing = true then s.clears + 1 else s.clears
          split <;> omega
        · exact ⟨sound.older, nofun, nofun⟩
      · contradiction
  | endTimers poll =>
      simp only [step] at moved
      split at moved
      · cases Option.some.inj moved
        refine ⟨sound.older, ?_, ?_⟩ <;> cases poll <;> exact nofun
      · contradiction

theorem initial_sound : ({} : State).Sound := ⟨nofun, nofun, nofun⟩

theorem initial_accounted : ({} : State).Accounted := ⟨Int.le_refl 0, fun _ => rfl⟩

/-- When no live guard holds the driver any more, the exit test passes if all else is done. -/
theorem exam_passes (sound : s.Sound) (accounted : s.Accounted) (examining : s.stage = .exam)
    (gone : ∀ g ∈ s.guards, g.live = true → g.drv = false) :
    ∃ t, step s (.exam true) = some t ∧ t.stage = .outside := by
  have none : s.held = 0 := by
    rw [held, total_eq_zero]
    intro guard member
    cases live : guard.live with
    | false => simp [Guard.current, live]
    | true => simp [Guard.current, gone guard member live]
  have zero : s.guardCount = 0 := by
    cases clearing : s.clearing with
    | true => exact sound.exam examining clearing
    | false =>
        rw [accounted.counts clearing, none]
        rfl
  refine ⟨{ s with
    stage := .outside, clearing := false, clears := if s.clearing then s.clears + 1 else s.clears }, ?_, rfl⟩
  simp [step, examining, zero]

/-- In every run the count is that of the live guards made after the last completed clear
exactly when no older guard gives up the driver outside a clear and no guard is moved to
itself. Then the loop can exit once all guards are gone. -/
theorem guards_accounted (path : Reaches step {} ops s) :
    (Always step Accounted {} ops ↔ Meets step Careful {} ops) ∧
    (Meets step Careful {} ops → s.stage = .exam →
      (∀ g ∈ s.guards, g.live = true → g.drv = false) →
      ∃ t, step s (.exam true) = some t ∧ t.stage = .outside) := by
  have exactly : Always step Accounted {} ops ↔ Meets step Careful {} ops :=
    always_iff_meets (fun sound _ _ moved => step_sound sound moved)
      (fun sound accounted moved => step_exact sound accounted moved) path initial_sound initial_accounted
  refine ⟨exactly, fun careful examining gone => ?_⟩
  have sound : s.Sound := path.invariant step_sound initial_sound
  have all := exactly.mpr careful
  rw [← List.append_nil ops] at all
  exact exam_passes sound (all.reached path) examining gone

/-- A guard made before a clear is destroyed while the driver is clearing; one made after
it is given up normally. -/
theorem guards_accounted_unwound :
    let ops : List Op := [.construct, .clear, .enter, .endAliquot, .destroy 0, .endClearing,
      .exam true, .construct, .destroy 1, .enter, .endAliquot]
    ∃ s, Reaches step {} ops s ∧ s.guardCount = 0 ∧
      (Always step Accounted {} ops ↔ Meets step Careful {} ops) ∧
      ∃ t, step s (.exam true) = some t ∧ t.stage = .outside := by
  intro ops
  have path : Reaches step {} ops _ := run_iff_reaches.mp rfl
  obtain ⟨exactly, exits⟩ := guards_accounted path
  exact ⟨_, path, rfl, exactly, exits (exactly.mp (by decide)) rfl (by decide)⟩

/-- A guard that outlives a clear takes the count below zero. -/
theorem outlived_clear :
    ∃ s, Reaches step {} [.construct, .clear, .enter, .endAliquot, .endClearing, .exam true, .destroy 0] s ∧
      s.clearing = false ∧ s.guardCount = -1 :=
  ⟨_, run_iff_reaches.mp rfl, rfl, rfl⟩

/-- A guard moved to itself is no longer counted, and its destructor counts once more. -/
example : (run step {} [.construct, .moveAssign 0 0, .destroy 0]).map guardCount = some (-1) := rfl

end State
end Cotamer.Guards

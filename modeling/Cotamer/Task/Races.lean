import Cotamer.Task.Calm

/-! A combinator that sleeps is woken when one of its tasks completes or comes to a
resolution point. -/
namespace Cotamer.Task
open Event Transition

/-- It is a combinator that awaits the task. -/
def Awaiter.isRace : Awaiter → Bool
  | .event _ => true
  | .nobody | .task _ => false

namespace Coroutines

open Promises

variable {w w' w'' : Coroutines} {t r u : TaskId} {ts args : List TaskId} {l : Label} {ls : List Label}
  {f : Promise → Promise}

/-- A combinator sleeps after a poll that found nothing, and its tasks are awaited by
nobody else. No other task is moved to an argument of its while it sleeps. -/
def Sole (w : Coroutines) : Label → Prop
  | .race _ args => ∀ t ∈ args, t ∉ w.done ∧
      (w.promises t).any (fun p => !p.resolving && !p.awaiter.isRace) = true
  | .prepare t _ => (w.promises t).all (fun p => !p.awaiter.isRace) = true
  | .move t into => ∀ r ∈ into, (w.races r).all (fun race => decide (t ∈ race.tasks)) = true
  | _ => True

instance (w : Coroutines) : ∀ l, Decidable (w.Sole l)
  | .race _ args => inferInstanceAs (Decidable (∀ t ∈ args, t ∉ w.done ∧
      (w.promises t).any (fun p => !p.resolving && !p.awaiter.isRace) = true))
  | .prepare t _ => inferInstanceAs (Decidable ((w.promises t).all (fun p => !p.awaiter.isRace) = true))
  | .move t into => inferInstanceAs (Decidable
      (∀ r ∈ into, (w.races r).all (fun race => decide (t ∈ race.tasks)) = true))
  | .create _ | .destroy _ | .detach .. | .forward _ | .start _ | .interest _ | .resolution _ | .pass _
  | .drive .. | .resume _ | .point .. | .finish .. | .after _ | .trigger _ => isTrue trivial

/-- No combinator sleeps through the completion or a resolution point of its task. -/
def Awake (w : Coroutines) : Prop :=
  ∀ r race t p, w.races r = some race → t ∈ race.tasks → w.promises t = some p →
    p.resolving = true ∨ t ∈ w.done → race.quorum ∈ w.triggered

structure Waking (w : Coroutines) : Prop where
  old : ∀ u p, w.promises u = some p → u < w.next
  made : ∀ r race t, w.races r = some race → t ∈ race.tasks → t < w.next
  held : ∀ r race t, w.races r = some race → t ∈ race.args → t ∈ race.tasks
  named : ∀ r race t p, w.races r = some race → t ∈ race.tasks → w.promises t = some p →
    p.awaiter = .event race.quorum
  single : ∀ r r' race race', w.races r = some race → w.races r' = some race' → race.quorum = race'.quorum → r = r'
  small : ∀ r race, w.races r = some race → race.quorum < w.nextEvent
  awake : w.Awake

/-- The quorum that awaits a promise has triggered. -/
def Woken (w : Coroutines) (p : Promise) : Prop := ∀ e, p.awaiter = .event e → e ∈ w.triggered

/-- Awaiters stay as they are, and that of a task that completes or comes to a resolution
point is triggered. -/
structure Steady (w w' : Coroutines) : Prop where
  before : ∀ u q, w'.promises u = some q → ∃ p, w.promises u = some p ∧ q.awaiter = p.awaiter ∧
    (q.resolving = true → p.resolving = true ∨ w'.Woken p)
  done : ∀ u p, w.promises u = some p → u ∈ w'.done → u ∈ w.done ∨ w'.Woken p
  races : w'.races = w.races
  next : w'.next = w.next
  nextEvent : w.nextEvent ≤ w'.nextEvent
  triggered : ∀ e ∈ w.triggered, e ∈ w'.triggered

theorem Steady.refl (w : Coroutines) : Steady w w :=
  ⟨fun _ q there => ⟨q, there, rfl, .inl⟩, fun _ _ _ => .inl, rfl, rfl, Nat.le_refl _, fun _ => id⟩

theorem Waking.steady (waking : w.Waking) (steady : Steady w w') : w'.Waking := by
  refine ⟨fun u q after => ?_, ?_, ?_, fun r race t q racing member after => ?_, ?_, fun r race racing => ?_,
    fun r race t q racing member after now => ?_⟩
  · obtain ⟨p, there, _⟩ := steady.before u q after
    exact steady.next ▸ waking.old u p there
  · rw [steady.races, steady.next]
    exact waking.made
  · rw [steady.races]
    exact waking.held
  · obtain ⟨p, there, awaiter, _⟩ := steady.before t q after
    exact awaiter.trans (waking.named r race t p (steady.races ▸ racing) member there)
  · rw [steady.races]
    exact waking.single
  · exact Nat.lt_of_lt_of_le (waking.small r race (steady.races ▸ racing)) steady.nextEvent
  · obtain ⟨p, there, awaiter, resolving⟩ := steady.before t q after
    have racing := steady.races ▸ racing
    have names := waking.named r race t p racing member there
    have was : p.resolving = true ∨ t ∈ w.done → race.quorum ∈ w'.triggered := fun was =>
      steady.triggered _ (waking.awake r race t p racing member there was)
    rcases now with now | finished
    · exact (resolving now).elim (was ∘ .inl) fun woken => woken _ names
    · exact (steady.done t p there finished).elim (was ∘ .inr) fun woken => woken _ names

theorem modify_steady (w : Coroutines) (t : TaskId) (awaiter : ∀ p, (f p).awaiter = p.awaiter)
    (resolving : ∀ p, (f p).resolving = true → p.resolving = true) : Steady w (w.modify t f) := by
  refine ⟨fun u q after => ?_, fun _ _ _ => .inl, rfl, rfl, Nat.le_refl _, fun _ => id⟩
  obtain ⟨p, there, ⟨_, rfl⟩ | ⟨_, rfl⟩⟩ := modify_some after
  · exact ⟨q, there, rfl, .inl⟩
  · exact ⟨p, there, awaiter p, fun now => .inl (resolving p now)⟩

theorem trigger_steady (w : Coroutines) (h : Handle) : Steady w (w.trigger h) :=
  ⟨fun _ q there => ⟨q, there, rfl, .inl⟩, fun _ _ _ => .inl, rfl, rfl, Nat.le_refl _,
    fun _ => List.mem_append_right _⟩

/-- A task comes to a resolution point, and its awaiter is woken by the end. -/
theorem Steady.resolving {p : Promise} (there : w.promises t = some p)
    (steady : Steady ((w.modify t ({ · with resolving := true })).trigger p.resolution) w') (woken : w'.Woken p) :
    Steady w w' := by
  refine ⟨fun u q after => ?_, fun u m before finished => ?_, steady.races, steady.next, steady.nextEvent,
    fun e member => steady.triggered e (List.mem_append_right _ member)⟩
  · obtain ⟨m, middle, awaiter, resolving⟩ := steady.before u q after
    obtain ⟨m', before, ⟨_, rfl⟩ | ⟨rfl, rfl⟩⟩ := modify_some middle
    · exact ⟨m, before, awaiter, resolving⟩
    · cases Option.some.inj (there.symm.trans before)
      exact ⟨p, before, awaiter, fun _ => .inr woken⟩
  · by_cases same : u = t
    · subst same
      cases Option.some.inj (there.symm.trans before)
      exact .inr woken
    · exact steady.done u m ((modify_ne same).trans before) finished

/-- A resolution point wakes the combinators of the task and of those that forward it. -/
theorem resolutionPoint_steady {fuel : Nat} (made : resolutionPoint fuel w t = some w') :
    Steady w w' ∧ ∀ p, w.promises t = some p → w'.Woken p := by
  induction fuel generalizing w t with
  | zero => contradiction
  | succ fuel ih =>
      obtain ⟨p, there, made⟩ := Option.bind_eq_some_iff.mp made
      have own : w'.Woken p → (∀ p, w.promises t = some p → w'.Woken p) := by
        intro woken p' there'
        cases Option.some.inj (there.symm.trans there')
        exact woken
      split at made
      next awaiter =>
        have woken : w'.Woken p := fun e names => by cases awaiter.symm.trans names
        cases Option.some.inj made
        exact ⟨.resolving there (.refl _) woken, own woken⟩
      next a awaiter =>
        have woken : w'.Woken p := fun e names => by cases awaiter.symm.trans names
        obtain ⟨aw, _, made⟩ := Option.bind_eq_some_iff.mp made
        split at made
        next => exact ⟨.resolving there (ih made).1 woken, own woken⟩
        next =>
          cases Option.some.inj made
          exact ⟨.resolving there (.refl _) woken, own woken⟩
      next e awaiter =>
        obtain ⟨_, made⟩ := Option.ite_none_left_eq_some.mp made
        have woken : w'.Woken p := by
          rw [← Option.some.inj made]
          intro e' names
          cases awaiter.symm.trans names
          exact List.mem_append_left _ (List.mem_singleton_self e)
        cases Option.some.inj made
        exact ⟨.resolving there (trigger_steady _ _) woken, own woken⟩

/-- A task completes. -/
theorem finish_steady {fuel : Nat} (live : (w.promises t).isSome = true)
    (made : resolutionPoint fuel { w with done := t :: w.done } t = some w') : Steady w w' := by
  obtain ⟨steady, woken⟩ := resolutionPoint_steady made
  obtain ⟨p, there⟩ := Option.isSome_iff_exists.mp live
  refine ⟨steady.before, fun u m before finished => ?_, steady.races, steady.next, steady.nextEvent, steady.triggered⟩
  rcases steady.done u m before finished with now | already
  · rcases List.mem_cons.mp now with rfl | was
    · cases Option.some.inj (there.symm.trans before)
      exact .inr (woken p there)
    · exact .inl was
  · exact .inr already

theorem clearAwaiter_steady {p : Promise} {promises : Promises} (cleared : w.promises.clearAwaiter p.awaiter = some promises) :
    Steady w { w with promises } := by
  refine ⟨fun u q after => ?_, fun _ _ _ => .inl, rfl, rfl, Nat.le_refl _, fun _ => id⟩
  unfold Promises.clearAwaiter at cleared
  split at cleared
  next a _ =>
    obtain ⟨aw, there, rfl⟩ := Option.map_eq_some_iff.mp cleared
    dsimp only at after
    split at after
    next =>
      by_cases same : u = a
      · subst same
        rw [set_self] at after
        cases Option.some.inj after
        exact ⟨aw, there, rfl, by rintro ⟨⟩⟩
      · rw [set_ne _ _ same] at after
        exact ⟨q, after, rfl, .inl⟩
    next => exact ⟨q, after, rfl, .inl⟩
  all_goals
    cases Option.some.inj cleared
    exact ⟨q, after, rfl, .inl⟩

/-! Combinators start and end. -/

theorem Waking.endRace (waking : w.Waking) (r : TaskId) : (w.endRace r).Waking := by
  unfold Coroutines.endRace
  split
  next => exact waking
  next ended ending =>
    have other : ∀ {r' race'}, (if r' = r then none else w.races r') = some race' → r' ≠ r ∧ w.races r' = some race' :=
      Option.ite_none_left_eq_some.mp
    -- the tasks of another combinator are not among those of this one
    have apart : ∀ {r' race' t p}, r' ≠ r → w.races r' = some race' → t ∈ race'.tasks → w.promises t = some p →
        t ∉ ended.args := by
      intro r' race' t p differs racing member there both
      have names := waking.named r' race' t p racing member there
      have names' := waking.named r ended t p ending (waking.held r ended t ending both) there
      exact differs (waking.single r' r race' ended racing ending (Awaiter.event.inj (names.symm.trans names')))
    refine ⟨fun u q after => ?_, fun r' race' t racing => ?_, fun r' race' t racing => ?_,
      fun r' race' t q racing member after => ?_, fun r₁ r₂ race₁ race₂ first second => ?_, fun r' race' racing => ?_,
      fun r' race' t q racing member after now => ?_⟩
    · obtain ⟨p, there, _⟩ := setAwaiters_some after
      exact waking.old u p there
    · exact waking.made r' race' t (other racing).2
    · exact waking.held r' race' t (other racing).2
    · obtain ⟨differs, racing⟩ := other racing
      obtain ⟨p, there, ⟨_, rfl⟩ | ⟨both, _⟩⟩ := setAwaiters_some after
      · exact waking.named r' race' t q racing member there
      · exact absurd both (apart differs racing member there)
    · exact waking.single r₁ r₂ race₁ race₂ (other first).2 (other second).2
    · exact waking.small r' race' (other racing).2
    · obtain ⟨differs, racing⟩ := other racing
      obtain ⟨p, there, ⟨_, rfl⟩ | ⟨both, _⟩⟩ := setAwaiters_some after
      · exact waking.awake r' race' t q racing member there now
      · exact absurd both (apart differs racing member there)

theorem Waking.destroy (waking : w.Waking) (ts : List TaskId) : (w.destroy ts).Waking := by
  have ended : (w.endRaces ts).Waking := by
    unfold endRaces
    induction ts generalizing w with
    | nil => exact waking
    | cons r ts ih => exact ih (waking.endRace r)
  refine ended.steady ⟨fun u q after => ?_, fun _ _ _ => .inl, rfl, rfl, Nat.le_refl _, fun _ => id⟩
  exact ⟨q, (destroy_some after).2, rfl, .inl⟩

theorem Waking.race (waking : w.Waking) (idle : w.races r = none) (sole : w.Sole (.race r args)) :
    (w.race r args).Waking := by
  have fresh : ∀ t ∈ args, t ∉ w.done ∧ ∃ p, w.promises t = some p ∧ p.resolving = false ∧ p.awaiter.isRace = false := by
    intro t member
    obtain ⟨going, free⟩ := sole t member
    obtain ⟨p, there, free⟩ := (Option.any_eq_true _ _).mp free
    obtain ⟨still, alone⟩ := Bool.and_eq_true_iff.mp free
    exact ⟨going, p, there, Bool.not_eq_true' .. |>.mp still, Bool.not_eq_true' .. |>.mp alone⟩
  have mine : ∀ {r' race'}, (if r' = r then some ⟨w.nextEvent, args, args⟩ else w.races r') = some race' →
      r' = r ∧ race' = ⟨w.nextEvent, args, args⟩ ∨ r' ≠ r ∧ w.races r' = some race' := by
    intro r' race' racing
    split at racing
    next same => exact .inl ⟨same, (Option.some.inj racing).symm⟩
    next differs => exact .inr ⟨differs, racing⟩
  have older : ∀ {r' race'}, w.races r' = some race' → race'.quorum ≠ w.nextEvent := fun racing =>
    Nat.ne_of_lt (waking.small _ _ racing)
  -- a task that another combinator awaits is not among these
  have apart : ∀ {r' race' t p}, w.races r' = some race' → t ∈ race'.tasks → w.promises t = some p → t ∉ args := by
    intro r' race' t p racing member there both
    obtain ⟨_, p', there', _, alone⟩ := fresh t both
    cases Option.some.inj (there.symm.trans there')
    rw [waking.named r' race' t p racing member there] at alone
    contradiction
  refine ⟨fun u q after => ?_, fun r' race' t racing member => ?_, fun r' race' t racing member => ?_,
    fun r' race' t q racing member after => ?_, fun r₁ r₂ race₁ race₂ first second same => ?_, fun r' race' racing => ?_,
    fun r' race' t q racing member after now => ?_⟩
  · obtain ⟨p, there, _⟩ := setAwaiters_some after
    exact waking.old u p there
  · rcases mine racing with ⟨_, rfl⟩ | ⟨_, racing⟩
    · obtain ⟨_, p, there, _⟩ := fresh t member
      exact waking.old t p there
    · exact waking.made r' race' t racing member
  · rcases mine racing with ⟨_, rfl⟩ | ⟨_, racing⟩
    · exact member
    · exact waking.held r' race' t racing member
  · obtain ⟨p, there, ⟨outside, rfl⟩ | ⟨both, rfl⟩⟩ := setAwaiters_some after
    · rcases mine racing with ⟨_, rfl⟩ | ⟨_, racing⟩
      · exact absurd member outside
      · exact waking.named r' race' t q racing member there
    · rcases mine racing with ⟨_, rfl⟩ | ⟨_, racing⟩
      · rfl
      · exact absurd both (apart racing member there)
  · rcases mine first with ⟨rfl, rfl⟩ | ⟨_, racing⟩
    · rcases mine second with ⟨rfl, _⟩ | ⟨_, racing⟩
      · rfl
      · exact absurd same.symm (older racing)
    · rcases mine second with ⟨_, rfl⟩ | ⟨_, racing'⟩
      · exact absurd same (older racing)
      · exact waking.single r₁ r₂ race₁ race₂ racing racing' same
  · rcases mine racing with ⟨_, rfl⟩ | ⟨_, racing⟩
    · exact Nat.lt_succ_self _
    · exact Nat.lt_succ_of_lt (waking.small r' race' racing)
  · obtain ⟨p, there, ⟨outside, rfl⟩ | ⟨both, rfl⟩⟩ := setAwaiters_some after
    · rcases mine racing with ⟨_, rfl⟩ | ⟨_, racing⟩
      · exact absurd member outside
      · exact waking.awake r' race' t q racing member there now
    · obtain ⟨going, p', there', still, _⟩ := fresh t both
      cases Option.some.inj (there.symm.trans there')
      exact now.elim (fun now => by cases still.symm.trans now) fun finished => absurd finished going

/-- A coroutine awaits a task that no combinator awaits. -/
theorem Waking.link {a : TaskId} {p : Promise} (waking : w.Waking) (there : w.promises t = some p)
    (free : p.awaiter.isRace = false) : (w.link t a p).Waking := by
  have rest : (w.link t a p).races = w.races ∧ (w.link t a p).next = w.next ∧ (w.link t a p).nextEvent = w.nextEvent ∧
      (w.link t a p).done = w.done ∧ ∀ e ∈ w.triggered, e ∈ (w.link t a p).triggered := by
    unfold Coroutines.link
    split <;> exact ⟨rfl, rfl, rfl, rfl, fun _ => List.mem_append_right _⟩
  obtain ⟨races, next, nextEvent, done, triggered⟩ := rest
  have resolving : ∀ {u q}, (w.link t a p).promises u = some q →
      ∃ m, w.promises u = some m ∧ (u ≠ t → q.awaiter = m.awaiter) ∧ q.resolving = m.resolving := by
    intro u q after
    obtain ⟨m, before, linked⟩ := link_some after
    refine ⟨m, before, fun other => linked.awaiter.trans (if_neg other), ?_⟩
    unfold Coroutines.link at after
    have first : ∀ {q'}, ((w.trigger p.interest).modify t
        ({ · with awaiter := .task a, forwarded := false })).promises u = some q' → q'.resolving = m.resolving := by
      intro q' middle
      obtain ⟨m', before', ⟨_, rfl⟩ | ⟨_, rfl⟩⟩ := modify_some middle <;>
        cases Option.some.inj (before.symm.trans before') <;> rfl
    dsimp only at after
    split at after
    · obtain ⟨q', middle, ⟨_, rfl⟩ | ⟨_, rfl⟩⟩ := modify_some after <;>
        have same := first middle <;> exact same
    · exact first after
  have other : ∀ {r race u}, w.races r = some race → u ∈ race.tasks → u ≠ t := by
    rintro r race u racing member rfl
    rw [waking.named r race u p racing member there] at free
    contradiction
  refine ⟨fun u q after => ?_, ?_, ?_, fun r race u q racing member after => ?_, ?_, ?_,
    fun r race u q racing member after now => ?_⟩
  · obtain ⟨m, before, _⟩ := resolving after
    exact next ▸ waking.old u m before
  · rw [races, next]
    exact waking.made
  · rw [races]
    exact waking.held
  · rw [races] at racing
    obtain ⟨m, before, awaiter, _⟩ := resolving after
    exact (awaiter (other racing member)).trans (waking.named r race u m racing member before)
  · rw [races]
    exact waking.single
  · rw [races, nextEvent]
    exact waking.small
  · rw [races] at racing
    obtain ⟨m, before, _, same⟩ := resolving after
    rw [same, done] at now
    exact triggered _ (waking.awake r race u m racing member before now)

theorem Waking.create (waking : w.Waking) (home : DriverId) :
    Waking { w with promises := w.promises.set w.next { home }, next := w.next + 1 } := by
  have old : ∀ {u q}, w.promises.set w.next { home } u = some q → u ≠ w.next → w.promises u = some q := by
    intro u q after differs
    rwa [set_ne _ _ differs] at after
  have differs : ∀ {r race t}, w.races r = some race → t ∈ race.tasks → t ≠ w.next := fun racing member =>
    Nat.ne_of_lt (waking.made _ _ _ racing member)
  refine ⟨fun u q after => ?_, fun r race t racing member => Nat.lt_succ_of_lt (waking.made r race t racing member),
    waking.held, fun r race t q racing member after => ?_, waking.single, waking.small, fun r race t q racing member after => ?_⟩
  · by_cases new : u = w.next
    · exact new ▸ Nat.lt_succ_self _
    · exact Nat.lt_succ_of_lt (waking.old u q (old after new))
  · exact waking.named r race t q racing member (old after (differs racing member))
  · exact waking.awake r race t q racing member (old after (differs racing member))

/-- A task leaves the arguments of the combinators, and comes to some that await it. -/
theorem Waking.move {into : List TaskId} (waking : w.Waking) (sole : w.Sole (.move t into)) :
    (w.move t into).Waking := by
  have before : ∀ {r race}, (w.move t into).races r = some race → ∃ race', w.races r = some race' ∧
      race = { race' with args := race'.args.filter (· ≠ t) ++ if r ∈ into then [t] else [] } := by
    intro r race racing
    obtain ⟨race', racing', rfl⟩ := Option.map_eq_some_iff.mp racing
    exact ⟨race', racing', rfl⟩
  refine ⟨waking.old, fun r race u racing => ?_, fun r race u racing member => ?_, fun r race u p racing => ?_,
    fun r r' race race' first second same => ?_, fun r race racing => ?_, fun r race u p racing => ?_⟩
  · obtain ⟨race', racing', rfl⟩ := before racing
    exact waking.made r race' u racing'
  · obtain ⟨race', racing', rfl⟩ := before racing
    rcases List.mem_append.mp member with stays | comes
    · exact waking.held r race' u racing' (List.mem_of_mem_filter stays)
    · by_cases among : r ∈ into
      · rw [if_pos among] at comes
        rw [List.mem_singleton.mp comes]
        have known := sole r among
        rw [racing'] at known
        exact of_decide_eq_true known
      · rw [if_neg among] at comes
        contradiction
  · obtain ⟨race', racing', rfl⟩ := before racing
    exact waking.named r race' u p racing'
  · obtain ⟨_, racing, rfl⟩ := before first
    obtain ⟨_, racing', rfl⟩ := before second
    exact waking.single r r' _ _ racing racing' same
  · obtain ⟨race', racing', rfl⟩ := before racing
    exact waking.small r race' racing'
  · obtain ⟨race', racing', rfl⟩ := before racing
    exact waking.awake r race' u p racing'

/-- The fields that nothing here reads. -/
theorem Waking.congr (waking : w.Waking) (promises : w'.promises = w.promises) (done : w'.done = w.done)
    (races : w'.races = w.races) (next : w'.next = w.next) (nextEvent : w'.nextEvent = w.nextEvent)
    (triggered : w'.triggered = w.triggered) : w'.Waking := by
  refine waking.steady ⟨fun u q after => ⟨q, promises ▸ after, rfl, .inl⟩, fun _ _ _ finished => .inl (done ▸ finished),
    races, next, Nat.le_of_eq nextEvent.symm, fun e member => triggered ▸ member⟩

theorem prepareAwaiter_waking {a : TaskId} {fuel : Nat} {ends : Ends} (waking : w.Waking)
    (sole : w.Sole (.prepare t a)) (made : w.prepareAwaiter fuel t a = some (ends, w')) : w'.Waking := by
  obtain ⟨p, there, made⟩ := Option.bind_eq_some_iff.mp made
  obtain ⟨aw, _, made⟩ := Option.bind_eq_some_iff.mp made
  have free : p.awaiter.isRace = false := by
    simpa [Sole, there] using sole
  split at made
  next =>
    cases made
    exact waking
  next =>
    split at made
    next =>
      cases made
      exact waking
    next =>
      dsimp only at made
      split at made
      next =>
        obtain ⟨active, _, made⟩ := Option.bind_eq_some_iff.mp made
        split at made
        next =>
          cases made
          exact (waking.link there free).steady (modify_steady _ _ (fun _ => rfl) fun _ => by rintro ⟨⟩)
        next =>
          obtain ⟨w₁, pointed, made⟩ := Option.map_eq_some_iff.mp made
          cases made
          exact (waking.link there free).steady (resolutionPoint_steady pointed).1
      next =>
        cases made
        exact waking.link there free

theorem step_waking (waking : w.Waking) (sole : w.Sole l) (made : w.step l = some w') : w'.Waking := by
  cases l with
  | create home =>
      cases Option.some.inj made
      exact waking.create home
  | destroy ts =>
      cases Option.some.inj made
      exact waking.destroy ts
  | detach t owned =>
      obtain ⟨p, _, rfl⟩ := Option.map_eq_some_iff.mp made
      have waking : (w.move t []).Waking := waking.move nofun
      dsimp only
      split
      next => exact waking.destroy _
      next => exact waking.steady (modify_steady _ _ (fun _ => rfl) fun _ => id)
  | move t into =>
      obtain ⟨p, _, rfl⟩ := Option.map_eq_some_iff.mp made
      exact waking.move sole
  | forward t =>
      obtain ⟨p, _, rfl⟩ := Option.map_eq_some_iff.mp made
      split
      next => exact waking
      next => exact waking.steady (modify_steady _ _ (fun _ => rfl) fun _ => id)
  | start t =>
      obtain ⟨p, _, rfl⟩ := Option.map_eq_some_iff.mp made
      have started : (w.start t p).Waking := by
        unfold start
        split
        · exact waking
        · split
          · exact waking.steady (trigger_steady _ _)
          · exact waking.steady (modify_steady _ _ (fun _ => rfl) fun _ => id)
      exact started.congr rfl rfl rfl rfl rfl rfl
  | interest t =>
      obtain ⟨p, _, rfl⟩ := Option.map_eq_some_iff.mp made
      have asked : (w.makeInterest t p).2.Waking := by
        unfold makeInterest
        split
        · exact waking
        · have set : Steady w (w.modify t ({ · with interest := some w.nextEvent, hasInterest := true })) :=
            modify_steady _ _ (fun _ => rfl) fun _ => id
          exact waking.steady ⟨set.before, set.done, rfl, rfl, Nat.le_succ _, set.triggered⟩
      exact asked.congr rfl rfl rfl rfl rfl rfl
  | resolution t =>
      obtain ⟨p, _, rfl⟩ := Option.map_eq_some_iff.mp made
      unfold resolution
      split
      · have set : Steady w (w.modify t ({ · with resolution := some w.nextEvent })) :=
          modify_steady _ _ (fun _ => rfl) fun _ => id
        exact waking.steady ⟨set.before, set.done, rfl, rfl, Nat.le_succ _, set.triggered⟩
      · exact waking
  | pass t =>
      obtain ⟨p, _, rfl⟩ := Option.map_eq_some_iff.mp made
      exact waking.steady (modify_steady _ _ (fun _ => rfl) fun _ => by rintro ⟨⟩)
  | drive t inResolve =>
      obtain ⟨p, _, rfl⟩ := Option.map_eq_some_iff.mp made
      exact waking.steady (modify_steady _ _ (fun _ => rfl) fun _ => id)
  | prepare t a =>
      obtain ⟨⟨ends, w₁⟩, prepared, rfl⟩ := Option.map_eq_some_iff.mp made
      have waking' := prepareAwaiter_waking waking sole prepared
      cases ends with
      | suspends | transfers => exact waking'.congr rfl rfl rfl rfl rfl rfl
      | returns | resumes | crossDriver | detachedAwait | terminates => exact waking'
  | resume t =>
      obtain ⟨p, _, made⟩ := Option.bind_eq_some_iff.mp made
      obtain ⟨promises, cleared, rfl⟩ := Option.map_eq_some_iff.mp made
      exact waking.steady (clearAwaiter_steady cleared)
  | point t owned =>
      obtain ⟨p, _, made⟩ := Option.bind_eq_some_iff.mp made
      obtain ⟨active, _, made⟩ := Option.bind_eq_some_iff.mp made
      split at made
      next =>
        cases Option.some.inj made
        exact waking
      next =>
        obtain ⟨w₁, pointed, rfl⟩ := Option.map_eq_some_iff.mp made
        have waking := waking.steady (resolutionPoint_steady pointed).1
        split
        next => exact waking.destroy _
        next => exact waking
  | finish t owned =>
      obtain ⟨p, there, made⟩ := Option.bind_eq_some_iff.mp made
      obtain ⟨w₁, pointed, made⟩ := Option.bind_eq_some_iff.mp made
      have waking := waking.steady (finish_steady (Option.isSome_of_mem there) pointed)
      split at made
      next =>
        obtain ⟨_, _, rfl⟩ := Option.map_eq_some_iff.mp made
        exact waking
      next =>
        cases Option.some.inj made
        split
        next => exact waking.destroy _
        next => exact waking
  | race r args =>
      obtain ⟨p, _, made⟩ := Option.bind_eq_some_iff.mp made
      obtain ⟨idle, made⟩ := Option.ite_none_right_eq_some.mp made
      cases Option.some.inj made
      exact waking.race idle sole
  | after r =>
      obtain ⟨_, _, rfl⟩ := Option.map_eq_some_iff.mp made
      exact waking.endRace r
  | trigger e =>
      obtain ⟨_, made⟩ := Option.ite_none_right_eq_some.mp made
      cases Option.some.inj made
      exact waking.steady (trigger_steady _ _)

theorem initial_waking : Waking {} where
  old _ _ there := by cases there
  made _ _ _ racing := by cases racing
  held _ _ _ racing := by cases racing
  named _ _ _ _ racing := by cases racing
  single _ _ _ _ racing := by cases racing
  small _ _ racing := by cases racing
  awake _ _ _ _ racing := by cases racing

/-- In every state of a run, a combinator that sleeps is woken if a task of its has
completed or has come to a resolution point. -/
theorem races_wake (sole : Meets step Sole {} ls) : Always step Awake {} ls :=
  (always_of_meets (fun waking sole made => step_waking waking sole made) sole initial_waking).mono
    fun _ waking => waking.awake

/-- The second task of a combinator completes. -/
theorem races_wake_second : ∃ w, Reaches step {} [.create 0, .create 0, .create 0, .race 2 [0, 1], .finish 1 []] w ∧
    w.races 2 = some ⟨0, [0, 1], [0, 1]⟩ ∧ 0 ∈ w.triggered := by
  have ran : (run step {} [.create 0, .create 0, .create 0, .race 2 [0, 1], .finish 1 []]).any
      (fun w => w.races 2 == some ⟨0, [0, 1], [0, 1]⟩ && (w.promises 1).isSome && decide (1 ∈ w.done)) = true := by decide
  obtain ⟨w, path, here⟩ := (Option.any_eq_true _ _).mp ran
  simp only [Bool.and_eq_true, beq_iff_eq, decide_eq_true_eq] at here
  obtain ⟨⟨racing, live⟩, finished⟩ := here
  obtain ⟨p, there⟩ := Option.isSome_iff_exists.mp live
  have path := run_iff_reaches.mp path
  have all : Always step Awake {} ([.create 0, .create 0, .create 0, .race 2 [0, 1], .finish 1 []] ++ []) :=
    races_wake (by decide)
  have awake := all.reached path
  exact ⟨w, path, racing, awake 2 _ 1 p racing (by decide) there (.inr finished)⟩

end Coroutines
end Cotamer.Task

import Cotamer.Task.Calm

/-! Operations on a task of another driver, which are refused. -/
namespace Cotamer.Task
open Event Transition

namespace Promises

/-- A child that a coroutine forwards is of the same driver. -/
def Homed (s : Promises) : Prop :=
  ∀ t p c q, s t = some p → p.forward = some c → s c = some q → q.home = p.home

/-- From a task through the children that are forwarded. -/
inductive Chain (s : Promises) : TaskId → TaskId → Prop
  | here (t : TaskId) : Chain s t t
  | child {t c u : TaskId} {p : Promise} (there : s t = some p) (forward : p.forward = some c)
      (rest : Chain s c u) : Chain s t u

end Promises

namespace Coroutines

open Promises

variable {w w' : Coroutines} {t a u : TaskId} {p aw : Promise} {d : DriverId} {fuel : Nat} {ends : Ends}
variable {resume : Coroutines → TaskId → Option Coroutines} {l : Label} {ls : List Label}

/-! Every child of a reachable state is of the driver of the coroutine that forwards it. -/

structure Homes (w : Coroutines) : Prop where
  fresh : ∀ t, w.next ≤ t → w.promises t = none
  older : ∀ t p c, w.promises t = some p → p.forward = some c → c < w.next
  homed : w.promises.Homed

/-- No coroutine is new, none moves, and none gets a child. -/
def Descends (s s' : Promises) : Prop :=
  ∀ u q, s' u = some q → ∃ p, s u = some p ∧ q.home = p.home ∧ (q.forward = p.forward ∨ q.forward = none)

theorem Homes.descends (homes : w.Homes) (next : w'.next = w.next) (descends : Descends w.promises w'.promises) :
    w'.Homes := by
  refine ⟨fun t new => ?_, fun t p c there forward => ?_, fun t p c q there forward child => ?_⟩
  · rw [next] at new
    cases after : w'.promises t with
    | none => rfl
    | some q =>
        obtain ⟨p, there, _⟩ := descends t q after
        exact nomatch (homes.fresh t new).symm.trans there
  · obtain ⟨p₀, there₀, _, same | gone⟩ := descends t p there
    · rw [next]
      exact homes.older t p₀ c there₀ (same ▸ forward)
    · rw [gone] at forward
      contradiction
  · obtain ⟨p₀, there₀, home, same | gone⟩ := descends t p there
    · obtain ⟨q₀, child₀, home', _⟩ := descends c q child
      rw [home, home', homes.homed t p₀ c q₀ there₀ (same ▸ forward) child₀]
    · rw [gone] at forward
      contradiction

theorem Homes.calms (homes : w.Homes) (calms : Calms w w') : w'.Homes := by
  refine homes.descends calms.next fun u q after => ?_
  obtain ⟨p, there, calm⟩ := calms.promises.before u q after
  exact ⟨p, there, calm.home, calm.forward⟩

theorem Homes.destroy (homes : w.Homes) (ts : List TaskId) : (w.destroy ts).Homes := by
  refine homes.descends (endRaces_rest w ts).1 fun u q after => ?_
  obtain ⟨p, there, calm⟩ := (endRaces_promises w ts).before u q (destroy_some after).2
  exact ⟨p, there, calm.home, calm.forward⟩

theorem modify_descends {f : Promise → Promise} (home : ∀ p, (f p).home = p.home)
    (forward : ∀ p, (f p).forward = p.forward) : Descends w.promises (w.modify t f).promises := by
  intro u q after
  obtain ⟨p, there, ⟨_, rfl⟩ | ⟨_, rfl⟩⟩ := modify_some after
  · exact ⟨q, there, rfl, .inl rfl⟩
  · exact ⟨p, there, home p, .inl (forward p)⟩

theorem start_descends : Descends w.promises (w.start t p).promises ∧ (w.start t p).next = w.next := by
  have same : Descends w.promises w.promises := fun u q there => ⟨q, there, rfl, .inl rfl⟩
  unfold start
  split
  · exact ⟨same, rfl⟩
  · split
    · exact ⟨same, rfl⟩
    · exact ⟨modify_descends (fun _ => rfl) fun _ => rfl, rfl⟩

/-- A link is made between coroutines of one driver. -/
theorem link_homes (homes : w.Homes) (there : w.promises t = some p) (awaiter : w.promises a = some aw)
    (same : p.home = aw.home) : (w.link t a p).Homes := by
  have next : (w.link t a p).next = w.next := by
    unfold link
    split <;> rfl
  have small : t < w.next := by
    by_contra large
    exact nomatch (homes.fresh t (Nat.le_of_not_lt large)).symm.trans there
  refine ⟨fun u new => ?_, fun u q c after child => ?_, fun u q c r after child last => ?_⟩
  · cases after : (w.link t a p).promises u with
    | none => rfl
    | some q =>
        obtain ⟨p', there', _⟩ := link_some after
        exact nomatch (homes.fresh u (next ▸ new)).symm.trans there'
  · obtain ⟨p', there', linked⟩ := link_some after
    rw [next]
    rw [linked.forward] at child
    split at child
    · cases Option.some.inj child
      exact small
    · exact homes.older u p' c there' child
  · obtain ⟨p', there', linked⟩ := link_some after
    obtain ⟨q', last', linked'⟩ := link_some last
    rw [linked.forward] at child
    rw [linked.home, linked'.home]
    split at child
    · rename_i mine
      cases Option.some.inj child
      obtain ⟨rfl, _⟩ := mine
      cases Option.some.inj (there'.symm.trans awaiter)
      cases Option.some.inj (last'.symm.trans there)
      exact same
    · exact homes.homed u p' c q' there' child last'

theorem create_homes (homes : w.Homes) (home : DriverId) :
    Homes { w with promises := w.promises.set w.next { home }, next := w.next + 1 } := by
  have old : ∀ {u q}, w.promises.set w.next { home } u = some q →
      u = w.next ∧ q = { home } ∨ w.promises u = some q := by
    intro u q after
    by_cases new : u = w.next
    · subst new
      rw [set_self] at after
      exact .inl ⟨rfl, (Option.some.inj after).symm⟩
    · rw [set_ne _ _ new] at after
      exact .inr after
  refine ⟨fun u new => ?_, fun u q c after child => ?_, fun u q c r after child last => ?_⟩
  · exact (set_ne _ _ (Nat.ne_of_gt new)).trans (homes.fresh u (Nat.le_of_succ_le new))
  · rcases old after with ⟨_, rfl⟩ | there
    · contradiction
    · exact Nat.lt_succ_of_lt (homes.older u q c there child)
  · rcases old after with ⟨_, rfl⟩ | there
    · contradiction
    · rcases old last with ⟨rfl, _⟩ | there'
      · exact absurd (homes.older u q _ there child) (Nat.lt_irrefl _)
      · exact homes.homed u q c r there child there'

theorem Homes.moved (homes : w.Homes) (l : Label) : (w.moved l).Homes := by
  obtain ⟨races, same⟩ := moved_eq w l
  rw [same]
  exact ⟨homes.fresh, homes.older, homes.homed⟩

theorem step_homes (homes : w.Homes) (made : w.step l = some w') : w'.Homes := by
  cases step_change made with
  | created home => exact create_homes homes home
  | calm calms => exact (homes.moved l).calms calms
  | destroyed calms => exact ((homes.moved l).calms calms).destroy _
  | started there => exact homes.descends start_descends.2 start_descends.1
  | asked there =>
      unfold makeInterest
      split
      · exact homes.descends rfl fun u q there => ⟨q, there, rfl, .inl rfl⟩
      · exact homes.descends rfl (modify_descends (fun _ => rfl) fun _ => rfl)
  | prepared there awaiter same calms =>
      exact ((link_homes homes there awaiter same).calms calms).descends rfl fun u q there => ⟨q, there, rfl, .inl rfl⟩
  | raced there idle =>
      refine homes.descends rfl fun u q after => ?_
      obtain ⟨p, there, ⟨_, rfl⟩ | ⟨_, rfl⟩⟩ := setAwaiters_some after
      · exact ⟨q, there, rfl, .inl rfl⟩
      · exact ⟨p, there, rfl, .inl rfl⟩
  | ended racing =>
      refine homes.descends (endRace_rest w _).1 fun u q after => ?_
      obtain ⟨p, there, calm⟩ := (endRaces_promises w [_]).before u q after
      exact ⟨p, there, calm.home, calm.forward⟩

theorem initial_homes : Homes {} := ⟨fun _ _ => rfl, fun _ _ _ there => (nomatch there), fun _ _ _ _ there => (nomatch there)⟩

theorem reached_homes (path : Reaches step {} ls w) : w.Homes :=
  path.invariant step_homes initial_homes

/-! `resolve` on another driver. -/

/-- Some tasks have gone past their resolution points, without being run. -/
def Passed (w w' : Coroutines) : Prop :=
  ∀ u, w'.promises u = w.promises u ∨
    w'.promises u = (w.promises u).map fun p => { p with resolving := false, resolution := none }

theorem Passed.refl (w : Coroutines) : Passed w w := fun _ => .inl rfl

theorem pass_passed (w : Coroutines) (t : TaskId) : Passed w (w.pass t) := by
  intro u
  by_cases same : u = t
  · subst same
    exact .inr (if_pos rfl)
  · exact .inl (modify_ne same)

theorem Passed.trans {w'' : Coroutines} (first : Passed w w') (second : Passed w' w'') : Passed w w'' := by
  intro u
  rcases second u with same | passed
  · rw [same]
    exact first u
  · refine .inr (passed.trans ?_)
    rcases first u with same | passed'
    · rw [same]
    · rw [passed', Option.map_map]
      rfl

/-- A promise after some have passed. -/
theorem Passed.some {q : Promise} (passed : Passed w w') (after : w'.promises u = some q) :
    ∃ p, w.promises u = Option.some p ∧ q.home = p.home ∧ q.forward = p.forward ∧
      (p.resolving = false → q.resolving = false) := by
  rcases passed u with same | left
  · exact ⟨q, same ▸ after, rfl, rfl, id⟩
  · rw [left] at after
    obtain ⟨p, there, rfl⟩ := Option.map_eq_some_iff.mp after
    exact ⟨p, there, rfl, rfl, fun _ => rfl⟩

theorem Passed.homed (passed : Passed w w') (homed : w.promises.Homed) : w'.promises.Homed := by
  intro t p c q there forward child
  obtain ⟨p₀, there₀, home, same, _⟩ := passed.some there
  obtain ⟨q₀, child₀, home', _⟩ := passed.some child
  rw [home, home', homed t p₀ c q₀ there₀ (same ▸ forward) child₀]

theorem resolve_there (ran : resolve resume d fuel w t = some (ends, w')) : ∃ p, w.promises t = some p := by
  cases fuel with
  | zero => contradiction
  | succ fuel =>
      obtain ⟨p, there, _⟩ := Option.bind_eq_some_iff.mp ran
      exact ⟨p, there⟩

/-- Past the resolution point, if there is one to go past, and otherwise nothing happens. -/
theorem resolve_foreign (homed : w.promises.Homed) (there : w.promises t = some p) (foreign : p.home ≠ d)
    (ran : resolve resume d fuel w t = some (ends, w')) :
    t ∉ w.done ∧ p.resolving = true ∧ p.forwarded = false ∧ Passed w w' ∧
        (∀ q, w'.promises t = some q → q.resolving = false) ∨
      w' = w ∧ (ends = .returns true ∨ (p.resolving = false ∨ p.forwarded = true) ∧ ends = .returns false) := by
  induction fuel generalizing w t p ends w' with
  | zero => contradiction
  | succ fuel ih =>
      rw [resolve, there] at ran
      simp only [Option.bind_some] at ran
      split at ran
      · cases Option.some.inj ran
        exact .inr ⟨rfl, .inl rfl⟩
      · rename_i busy
        split at ran
        · rename_i still
          cases Option.some.inj ran
          exact .inr ⟨rfl, .inr ⟨.inl still, rfl⟩⟩
        · rename_i resolving
          split at ran
          · rename_i forwarded
            cases Option.some.inj ran
            exact .inr ⟨rfl, .inr ⟨.inr forwarded, rfl⟩⟩
          · rename_i plain
            refine .inl ⟨busy, Bool.not_eq_false _ ▸ resolving, Bool.not_eq_true _ ▸ plain, ?_⟩
            obtain ⟨⟨ends', w₁⟩, forwards, ran⟩ := Option.bind_eq_some_iff.mp ran
            have left : ∀ q, (w.pass t).promises t = some q → q.resolving = false := by
              intro q after
              obtain ⟨_, _, ⟨other, _⟩ | ⟨_, rfl⟩⟩ := modify_some after
              · exact absurd rfl other
              · rfl
            -- the child passes its own point at most
            have passed : Passed (w.pass t) w₁ := by
              split at forwards
              · cases Option.some.inj forwards
                exact .refl _
              · rename_i c child
                have homed' := (pass_passed w t).homed homed
                obtain ⟨q, there'⟩ := resolve_there forwards
                obtain ⟨q₀, there₀, home, _⟩ := (pass_passed w t).some there'
                have same := homed t p c q₀ there child there₀
                rcases ih homed' there' (by rwa [home, same]) forwards with ⟨_, _, _, passed, _⟩ | ⟨rfl, _⟩
                · exact passed
                · exact .refl _
            have all := (pass_passed w t).trans passed
            have gone : ∀ q, w₁.promises t = some q → q.resolving = false := by
              intro q after
              obtain ⟨q₀, middle, _, _, stays⟩ := passed.some after
              exact stays (left q₀ middle)
            have ended : w' = w₁ := by
              split at ran
              · obtain ⟨q, there'⟩ := resolve_there ran
                obtain ⟨_, before, home, _⟩ := all.some there'
                cases Option.some.inj (there.symm.trans before)
                rcases ih (all.homed homed) there' (by rwa [home]) ran with ⟨_, resolving', _⟩ | ⟨same, _⟩
                · rw [gone q there'] at resolving'
                  contradiction
                · exact same
              · cases Option.some.inj ran
                rfl
              · cases Option.some.inj ran
                rfl
            rw [ended]
            exact ⟨all, gone⟩

/-! The operations. -/

/-- What is done with a task: `resolve`, a combinator of which it is an argument, and
`co_await`. -/
inductive Operation where
  | resolve (d : DriverId)
  | combine (d : DriverId)             -- constructed, and polled once
  | coAwait (a : TaskId)
  deriving DecidableEq, Repr

namespace Operation

def run (resume : Coroutines → TaskId → Option Coroutines) (fuel : Nat) (w : Coroutines) (t : TaskId) :
    Operation → Option (Ends × Coroutines)
  | .resolve d => w.taskResolve resume d fuel t
  | .combine d => (w.promises t).bind fun p => (w.start t p).taskResolve resume d fuel t
  | .coAwait a => w.coAwait resume fuel t a

/-- The driver that the operation runs on. -/
def driver (w : Coroutines) : Operation → Option DriverId
  | .resolve d | .combine d => some d
  | .coAwait a => (w.promises a).map (·.home)

end Operation

/-- The promises of the task and of its chain are as they were. -/
def Intact (w w' : Coroutines) (t : TaskId) : Prop := ∀ u, Chain w.promises t u → w'.promises u = w.promises u

/-- `resolve` would not go past a resolution point. -/
def Passive (w : Coroutines) (t : TaskId) : Prop :=
  ∀ p, w.promises t = some p → p.resolving = false ∨ p.forwarded = true

theorem not_passive (there : w.promises t = some p) (resolving : p.resolving = true) (plain : p.forwarded = false) :
    ¬w.Passive t := by
  intro passive
  rcases passive p there with still | forwarded
  · rw [resolving] at still
    contradiction
  · rw [plain] at forwarded
    contradiction

theorem left_differs (there : w.promises t = some p) (resolving : p.resolving = true)
    (gone : ∀ q, w'.promises t = some q → q.resolving = false) : w'.promises t ≠ w.promises t := by
  intro same
  have left := gone p (same.trans there)
  rw [resolving] at left
  contradiction

theorem taskResolve_foreign (homed : w.promises.Homed) (there : w.promises t = some p) (foreign : p.home ≠ d)
    (refused : w.taskResolve resume d fuel t = some (.crossDriver, w')) :
    p.resolving = true ∧ p.forwarded = false ∧ ∀ q, w'.promises t = some q → q.resolving = false := by
  rw [taskResolve, there, Option.bind_some] at refused
  split at refused
  · rcases resolve_foreign homed there foreign refused with ⟨_, resolving, plain, _, gone⟩ | ⟨_, ends | ⟨_, ends⟩⟩
    · exact ⟨resolving, plain, gone⟩
    · contradiction
    · contradiction
  · cases Option.some.inj refused

theorem coAwait_foreign (homed : w.promises.Homed) (there : w.promises t = some p) (awaiter : w.promises a = some aw)
    (foreign : p.home ≠ aw.home) (refused : w.coAwait resume fuel t a = some (.crossDriver, w')) :
    w.Passive t ∧ w' = w ∨ ¬w.Passive t ∧ w'.promises t ≠ w.promises t := by
  rw [coAwait, awaiter, Option.bind_some] at refused
  obtain ⟨⟨ends, w₁⟩, resolved, refused⟩ := Option.bind_eq_some_iff.mp refused
  have kept : ends = .returns false ∧ w' = w₁ := by
    cases ends with
    | returns completed =>
        cases completed with
        | true =>
            obtain ⟨_, _, ended⟩ := Option.map_eq_some_iff.mp refused
            cases ended
        | false =>
            refine ⟨rfl, ?_⟩
            obtain ⟨_, _, _, _, ⟨_, _, same⟩ | ⟨_, _, _, same⟩ | ⟨_, ended, _⟩⟩ := prepareAwaiter_cases refused
            · exact same
            · exact same
            · rcases ended with ended | ended <;> cases ended
    | resumes | suspends | transfers | crossDriver | detachedAwait | terminates => cases Option.some.inj refused
  obtain ⟨rfl, rfl⟩ := kept
  rcases resolve_foreign homed there foreign resolved with ⟨_, resolving, plain, _, gone⟩ | ⟨same, ends | ⟨quiet, _⟩⟩
  · exact .inr ⟨not_passive there resolving plain, left_differs there resolving gone⟩
  · contradiction
  · refine .inl ⟨fun q there' => ?_, same⟩
    cases Option.some.inj (there.symm.trans there')
    exact quiet

/-- `start` changes neither whether a task is at a resolution point nor where it lives. -/
theorem start_there (there : w.promises t = some p) : ∃ q, (w.start t p).promises t = some q ∧ q.home = p.home ∧
    q.resolving = p.resolving ∧ q.forwarded = p.forwarded := by
  unfold start
  split
  · exact ⟨p, there, rfl, rfl, rfl⟩
  · split
    · exact ⟨p, there, rfl, rfl, rfl⟩
    · exact ⟨_, modify_self there, rfl, rfl, rfl⟩

/-- An operation that is refused leaves the task and its chain as they were exactly if
`resolve` had no resolution point to go past: it drops those before it looks at the
driver. Then nothing at all has changed. -/
theorem refused_intact_iff {op : Operation} (path : Reaches step {} ls w) (there : w.promises t = some p)
    (elsewhere : op.driver w ≠ some p.home) (refused : op.run resume fuel w t = some (.crossDriver, w')) :
    (w.Intact w' t ↔ w.Passive t) ∧ (w.Passive t → w' = w) := by
  have homes := reached_homes path
  have exact : w.Passive t ∧ w' = w ∨ ¬w.Passive t ∧ w'.promises t ≠ w.promises t := by
    cases op with
    | resolve d =>
        have foreign : p.home ≠ d := fun same => elsewhere (congrArg some same.symm)
        obtain ⟨resolving, plain, gone⟩ := taskResolve_foreign homes.homed there foreign refused
        exact .inr ⟨not_passive there resolving plain, left_differs there resolving gone⟩
    | combine d =>
        have foreign : p.home ≠ d := fun same => elsewhere (congrArg some same.symm)
        rw [Operation.run, there, Option.bind_some] at refused
        obtain ⟨q, started, home, resolving', forwarded'⟩ := start_there there
        have homes' : (w.start t p).Homes := homes.descends start_descends.2 start_descends.1
        obtain ⟨resolving, plain, gone⟩ := taskResolve_foreign homes'.homed started (home ▸ foreign) refused
        rw [resolving'] at resolving
        rw [forwarded'] at plain
        exact .inr ⟨not_passive there resolving plain, left_differs there resolving gone⟩
    | coAwait a =>
        cases awaiter : w.promises a with
        | none =>
            rw [Operation.run, coAwait, awaiter] at refused
            contradiction
        | some aw =>
            refine coAwait_foreign homes.homed there awaiter (fun same => elsewhere ?_) refused
            rw [Operation.driver, awaiter, same]
            rfl
  rcases exact with ⟨passive, same⟩ | ⟨passive, differs⟩
  · subst same
    exact ⟨iff_of_true (fun _ _ => rfl) passive, fun _ => rfl⟩
  · exact ⟨iff_of_false (fun intact => differs (intact t (.here t))) passive, fun yes => absurd yes passive⟩

/-- A task that waits for interest is awaited on another driver. -/
theorem refused_intact_running :
    let ls : List Label := [.create 0, .interest 0, .create 1]
    let op : Operation := .coAwait 1
    ∃ w w', Reaches step {} ls w ∧ op.run (fun w _ => some w) 3 w 0 = some (.crossDriver, w') ∧
      (w.Intact w' 0 ↔ w.Passive 0) ∧ (w.Passive 0 → w' = w) := by
  intro ls op
  have runs : (run step {} ls).map (fun w =>
      (w.promises 0, op.driver w, (op.run (fun w _ => some w) 3 w 0).map Prod.fst)) =
      some (some { hasInterest := true, interest := some 0 }, some 1, some .crossDriver) := by decide
  obtain ⟨w, ran, facts⟩ := Option.map_eq_some_iff.mp runs
  simp only [Prod.mk.injEq] at facts
  obtain ⟨there, driver, ends⟩ := facts
  obtain ⟨⟨_, w'⟩, refused, rfl⟩ := Option.map_eq_some_iff.mp ends
  have path := run_iff_reaches.mp ran
  have elsewhere : op.driver w ≠ some 0 := by
    rw [driver]
    decide
  exact ⟨w, w', path, refused, refused_intact_iff path there elsewhere refused⟩

/-- `resolve` on another driver is refused, and the task is not at its resolution point
any more. -/
theorem refused_resolve_passes :
    let ls : List Label := [.create 0, .point 0 []]
    let op : Operation := .resolve 1
    ∃ w w', Reaches step {} ls w ∧ op.run (fun w _ => some w) 3 w 0 = some (.crossDriver, w') ∧ ¬w.Intact w' 0 := by
  intro ls op
  have runs : (run step {} ls).map (fun w =>
      (w.promises 0, (op.run (fun w _ => some w) 3 w 0).map fun r => (r.1, r.2.promises 0))) =
      some (some { resolving := true }, some (.crossDriver, some {})) := by decide
  obtain ⟨w, ran, facts⟩ := Option.map_eq_some_iff.mp runs
  simp only [Prod.mk.injEq] at facts
  obtain ⟨there, ends⟩ := facts
  obtain ⟨⟨_, w'⟩, refused, both⟩ := Option.map_eq_some_iff.mp ends
  simp only [Prod.mk.injEq] at both
  obtain ⟨rfl, left⟩ := both
  refine ⟨w, w', run_iff_reaches.mp ran, refused, fun intact => ?_⟩
  have same := intact 0 (.here 0)
  rw [there, left] at same
  exact absurd same (by decide)

end Coroutines
end Cotamer.Task

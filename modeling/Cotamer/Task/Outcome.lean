import Cotamer.Task.Promise
import Cotamer.Transition

/-! The outcome of a completed task, as those who take the task by reference observe it one
after the other. -/
namespace Cotamer.Task
open Event Transition

variable {T E : Type}

/-- What an observer gets: a value, a return without one, an exception, or behavior that is not
defined. -/
inductive Observation (T E : Type) where
  | value (v : T)
  | returned
  | throws (e : E)
  | undefined
  deriving DecidableEq, Repr

/-- `result_` of `task_promise<T>`, or `exception_` of `task_promise<void>`. An `exception_ptr`
may be null. -/
inductive Result (T E : Type) where
  | empty
  | value (v : T)
  | exception (e : Option E)
  | void (e : Option E)
  deriving DecidableEq, Repr

namespace Result

/-- `result`, and what it leaves; `moved` is what a move leaves of a value. -/
def take (moved : T → T) : Result T E → Observation T E × Result T E
  | empty => (.undefined, empty)
  | value v => (.value v, value (moved v))
  | exception (some e) => (.throws e, exception none)
  | exception none => (.undefined, exception none)
  | void (some e) => (.throws e, void none)
  | void none => (.returned, void none)

/-- How the coroutine ended. -/
def outcome : Result T E → Observation T E
  | empty => .undefined
  | value v => .value v
  | exception (some e) | void (some e) => .throws e
  | exception none => .undefined
  | void none => .returned

end Result

/-- Those who observe a task that they took by reference. -/
inductive Observer where
  | await
  | first
  | race
  | attempt
  deriving DecidableEq, Repr

/-- A completed task among other coroutines. `ended` is how it ended, and `seen` what its
observers have got. -/
structure Completed (T E : Type) where
  awaiter : Awaiter
  result : Result T E
  others : Promises
  ended : Observation T E
  seen : List (Observation T E) := []

namespace Completed

inductive Label where
  | observe (o : Observer) (waited : Bool)    -- `waited`: suspended before the task completed
  | destroy (c : TaskId)
  | change (c : TaskId) (p : Promise)         -- others come and go
  deriving DecidableEq, Repr

variable (moved : T → T)

/-- `result`, to be returned by an observer. -/
def see (s : Completed T E) : Completed T E :=
  let r := s.result.take moved
  { s with result := r.2, seen := s.seen ++ [r.1] }

/-- The task behaves in an undefined way. -/
def fail (s : Completed T E) : Completed T E := { s with seen := s.seen ++ [.undefined] }

def step (s : Completed T E) : Label → Option (Completed T E)
  | .observe .await _ =>
    -- await_resume
    match s.others.clearAwaiter s.awaiter with
    | some others => some ({ s with others }.see moved)
    | none => some s.fail
  | .observe _ waited =>
    -- after_event, then select_variant, select_value or select_first
    some ({ s with awaiter := if waited then .nobody else s.awaiter }.see moved)
  | .destroy c => some { s with others := s.others.destroy c }
  | .change c p => some { s with others := s.others.set c p }

/-- Every observation so far is how the task ended. -/
def Stable (s : Completed T E) : Prop := ∀ o ∈ s.seen, o = s.ended

/-- How the task ended can be observed again. -/
def Sturdy : Observation T E → Prop
  | .value v => moved v = v
  | .returned => True
  | .throws _ | .undefined => False

/-- `awaiter_` names a coroutine that has been destroyed. -/
def Dangling (s : Completed T E) : Prop := ∃ c, s.awaiter = .task c ∧ s.others c = none

/-- The first observation, or one of a result that moves leave as it is; and `clear_awaiter`
finds the coroutine that awaited the task. -/
def Careful (s : Completed T E) : Label → Prop
  | .observe o _ => (s.seen = [] ∨ Sturdy moved s.ended) ∧ (o = .await → ¬s.Dangling)
  | _ => True

variable {moved} {s t : Completed T E} {r : Result T E} {l : Label} {ls : List Label}

theorem take_outcome (moved : T → T) (r : Result T E) : (r.take moved).1 = r.outcome := by
  unfold Result.take Result.outcome
  split <;> rfl

/-- A move leaves the outcome as it is, or spends it. -/
theorem take_again (defined : r.outcome ≠ .undefined) :
    (r.take moved).2.outcome = r.outcome ↔ Sturdy moved r.outcome := by
  match r with
  | .empty => exact absurd rfl defined
  | .value v => simp [Result.take, Result.outcome, Sturdy]
  | .exception none => exact absurd rfl defined
  | .exception (some e) => simp [Result.take, Result.outcome, Sturdy]
  | .void none => simp [Result.take, Result.outcome, Sturdy]
  | .void (some e) => simp [Result.take, Result.outcome, Sturdy]

/-- What the stored result still says. -/
structure Kept (moved : T → T) (s : Completed T E) : Prop where
  defined : s.ended ≠ .undefined
  whole : s.seen = [] ∨ Sturdy moved s.ended ↔ s.result.outcome = s.ended

theorem clearAwaiter_none (s : Completed T E) : s.others.clearAwaiter s.awaiter = none ↔ s.Dangling := by
  unfold Promises.clearAwaiter Dangling
  cases s.awaiter with
  | nobody => simp
  | task c => simp
  | event e => simp

theorem Kept.see (kept : Kept moved s) (whole : s.seen = [] ∨ Sturdy moved s.ended) :
    Kept moved (s.see moved) := by
  have same := kept.whole.mp whole
  refine ⟨kept.defined, ?_⟩
  have again : (s.result.take moved).2.outcome = s.result.outcome ↔ Sturdy moved s.result.outcome :=
    take_again (same ▸ kept.defined)
  rw [same] at again
  simp [Completed.see, again]

theorem stable_see (stable : s.Stable) (kept : Kept moved s) :
    (s.see moved).Stable ↔ s.seen = [] ∨ Sturdy moved s.ended := by
  rw [kept.whole, ← take_outcome moved]
  unfold Stable Completed.see
  simp only [List.mem_append, List.mem_singleton]
  exact ⟨fun all => all _ (.inr rfl), fun same o seen => seen.elim (stable o) fun new => new ▸ same⟩

theorem step_kept (kept : Kept moved s) (careful : s.Careful moved l) (made : s.step moved l = some t) :
    Kept moved t := by
  cases l with
  | observe o waited =>
      obtain ⟨whole, present⟩ := careful
      cases o with
      | await =>
          simp only [step] at made
          split at made
          · cases Option.some.inj made
            exact Kept.see ⟨kept.defined, kept.whole⟩ whole
          · rename_i none
            exact absurd ((clearAwaiter_none s).mp none) (present rfl)
      | _ =>
          cases Option.some.inj made
          exact Kept.see ⟨kept.defined, kept.whole⟩ whole
  | destroy c =>
      cases Option.some.inj made
      exact ⟨kept.defined, kept.whole⟩
  | change c p =>
      cases Option.some.inj made
      exact ⟨kept.defined, kept.whole⟩

theorem step_exact (kept : Kept moved s) (stable : s.Stable) (made : s.step moved l = some t) :
    t.Stable ↔ s.Careful moved l := by
  cases l with
  | observe o waited =>
      cases o with
      | await =>
          simp only [step] at made
          split at made
          · rename_i others cleared
            cases Option.some.inj made
            have present : ¬s.Dangling := by
              rw [← clearAwaiter_none, cleared]
              exact nofun
            rw [stable_see (s := { s with others }) stable ⟨kept.defined, kept.whole⟩]
            exact ⟨fun whole => ⟨whole, fun _ => present⟩, And.left⟩
          · rename_i none
            cases Option.some.inj made
            have dangling := (clearAwaiter_none s).mp none
            refine iff_of_false (fun all => ?_) fun careful => careful.2 rfl dangling
            exact kept.defined (all _ (List.mem_append_right _ (List.mem_singleton_self _))).symm
      | _ =>
          cases Option.some.inj made
          refine (stable_see (s := { s with awaiter := if waited then .nobody else s.awaiter })
            stable ⟨kept.defined, kept.whole⟩).trans ?_
          exact ⟨fun whole => ⟨whole, nofun⟩, And.left⟩
  | destroy c =>
      cases Option.some.inj made
      exact iff_of_true stable trivial
  | change c p =>
      cases Option.some.inj made
      exact iff_of_true stable trivial

/-- Every label is enabled in every state. -/
theorem enabled (moved : T → T) (s : Completed T E) (ls : List Label) :
    ∃ t, Reaches (step moved) s ls t := by
  induction ls generalizing s with
  | nil => exact ⟨s, .refl s⟩
  | cons l ls ih =>
      have made : (s.step moved l).isSome = true := by
        unfold step
        split
        · split <;> rfl
        all_goals rfl
      obtain ⟨t, made⟩ := Option.isSome_iff_exists.mp made
      obtain ⟨u, rest⟩ := ih t
      exact ⟨u, .next made rest⟩

/-- A task that has just completed. -/
def complete (result : Result T E) (awaiter : Awaiter) (others : Promises) : Completed T E :=
  { awaiter, result, others, ended := result.outcome }

/-- The observers of a completed task get the same outcome exactly if all but the first find one
that moves do not change, and none finds a destroyed coroutine recorded as the awaiter. -/
theorem outcome_stable (defined : r.outcome ≠ .undefined) (awaiter : Awaiter) (others : Promises)
    (ls : List Label) :
    Always (step moved) Stable (complete r awaiter others) ls ↔
      Meets (step moved) (Careful moved) (complete r awaiter others) ls := by
  obtain ⟨t, path⟩ := enabled moved (complete r awaiter others) ls
  exact always_iff_meets (fun kept _ careful made => step_kept kept careful made)
    (fun kept stable made => step_exact kept stable made) path
    ⟨defined, iff_of_true (.inl rfl) rfl⟩ nofun

/-- A number is observed by a coroutine that waited, by a race and by another coroutine. -/
theorem outcome_stable_number :
    Always (step id) Stable (complete (.value 7 : Result Nat String) (.task 1) fun _ => some {})
      [.observe .await true, .destroy 2, .observe .race true, .observe .await false] := by
  refine (outcome_stable (by decide) _ _ _).mpr ?_
  refine .cons rfl ⟨.inl rfl, fun _ => ?_⟩ (.cons rfl trivial ?_)
  · rintro ⟨c, names, dead⟩
    cases names
    contradiction
  · refine .cons rfl ⟨.inr rfl, nofun⟩ (.cons rfl ⟨.inr rfl, fun _ => ?_⟩ trivial)
    rintro ⟨c, names, dead⟩
    contradiction

/-- The exception of a `task<void>` is thrown once. -/
theorem second_observer_returns :
    ¬Always (step id) Stable (complete (.void (some "lost") : Result Nat String) .nobody fun _ => none)
      [.observe .await false, .observe .first false] := by
  intro all
  have second := ((all.2 _ rfl).2 _ rfl) .returned (by simp [Completed.see, complete, Result.take])
  exact absurd second (by decide)

end Completed

end Cotamer.Task

import Cotamer.Task.Coroutines

/-! Functions that make no new link between promises and leave interest alone. -/
namespace Cotamer.Task
open Event Transition

/-- Links may be dropped only. -/
structure Calm (p q : Promise) : Prop where
  home : q.home = p.home
  hasInterest : q.hasInterest = p.hasInterest
  interest : q.interest = p.interest
  awaiter : q.awaiter = p.awaiter ∨ q.awaiter = .nobody
  forward : q.forward = p.forward ∨ q.forward = none

theorem Calm.refl (p : Promise) : Calm p p := ⟨rfl, rfl, rfl, .inl rfl, .inl rfl⟩

theorem Calm.trans {p q r : Promise} (first : Calm p q) (second : Calm q r) : Calm p r where
  home := second.home.trans first.home
  hasInterest := second.hasInterest.trans first.hasInterest
  interest := second.interest.trans first.interest
  awaiter := second.awaiter.elim (fun same => same ▸ first.awaiter) .inr
  forward := second.forward.elim (fun same => same ▸ first.forward) .inr

namespace Promises

variable {s s' s'' : Promises} {t u : TaskId} {p q : Promise} {f : Promise → Promise} {args : List TaskId}
variable {awaiter : Awaiter}

theorem modify_self (there : s t = some p) : s.modify t f t = some (f p) := by
  rw [modify, if_pos rfl, there]
  rfl

theorem modify_ne (other : u ≠ t) : s.modify t f u = s u := if_neg other

@[simp] theorem modify_live (s : Promises) (t u : TaskId) (f : Promise → Promise) :
    (s.modify t f u).isSome = (s u).isSome := by
  unfold modify
  split
  · exact Option.isSome_map
  · rfl

/-- A promise after a modification comes from one before. -/
theorem modify_some (after : s.modify t f u = some q) : ∃ p, s u = some p ∧ (u ≠ t ∧ q = p ∨ u = t ∧ q = f p) := by
  by_cases same : u = t
  · rw [modify, if_pos same] at after
    obtain ⟨p, there, rfl⟩ := Option.map_eq_some_iff.mp after
    exact ⟨p, there, .inr ⟨same, rfl⟩⟩
  · rw [modify_ne same] at after
    exact ⟨q, after, .inl ⟨same, rfl⟩⟩

@[simp] theorem setAwaiters_live (s : Promises) (args : List TaskId) (awaiter : Awaiter) (u : TaskId) :
    (s.setAwaiters args awaiter u).isSome = (s u).isSome := by
  unfold setAwaiters
  split
  · exact Option.isSome_map
  · rfl

theorem setAwaiters_some (after : s.setAwaiters args awaiter u = some q) :
    ∃ p, s u = some p ∧ (u ∉ args ∧ q = p ∨ u ∈ args ∧ q = { p with awaiter }) := by
  unfold setAwaiters at after
  split at after
  · rename_i member
    obtain ⟨p, there, rfl⟩ := Option.map_eq_some_iff.mp after
    exact ⟨p, there, .inr ⟨member, rfl⟩⟩
  · rename_i other
    exact ⟨q, after, .inl ⟨other, rfl⟩⟩

/-- The coroutines are the same, and every promise has changed calmly. -/
structure Calms (s s' : Promises) : Prop where
  live : ∀ u, (s' u).isSome = (s u).isSome
  before : ∀ u q, s' u = some q → ∃ p, s u = some p ∧ Calm p q

namespace Calms

theorem refl (s : Promises) : Calms s s := ⟨fun _ => rfl, fun _ q there => ⟨q, there, .refl q⟩⟩

theorem trans (first : Calms s s') (second : Calms s' s'') : Calms s s'' := by
  refine ⟨fun u => (second.live u).trans (first.live u), fun u r after => ?_⟩
  obtain ⟨q, middle, calm⟩ := second.before u r after
  obtain ⟨p, there, calm'⟩ := first.before u q middle
  exact ⟨p, there, calm'.trans calm⟩

theorem modify (calm : ∀ p, Calm p (f p)) : Calms s (s.modify t f) := by
  refine ⟨fun u => modify_live .., fun u q after => ?_⟩
  obtain ⟨p, there, ⟨_, rfl⟩ | ⟨_, rfl⟩⟩ := modify_some after
  · exact ⟨q, there, .refl q⟩
  · exact ⟨p, there, calm p⟩

theorem clearAwaiters (s : Promises) (args : List TaskId) : Calms s (s.setAwaiters args .nobody) := by
  refine ⟨fun u => setAwaiters_live .., fun u q after => ?_⟩
  obtain ⟨p, there, ⟨_, rfl⟩ | ⟨_, rfl⟩⟩ := setAwaiters_some after
  · exact ⟨q, there, .refl q⟩
  · exact ⟨p, there, rfl, rfl, rfl, .inr rfl, .inl rfl⟩

theorem clearAwaiter (cleared : s.clearAwaiter awaiter = some s') : Calms s s' := by
  unfold Promises.clearAwaiter at cleared
  split at cleared
  · rename_i a
    obtain ⟨aw, there, rfl⟩ := Option.map_eq_some_iff.mp cleared
    split
    · refine ⟨fun u => ?_, fun u q after => ?_⟩
      · by_cases same : u = a
        · subst same
          rw [set_self, there]
          rfl
        · rw [set_ne _ _ same]
      · by_cases same : u = a
        · subst same
          rw [set_self] at after
          cases Option.some.inj after
          exact ⟨aw, there, rfl, rfl, rfl, .inl rfl, .inr rfl⟩
        · rw [set_ne _ _ same] at after
          exact ⟨q, after, .refl q⟩
    · exact refl s
  all_goals
    cases Option.some.inj cleared
    exact refl s

end Calms
end Promises

namespace Coroutines

open Promises

variable {w w' : Coroutines} {t : TaskId} {fuel : Nat} {ts : List TaskId}

/-- The promises change calmly, and events trigger. -/
structure Calms (w w' : Coroutines) : Prop where
  promises : Promises.Calms w.promises w'.promises
  next : w'.next = w.next
  nextEvent : w.nextEvent ≤ w'.nextEvent
  races : w'.races = w.races
  freed : w'.freed = w.freed
  triggered : ∀ e ∈ w.triggered, e ∈ w'.triggered
  obtained : w'.obtained = w.obtained
  wanted : w'.wanted = w.wanted

theorem Calms.refl (w : Coroutines) : Calms w w := ⟨.refl _, rfl, Nat.le_refl _, rfl, rfl, fun _ => id, rfl, rfl⟩

theorem Calms.trans {w'' : Coroutines} (first : Calms w w') (second : Calms w' w'') : Calms w w'' where
  promises := first.promises.trans second.promises
  next := second.next.trans first.next
  nextEvent := Nat.le_trans first.nextEvent second.nextEvent
  races := second.races.trans first.races
  freed := second.freed.trans first.freed
  triggered e member := second.triggered e (first.triggered e member)
  obtained := second.obtained.trans first.obtained
  wanted := second.wanted.trans first.wanted

theorem modify_calms {f : Promise → Promise} (calm : ∀ p, Calm p (f p)) : Calms w (w.modify t f) :=
  ⟨.modify calm, rfl, Nat.le_refl _, rfl, rfl, fun _ => id, rfl, rfl⟩

theorem trigger_calms (w : Coroutines) (h : Handle) : Calms w (w.trigger h) :=
  ⟨.refl _, rfl, Nat.le_refl _, rfl, rfl, fun _ => List.mem_append_right _, rfl, rfl⟩

theorem resolutionPoint_calms (made : resolutionPoint fuel w t = some w') : Calms w w' := by
  induction fuel generalizing w t with
  | zero => contradiction
  | succ fuel ih =>
      obtain ⟨p, _, made⟩ := Option.bind_eq_some_iff.mp made
      have set : Calms w (w.modify t ({ · with resolving := true })) :=
        modify_calms fun _ => ⟨rfl, rfl, rfl, .inl rfl, .inl rfl⟩
      have here := set.trans (trigger_calms _ p.resolution)
      split at made
      · cases Option.some.inj made
        exact here
      · obtain ⟨aw, _, made⟩ := Option.bind_eq_some_iff.mp made
        split at made
        · exact here.trans (ih made)
        · cases Option.some.inj made
          exact here
      · obtain ⟨_, made⟩ := Option.ite_none_left_eq_some.mp made
        cases Option.some.inj made
        exact here.trans (trigger_calms _ _)

theorem pass_calms (w : Coroutines) (t : TaskId) : Calms w (w.pass t) :=
  modify_calms fun _ => ⟨rfl, rfl, rfl, .inl rfl, .inl rfl⟩

theorem awaitResume_calms (made : w.awaitResume t = some w') : Calms w w' := by
  obtain ⟨p, _, made⟩ := Option.bind_eq_some_iff.mp made
  obtain ⟨promises, cleared, rfl⟩ := Option.map_eq_some_iff.mp made
  exact ⟨.clearAwaiter cleared, rfl, Nat.le_refl _, rfl, rfl, fun _ => id, rfl, rfl⟩

/-- Races end: promises change calmly, and quorums are freed. -/
theorem endRaces_promises (w : Coroutines) (ts : List TaskId) : Promises.Calms w.promises (w.endRaces ts).promises := by
  induction ts generalizing w with
  | nil => exact .refl _
  | cons r ts ih =>
      refine Promises.Calms.trans ?_ (ih (w.endRace r))
      unfold endRace
      split
      · exact .refl _
      · exact .clearAwaiters _ _

theorem endRace_rest (w : Coroutines) (r : TaskId) :
    (w.endRace r).next = w.next ∧ (w.endRace r).triggered = w.triggered ∧ (w.endRace r).obtained = w.obtained ∧
      (w.endRace r).wanted = w.wanted := by
  unfold endRace
  split <;> exact ⟨rfl, rfl, rfl, rfl⟩

theorem endRaces_rest (w : Coroutines) (ts : List TaskId) :
    (w.endRaces ts).next = w.next ∧ (w.endRaces ts).triggered = w.triggered ∧
      (w.endRaces ts).obtained = w.obtained ∧ (w.endRaces ts).wanted = w.wanted := by
  induction ts generalizing w with
  | nil => exact ⟨rfl, rfl, rfl, rfl⟩
  | cons r ts ih =>
      obtain ⟨next, triggered, obtained, wanted⟩ := ih (w.endRace r)
      obtain ⟨next', triggered', obtained', wanted'⟩ := endRace_rest w r
      exact ⟨next.trans next', triggered.trans triggered', obtained.trans obtained', wanted.trans wanted'⟩

/-- What is left after frames are destroyed. -/
theorem destroy_some {u : TaskId} {q : Promise} (after : (w.destroy ts).promises u = some q) :
    u ∉ ts ∧ (w.endRaces ts).promises u = some q := Option.ite_none_left_eq_some.mp after

/-- A promise after a link is made. -/
structure Linked (t a : TaskId) (forwards : Bool) (u : TaskId) (p q : Promise) : Prop where
  home : q.home = p.home
  hasInterest : q.hasInterest = p.hasInterest
  interest : q.interest = p.interest
  awaiter : q.awaiter = if u = t then .task a else p.awaiter
  forward : q.forward = if u = a ∧ forwards = true then some t else p.forward

theorem link_some {a u : TaskId} {p q : Promise} (after : (w.link t a p).promises u = some q) :
    ∃ p', w.promises u = some p' ∧ Linked t a p.forwarded u p' q := by
  simp only [link] at after
  have awaits : ∀ q', ((w.trigger p.interest).modify t
      ({ · with awaiter := .task a, forwarded := false })).promises u = some q' →
        ∃ p', w.promises u = some p' ∧ Linked t a false u p' q' := by
    intro q' middle
    obtain ⟨p', there, ⟨other, rfl⟩ | ⟨same, rfl⟩⟩ := modify_some middle
    · exact ⟨q', there, rfl, rfl, rfl, (if_neg other).symm, (if_neg (by simp)).symm⟩
    · exact ⟨p', there, rfl, rfl, rfl, (if_pos same).symm, (if_neg (by simp)).symm⟩
  split at after
  · rename_i forwards
    obtain ⟨q', middle, ⟨other, rfl⟩ | ⟨same, rfl⟩⟩ := modify_some after
    · obtain ⟨p', there, linked⟩ := awaits q middle
      exact ⟨p', there, linked.home, linked.hasInterest, linked.interest, linked.awaiter,
        (linked.forward.trans (if_neg (by simp))).trans (if_neg fun both => other both.1).symm⟩
    · obtain ⟨p', there, linked⟩ := awaits q' middle
      exact ⟨p', there, linked.home, linked.hasInterest, linked.interest, linked.awaiter,
        (if_pos ⟨same, forwards⟩).symm⟩
  · rename_i plain
    obtain ⟨p', there, linked⟩ := awaits q after
    refine ⟨p', there, linked.home, linked.hasInterest, linked.interest, linked.awaiter, ?_⟩
    rw [linked.forward, if_neg (by simp), if_neg fun both => plain both.2]

theorem link_live (w : Coroutines) (t a u : TaskId) (p : Promise) :
    ((w.link t a p).promises u).isSome = (w.promises u).isSome := by
  unfold link
  split
  · exact (modify_live ..).trans (modify_live ..)
  · exact modify_live ..

/-- How `prepare_awaiter` ends. -/
theorem prepareAwaiter_cases {a : TaskId} {ends : Ends} (made : w.prepareAwaiter fuel t a = some (ends, w')) :
    ∃ p aw, w.promises t = some p ∧ w.promises a = some aw ∧
      (p.home ≠ aw.home ∧ ends = .crossDriver ∧ w' = w ∨
        p.home = aw.home ∧ p.detached = true ∧ ends = .detachedAwait ∧ w' = w ∨
        p.home = aw.home ∧ (ends = .suspends ∨ ends = .transfers) ∧ Calms (w.link t a p) w') := by
  obtain ⟨p, there, made⟩ := Option.bind_eq_some_iff.mp made
  obtain ⟨aw, awaiter, made⟩ := Option.bind_eq_some_iff.mp made
  refine ⟨p, aw, there, awaiter, ?_⟩
  by_cases differs : p.home ≠ aw.home
  · rw [if_pos differs] at made
    cases Option.some.inj made
    exact .inl ⟨differs, rfl, rfl⟩
  · rw [if_neg differs] at made
    have same := not_not.mp differs
    by_cases detached : p.detached = true
    · rw [if_pos detached] at made
      cases Option.some.inj made
      exact .inr (.inl ⟨same, detached, rfl, rfl⟩)
    · rw [if_neg detached] at made
      refine .inr (.inr ⟨same, ?_⟩)
      split at made
      · obtain ⟨active, _, made⟩ := Option.bind_eq_some_iff.mp made
        split at made
        · cases Option.some.inj made
          exact ⟨.inr rfl, pass_calms _ t⟩
        · obtain ⟨w₁, pointed, made⟩ := Option.map_eq_some_iff.mp made
          cases made
          exact ⟨.inl rfl, resolutionPoint_calms pointed⟩
      · cases Option.some.inj made
        exact ⟨.inl rfl, .refl _⟩

/-! What a step can do. -/

/-- What becomes of the task objects. -/
def moved (w : Coroutines) : Label → Coroutines
  | .detach t _ => w.move t []
  | .move t into => w.move t into
  | _ => w

theorem moved_eq (w : Coroutines) (l : Label) : ∃ races, w.moved l = { w with races } := by
  cases l <;> exact ⟨_, rfl⟩

/-- The awaiter of a task that completes is a coroutine, which is resumed directly. -/
def resumesAwaiter (p : Promise) : Bool :=
  match p.awaiter with
  | .task _ => !p.inResolve
  | .nobody | .event _ => false

/-- The frames that a step destroys. -/
def victims (w : Coroutines) : Label → List TaskId
  | .destroy ts => ts
  | .detach t owned => if (w.promises t).any (·.resolving) then t :: owned else []
  | .point t owned =>
    if (w.promises t).any fun p => p.detached && w.promises.activeAwaiter w.next p.awaiter == some none then t :: owned
    else []
  | .finish t owned => if (w.promises t).any fun p => p.detached && !resumesAwaiter p then t :: owned else []
  | _ => []

inductive Change (w : Coroutines) : Label → Coroutines → Prop
  | created (home : DriverId) :
      Change w (.create home) { w with promises := w.promises.set w.next { home }, next := w.next + 1 }
  | calm {l : Label} {w' : Coroutines} (calms : Calms (w.moved l) w') : Change w l w'
  | destroyed {l : Label} {w' : Coroutines} (calms : Calms (w.moved l) w') : Change w l (w'.destroy (w.victims l))
  | started {t : TaskId} {p : Promise} (there : w.promises t = some p) :
      Change w (.start t) { w.start t p with wanted := t :: w.wanted }
  | asked {t : TaskId} {p : Promise} (there : w.promises t = some p) :
      Change w (.interest t) { (w.makeInterest t p).2 with
        obtained := fun u => if u = t then (w.makeInterest t p).1 :: w.obtained u else w.obtained u }
  | prepared {t a : TaskId} {p aw : Promise} {w' : Coroutines} (there : w.promises t = some p)
      (awaiter : w.promises a = some aw) (same : p.home = aw.home) (calms : Calms (w.link t a p) w') :
      Change w (.prepare t a) { w' with wanted := t :: w'.wanted }
  | raced {r : TaskId} {p : Promise} {args : List TaskId} (there : w.promises r = some p) (idle : w.races r = none) :
      Change w (.race r args) (w.race r args)
  | ended {r : TaskId} {ended : Race} (racing : w.races r = some ended) : Change w (.after r) (w.endRace r)

theorem point_change {owned : List TaskId} (made : w.point t owned = some w') : Change w (.point t owned) w' := by
  obtain ⟨p, there, made⟩ := Option.bind_eq_some_iff.mp made
  obtain ⟨active, found, made⟩ := Option.bind_eq_some_iff.mp made
  cases active with
  | some a =>
      cases Option.some.inj made
      exact .calm (.refl w)
  | none =>
      obtain ⟨w₁, pointed, rfl⟩ := Option.map_eq_some_iff.mp made
      have calms := resolutionPoint_calms pointed
      by_cases detached : p.detached = true
      · have victims : w.victims (.point t owned) = t :: owned := by
          simp [victims, there, detached, found]
        rw [if_pos detached, ← victims]
        exact .destroyed calms
      · rw [if_neg detached]
        exact .calm calms

theorem finish_change {owned : List TaskId} (made : w.finish t owned = some w') : Change w (.finish t owned) w' := by
  obtain ⟨p, there, made⟩ := Option.bind_eq_some_iff.mp made
  obtain ⟨w₁, pointed, made⟩ := Option.bind_eq_some_iff.mp made
  have start : Calms w { w with done := t :: w.done } :=
    ⟨.refl _, rfl, Nat.le_refl _, rfl, rfl, fun _ => id, rfl, rfl⟩
  have calms := start.trans (resolutionPoint_calms pointed)
  split at made
  · obtain ⟨_, _, rfl⟩ := Option.map_eq_some_iff.mp made
    exact .calm calms
  · rename_i plain
    cases Option.some.inj made
    have direct : resumesAwaiter p = false := by
      unfold resumesAwaiter
      split
      · rename_i a awaiter
        cases driven : p.inResolve with
        | true => rfl
        | false => exact absurd driven (plain a awaiter)
      · rfl
      · rfl
    by_cases detached : p.detached = true
    · have victims : w.victims (.finish t owned) = t :: owned := by
        simp [victims, there, detached, direct]
      rw [if_pos detached, ← victims]
      exact .destroyed calms
    · rw [if_neg detached]
      exact .calm calms

theorem step_change {l : Label} (made : w.step l = some w') : Change w l w' := by
  cases l with
  | create home =>
      cases Option.some.inj made
      exact .created home
  | destroy ts =>
      cases Option.some.inj made
      exact .destroyed (.refl w)
  | detach t owned =>
      obtain ⟨p, there, rfl⟩ := Option.map_eq_some_iff.mp made
      by_cases resolving : p.resolving = true
      · have victims : w.victims (.detach t owned) = t :: owned := by
          simp [victims, there, resolving]
        dsimp only
        rw [if_pos resolving, ← victims]
        exact .destroyed (.refl _)
      · dsimp only
        rw [if_neg resolving]
        exact .calm (modify_calms fun _ => ⟨rfl, rfl, rfl, .inl rfl, .inl rfl⟩)
  | move t into =>
      obtain ⟨p, _, rfl⟩ := Option.map_eq_some_iff.mp made
      exact .calm (.refl _)
  | forward t =>
      obtain ⟨p, _, rfl⟩ := Option.map_eq_some_iff.mp made
      split
      · exact .calm (.refl w)
      · exact .calm (modify_calms fun _ => ⟨rfl, rfl, rfl, .inl rfl, .inl rfl⟩)
  | start t =>
      obtain ⟨p, there, rfl⟩ := Option.map_eq_some_iff.mp made
      exact .started there
  | interest t =>
      obtain ⟨p, there, rfl⟩ := Option.map_eq_some_iff.mp made
      exact .asked there
  | resolution t =>
      obtain ⟨p, _, rfl⟩ := Option.map_eq_some_iff.mp made
      unfold resolution
      split
      · have set : Calms w (w.modify t ({ · with resolution := some w.nextEvent })) :=
          modify_calms fun _ => ⟨rfl, rfl, rfl, .inl rfl, .inl rfl⟩
        exact .calm (set.trans ⟨.refl _, rfl, Nat.le_succ _, rfl, rfl, fun _ => id, rfl, rfl⟩)
      · exact .calm (.refl w)
  | pass t =>
      obtain ⟨p, _, rfl⟩ := Option.map_eq_some_iff.mp made
      exact .calm (pass_calms w t)
  | drive t inResolve =>
      obtain ⟨p, _, rfl⟩ := Option.map_eq_some_iff.mp made
      exact .calm (modify_calms fun _ => ⟨rfl, rfl, rfl, .inl rfl, .inl rfl⟩)
  | prepare t a =>
      obtain ⟨⟨ends, w₁⟩, prepared, rfl⟩ := Option.map_eq_some_iff.mp made
      obtain ⟨p, aw, there, awaiter, refused | refused | ⟨same, ended, calms⟩⟩ := prepareAwaiter_cases prepared
      · obtain ⟨_, rfl, rfl⟩ := refused
        exact .calm (.refl _)
      · obtain ⟨_, _, rfl, rfl⟩ := refused
        exact .calm (.refl _)
      · rcases ended with rfl | rfl <;> exact .prepared there awaiter same calms
  | resume t => exact .calm (awaitResume_calms made)
  | point t owned => exact point_change made
  | finish t owned => exact finish_change made
  | race r args =>
      obtain ⟨p, there, made⟩ := Option.bind_eq_some_iff.mp made
      obtain ⟨idle, made⟩ := Option.ite_none_right_eq_some.mp made
      cases Option.some.inj made
      exact .raced there idle
  | after r =>
      obtain ⟨race, racing, rfl⟩ := Option.map_eq_some_iff.mp made
      exact .ended racing
  | trigger e =>
      obtain ⟨_, made⟩ := Option.ite_none_right_eq_some.mp made
      cases Option.some.inj made
      exact .calm (trigger_calms w (some e))

end Coroutines
end Cotamer.Task

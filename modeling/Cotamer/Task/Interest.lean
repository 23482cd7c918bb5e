import Cotamer.Task.Calm

/-! Interest in a task, and the interest events that the task has obtained. -/
namespace Cotamer.Task
open Event Transition

namespace Coroutines

open Promises

variable {w w' : Coroutines} {t a u : TaskId} {p : Promise} {h : Handle} {ts : List TaskId} {l : Label} {ls : List Label}

/-- Every interest event of a task that somebody wanted is triggered. -/
def Interested (w : Coroutines) : Prop := ∀ t ∈ w.wanted, ∀ h ∈ w.obtained t, w.isTriggered h = true

/-- A wanted task asks for interest only if it has before or was started, and a task
that has completed is started only if its interest events are triggered. -/
def Heeded (w : Coroutines) : Label → Prop
  | .interest t => t ∈ w.wanted → ∀ p, w.promises t = some p → p.hasInterest = true
  | .start t => t ∈ w.done → ∀ h ∈ w.obtained t, w.isTriggered h = true
  | _ => True

/-- A task obtains one event, which its promise keeps; without one it was started, if it
has interest at all. -/
structure Asked (w : Coroutines) : Prop where
  interested : w.Interested
  kept : ∀ t p, w.promises t = some p → ∀ h ∈ w.obtained t, h = none ∨ h = p.interest
  asked : ∀ t p, w.promises t = some p → p.interest.isSome = true → p.hasInterest = true ∧ p.interest ∈ w.obtained t
  fresh : ∀ t, w.next ≤ t → w.obtained t = [] ∧ w.promises t = none

theorem isTriggered_mono (grows : ∀ e ∈ w.triggered, e ∈ w'.triggered) (before : w.isTriggered h = true) :
    w'.isTriggered h = true := by
  cases h with
  | none => rfl
  | some e => exact decide_eq_true (grows e (of_decide_eq_true before))

theorem trigger_self (w : Coroutines) (h : Handle) : (w.trigger h).isTriggered h = true := by
  cases h with
  | none => rfl
  | some e => exact decide_eq_true List.mem_cons_self

/-- Interest stays as it is, and events trigger. -/
structure Leaves (w w' : Coroutines) : Prop where
  before : ∀ u q, w'.promises u = some q →
    ∃ p, w.promises u = some p ∧ q.hasInterest = p.hasInterest ∧ q.interest = p.interest
  next : w'.next = w.next
  triggered : ∀ e ∈ w.triggered, e ∈ w'.triggered
  obtained : w'.obtained = w.obtained
  wanted : w'.wanted = w.wanted

theorem Calms.leaves (calms : Calms w w') : Leaves w w' := by
  refine ⟨fun u q after => ?_, calms.next, calms.triggered, calms.obtained, calms.wanted⟩
  obtain ⟨p, there, calm⟩ := calms.promises.before u q after
  exact ⟨p, there, calm.hasInterest, calm.interest⟩

theorem destroy_leaves (w : Coroutines) (ts : List TaskId) : Leaves w (w.destroy ts) := by
  obtain ⟨next, triggered, obtained, wanted⟩ := endRaces_rest w ts
  refine ⟨fun u q after => ?_, next, fun e member => triggered ▸ member, obtained, wanted⟩
  obtain ⟨p, there, calm⟩ := (endRaces_promises w ts).before u q (destroy_some after).2
  exact ⟨p, there, calm.hasInterest, calm.interest⟩

theorem Asked.leaves (asked : w.Asked) (leaves : Leaves w w') : w'.Asked := by
  refine ⟨fun t member h among => ?_, fun t q after h among => ?_, fun t q after some => ?_, fun t new => ?_⟩
  · rw [leaves.wanted] at member
    rw [leaves.obtained] at among
    exact isTriggered_mono leaves.triggered (asked.interested t member h among)
  · obtain ⟨p, there, _, interest⟩ := leaves.before t q after
    rw [leaves.obtained] at among
    rw [interest]
    exact asked.kept t p there h among
  · obtain ⟨p, there, hasInterest, interest⟩ := leaves.before t q after
    rw [leaves.obtained, hasInterest, interest]
    exact asked.asked t p there (interest ▸ some)
  · rw [leaves.next] at new
    rw [leaves.obtained]
    refine ⟨(asked.fresh t new).1, ?_⟩
    cases after : w'.promises t with
    | none => rfl
    | some q =>
        obtain ⟨p, there, _⟩ := leaves.before t q after
        exact nomatch (asked.fresh t new).2.symm.trans there

/-- A task becomes wanted when its interest events are triggered. -/
theorem Asked.want (asked : w.Asked) (all : ∀ h ∈ w.obtained t, w.isTriggered h = true) :
    Asked { w with wanted := t :: w.wanted } := by
  refine ⟨fun u member => ?_, asked.kept, asked.asked, asked.fresh⟩
  rcases List.mem_cons.mp member with rfl | before
  · exact all
  · exact asked.interested u before

/-- A triggered interest event is all that the task has obtained. -/
theorem Asked.triggered (asked : w.Asked) (there : w.promises t = some p) (obtained : w'.obtained = w.obtained)
    (interest : w'.isTriggered p.interest = true) :
    ∀ h ∈ w'.obtained t, w'.isTriggered h = true := by
  intro h among
  rw [obtained] at among
  rcases asked.kept t p there h among with rfl | rfl
  · rfl
  · exact interest

theorem Asked.start (asked : w.Asked) (there : w.promises t = some p)
    (heeded : t ∈ w.done → ∀ h ∈ w.obtained t, w.isTriggered h = true) :
    Asked { w.start t p with wanted := t :: (w.start t p).wanted } := by
  unfold Coroutines.start
  split
  · rename_i done
    exact asked.want (heeded done)
  · split
    · exact (asked.leaves (trigger_calms w p.interest).leaves).want
        (asked.triggered there rfl (trigger_self w p.interest))
    · rename_i unasked
      have none : p.interest = none := Option.not_isSome_iff_eq_none.mp unasked
      have set : Asked (w.modify t ({ · with hasInterest := true })) := by
        refine ⟨asked.interested, fun u q after => ?_, fun u q after some => ?_, fun u new => ?_⟩
        · obtain ⟨p', there', ⟨_, rfl⟩ | ⟨_, rfl⟩⟩ := modify_some after
          · exact asked.kept u q there'
          · exact asked.kept u p' there'
        · obtain ⟨p', there', ⟨_, rfl⟩ | ⟨_, rfl⟩⟩ := modify_some after
          · exact asked.asked u q there' some
          · exact ⟨rfl, (asked.asked u p' there' some).2⟩
        · refine ⟨(asked.fresh u new).1, Option.not_isSome_iff_eq_none.mp ?_⟩
          rw [show (w.modify t _).promises u = w.promises.modify t _ u from rfl, modify_live, (asked.fresh u new).2]
          exact Bool.false_ne_true
      refine set.want (asked.triggered there rfl ?_)
      rw [none]
      rfl

theorem Asked.makeInterest (asked : w.Asked) (there : w.promises t = some p)
    (heeded : t ∈ w.wanted → p.hasInterest = true) : Asked { (w.makeInterest t p).2 with
      obtained := fun u => if u = t then (w.makeInterest t p).1 :: w.obtained u else w.obtained u } := by
  have old : ¬w.next ≤ t := fun new => nomatch (asked.fresh t new).2.symm.trans there
  unfold Coroutines.makeInterest
  split
  · -- the event of the first time, if it was not started before
    refine ⟨fun u member h among => ?_, fun u q there' h among => ?_, fun u q there' some => ?_, fun u new => ?_⟩
    · simp only at among
      split at among
      · rename_i same
        subst same
        rcases List.mem_cons.mp among with rfl | before
        · cases interest : p.interest with
          | none => rfl
          | some e =>
              have mine := (asked.asked u p there (by rw [interest]; rfl)).2
              exact asked.interested u member _ (interest ▸ mine)
        · exact asked.interested u member h before
      · exact asked.interested u member h among
    · simp only at among
      split at among
      · rename_i same
        subst same
        cases Option.some.inj (there.symm.trans there')
        exact (List.mem_cons.mp among).elim .inr (asked.kept u p there h)
      · exact asked.kept u q there' h among
    · obtain ⟨hasInterest, member⟩ := asked.asked u q there' some
      refine ⟨hasInterest, ?_⟩
      simp only
      split
      · exact List.mem_cons_of_mem _ member
      · exact member
    · refine ⟨?_, (asked.fresh u new).2⟩
      simp only
      rw [if_neg fun same : u = t => old (same ▸ new)]
      exact (asked.fresh u new).1
  · rename_i unasked
    have unwanted : t ∉ w.wanted := fun member => unasked (heeded member)
    have none : p.interest = none := by
      cases interest : p.interest with
      | none => rfl
      | some e => exact absurd (asked.asked t p there (by rw [interest]; rfl)).1 unasked
    refine ⟨fun u member h among => ?_, fun u q after h among => ?_, fun u q after some => ?_, fun u new => ?_⟩
    · simp only at among
      rw [if_neg fun same : u = t => unwanted (same ▸ member)] at among
      exact asked.interested u member h among
    · obtain ⟨p', there', ⟨other, rfl⟩ | ⟨same, rfl⟩⟩ := modify_some after
      · simp only at among
        rw [if_neg other] at among
        exact asked.kept u q there' h among
      · subst same
        simp only [if_true] at among
        cases Option.some.inj (there.symm.trans there')
        rcases List.mem_cons.mp among with rfl | before
        · exact .inr rfl
        · rcases asked.kept u p there h before with gone | same
          · exact .inl gone
          · exact .inl (same.trans none)
    · obtain ⟨p', there', ⟨other, rfl⟩ | ⟨same, rfl⟩⟩ := modify_some after
      · simp only
        rw [if_neg other]
        exact asked.asked u q there' some
      · subst same
        simp only [if_true]
        exact ⟨trivial, List.mem_cons_self⟩
    · have other : u ≠ t := fun same => old (same ▸ new)
      refine ⟨?_, (modify_ne other).trans (asked.fresh u new).2⟩
      simp only
      rw [if_neg other]
      exact (asked.fresh u new).1

theorem link_leaves (w : Coroutines) (t a : TaskId) (p : Promise) : Leaves w (w.link t a p) := by
  have rest : (w.link t a p).next = w.next ∧ (w.link t a p).obtained = w.obtained ∧
      (w.link t a p).wanted = w.wanted ∧ (w.link t a p).triggered = (w.trigger p.interest).triggered := by
    unfold link
    split <;> exact ⟨rfl, rfl, rfl, rfl⟩
  obtain ⟨next, obtained, wanted, triggered⟩ := rest
  refine ⟨fun u q after => ?_, next, fun e member => ?_, obtained, wanted⟩
  · obtain ⟨p', there, linked⟩ := link_some after
    exact ⟨p', there, linked.hasInterest, linked.interest⟩
  · rw [triggered]
    exact (trigger_calms w p.interest).triggered e member

/-- Whoever awaits a task triggers the interest event that it has. -/
theorem Asked.prepare (asked : w.Asked) (there : w.promises t = some p) (calms : Calms (w.link t a p) w') :
    Asked { w' with wanted := t :: w'.wanted } := by
  have linked := link_leaves w t a p
  have interest : (w.link t a p).isTriggered p.interest = true := by
    have same : (w.link t a p).triggered = (w.trigger p.interest).triggered := by
      unfold link
      split <;> rfl
    exact isTriggered_mono (fun e member => same ▸ member) (trigger_self w p.interest)
  refine ((asked.leaves linked).leaves calms.leaves).want ?_
  refine asked.triggered there (calms.obtained.trans linked.obtained) ?_
  exact isTriggered_mono calms.triggered interest

theorem Asked.create (asked : w.Asked) (home : DriverId) :
    Asked { w with promises := w.promises.set w.next { home }, next := w.next + 1 } := by
  have old : ∀ {u q}, w.promises.set w.next { home } u = some q →
      u = w.next ∧ q = { home } ∨ w.promises u = some q := by
    intro u q after
    by_cases new : u = w.next
    · subst new
      rw [set_self] at after
      exact .inl ⟨rfl, (Option.some.inj after).symm⟩
    · rw [set_ne _ _ new] at after
      exact .inr after
  refine ⟨asked.interested, fun u q after h among => ?_, fun u q after some => ?_, fun u new => ?_⟩
  · rcases old after with ⟨rfl, _⟩ | there
    · have among' : h ∈ w.obtained w.next := among
      rw [(asked.fresh _ (Nat.le_refl _)).1] at among'
      exact absurd among' List.not_mem_nil
    · exact asked.kept u q there h among
  · rcases old after with ⟨_, rfl⟩ | there
    · contradiction
    · exact asked.asked u q there some
  · have later : w.next < u := new
    exact ⟨(asked.fresh u (Nat.le_of_lt later)).1,
      (set_ne _ _ (Nat.ne_of_gt later)).trans (asked.fresh u (Nat.le_of_lt later)).2⟩

theorem Asked.moved (asked : w.Asked) (l : Label) : (w.moved l).Asked := by
  obtain ⟨races, same⟩ := moved_eq w l
  rw [same]
  exact ⟨asked.interested, asked.kept, asked.asked, asked.fresh⟩

theorem step_asked (asked : w.Asked) (heeded : w.Heeded l) (made : w.step l = some w') : w'.Asked := by
  cases step_change made with
  | created home => exact asked.create home
  | calm calms => exact (asked.moved l).leaves calms.leaves
  | destroyed calms => exact ((asked.moved l).leaves calms.leaves).leaves (destroy_leaves _ _)
  | @started t p there =>
      have wanted : (w.start t p).wanted = w.wanted := by
        unfold start
        split
        · rfl
        · split <;> rfl
      have started := asked.start there heeded
      rwa [wanted] at started
  | asked there => exact asked.makeInterest there fun member => heeded member _ there
  | prepared there awaiter same calms => exact asked.prepare there calms
  | raced there idle =>
      refine asked.leaves ⟨fun u q after => ?_, rfl, fun _ => id, rfl, rfl⟩
      obtain ⟨p, there, ⟨_, rfl⟩ | ⟨_, rfl⟩⟩ := setAwaiters_some after
      · exact ⟨q, there, rfl, rfl⟩
      · exact ⟨p, there, rfl, rfl⟩
  | ended racing =>
      refine asked.leaves ?_
      obtain ⟨next, triggered, obtained, wanted⟩ := endRace_rest w _
      refine ⟨fun u q after => ?_, next, fun e member => triggered ▸ member, obtained, wanted⟩
      obtain ⟨p, there, calm⟩ := (endRaces_promises w [_]).before u q after
      exact ⟨p, there, calm.hasInterest, calm.interest⟩

theorem initial_asked : Asked {} where
  interested _ member := absurd member List.not_mem_nil
  kept _ _ there := nomatch there
  asked _ _ there := nomatch there
  fresh _ _ := ⟨rfl, rfl⟩

/-- Interest is not lost in a run in which a task that is awaited asks for it only if it
did so before or was started: a coroutine that starts to wait triggers the event that is
there, and leaves no word for one that is made later. -/
theorem interest_kept (heeded : Meets step Heeded {} ls) : Always step Interested {} ls := by
  have asked : Always step Asked {} ls := always_of_meets (fun asked heeded made => step_asked asked heeded made)
    heeded initial_asked
  exact asked.mono fun _ asked => asked.interested

/-- One task asks before it is awaited, and another after it was started. -/
theorem interest_kept_both :
    let ls : List Label := [.create 0, .create 0, .create 0, .interest 0, .prepare 0 2, .interest 0, .start 1,
      .interest 1]
    (run step {} ls).isSome = true ∧ Always step Interested {} ls := by
  intro ls
  refine ⟨by decide, interest_kept ?_⟩
  refine .cons rfl trivial (.cons rfl trivial (.cons rfl trivial (.cons rfl ?_ (.cons rfl trivial
    (.cons rfl ?_ (.cons rfl ?_ (.cons rfl ?_ trivial)))))))
  · exact fun member => nomatch member
  · intro _ p there
    cases Option.some.inj there
    rfl
  · exact fun member => nomatch member
  · intro _ p there
    cases Option.some.inj there
    rfl

/-- A task is awaited, and then asks for interest. -/
theorem interest_after_await_lost :
    let ls : List Label := [.create 0, .create 0, .prepare 0 1, .interest 0]
    ∃ w, Reaches step {} ls w ∧ ¬w.Interested := by
  intro ls
  have runs : (run step {} ls).map (fun w => (w.wanted, w.obtained 0, w.triggered)) =
      some ([0], [some 0], []) := by decide
  obtain ⟨w, ran, facts⟩ := Option.map_eq_some_iff.mp runs
  simp only [Prod.mk.injEq] at facts
  obtain ⟨wanted, obtained, triggered⟩ := facts
  refine ⟨w, run_iff_reaches.mp ran, fun interested => ?_⟩
  have triggers := interested 0 (by rw [wanted]; decide) (some 0) (by rw [obtained]; decide)
  rw [isTriggered, triggered] at triggers
  contradiction

end Coroutines
end Cotamer.Task

import Cotamer.Driver.Exit

/-! The virtual clock. It ticks once for each resumed coroutine and jumps to the
earliest timer, also when the ticks, or a deadline in the past, have put that
timer behind it. At the maximum of a 64-bit count a tick wraps. -/
namespace Cotamer.Driver
open Event Transition

variable {home : CoroutineId → DriverId} {me : DriverId} {s t u : Driver} {w : World} {loop : Loop}
  {l : Label} {ls : List Label}

/-- The clock does not jump to a timer that is behind it, and has not reached its maximum when
a coroutine makes it tick. -/
def Forward (me : DriverId) (s : Driver) : Label → Prop
  | .clock _ => ∀ t ∈ s.loop.timed.topTime?, (s.inbox me).asap = [] → s.loop.phase = .clock false →
      s.loop.snow ≤ t
  | .suspend => s.loop.phase ≠ .clearWatches → s.loop.phase ≠ .clearTimers → s.loop.phase ≠ .idle →
      s.loop.snow < 2 ^ 63 - 1
  | _ => True

/-- `steady_now` never decreases from one state of the run to a later one. -/
def Monotonic (home : CoroutineId → DriverId) (me : DriverId) (s : Driver) (ls : List Label) :
    Prop :=
  ∀ as bs cs t u, ls = as ++ bs ++ cs → Reaches (step home me) s as t →
    Reaches (step home me) t bs u → ∀ now now', t.loop.steadyNow now ≤ u.loop.steadyNow now'

@[simp]
theorem addUpdate_clock (l : Loop) (fd : Nat) : (l.addUpdate fd).snow = l.snow ∧
    (l.addUpdate fd).realTime = l.realTime := by
  unfold Loop.addUpdate
  split <;> exact ⟨rfl, rfl⟩

@[simp]
theorem applyFdUpdate_clock (l : Loop) (fd mask : Nat) : (l.applyFdUpdate fd mask).snow = l.snow ∧
    (l.applyFdUpdate fd mask).realTime = l.realTime := by
  unfold Loop.applyFdUpdate
  split <;> exact ⟨rfl, rfl⟩

@[simp]
theorem stepTime_real (l : Loop) : l.stepTime.realTime = l.realTime := by
  unfold Loop.stepTime
  split
  all_goals try rfl
  split <;> rfl

/-- Only the tick of a clock at its maximum goes back. -/
theorem stepTime_snow (l : Loop) (virtual : l.realTime = false) : l.snow ≤ l.stepTime.snow ↔
    (l.phase ≠ .clearWatches → l.phase ≠ .clearTimers → l.phase ≠ .idle → l.snow < 2 ^ 63 - 1) := by
  unfold Loop.stepTime
  split
  · rename_i phase
    simp [phase]
  · rename_i phase
    simp [phase]
  · rename_i phase
    simp [phase]
  · rename_i watches timers idle
    rw [if_neg (by simp [virtual])]
    exact (le_rep_succ l.snow).trans
      ⟨fun small _ _ _ => small, fun small => small watches timers idle⟩

theorem tick_real (l : Loop) (inbox : Inbox) (had : Bool) (now : Int) :
    (l.tick inbox had now).realTime = l.realTime := by
  unfold Loop.tick
  split
  · rfl
  · split
    · rfl
    · split <;> rfl

/-- Only the jump and the tick at the maximum set the clock back. -/
theorem step_clock (virtual : s.loop.realTime = false) (stays : l ≠ .setClock true)
    (nexts : s.next me w l = some loop) :
    loop.realTime = false ∧ (s.loop.snow ≤ loop.snow ↔ Forward me s l) := by
  cases l with
  | clock now =>
      simp only [next] at nexts
      split at nexts
      · rename_i had phase
        cases Option.some.inj nexts
        refine ⟨(tick_real _ _ _ _).trans virtual, ?_⟩
        simp only [Loop.tick, virtual, Forward, phase]
        cases top : s.loop.timed.topTime? with
        | none => simp
        | some t =>
            by_cases jumps : (s.inbox me).asap = [] ∧ had = false
            · simp [jumps]
            · have still : ((s.inbox me).asap.isEmpty && !had) = false := by simpa using jumps
              simp only [still, Bool.false_eq_true, if_false]
              refine ⟨fun _ t _ empty same => ?_, fun _ => le_refl _⟩
              cases same
              exact absurd ⟨empty, rfl⟩ jumps
      · contradiction
  | suspend =>
      simp only [next] at nexts
      split at nexts
      · cases Option.some.inj nexts
        exact ⟨(stepTime_real _).trans virtual, stepTime_snow _ virtual⟩
      · contradiction
  | _ =>
      simp only [next] at nexts
      (repeat' split at nexts) <;>
        first
        | contradiction
        | (cases Option.some.inj nexts; simp_all [Forward])

theorem Monotonic.tail (mono : Monotonic home me s (l :: ls)) (moved : s.step home me l = some t) :
    Monotonic home me t ls := by
  intro as bs cs u v split first second
  apply mono (l :: as) bs cs u v
  · rw [split]
    rfl
  · exact .next moved first
  · exact second

/-- A run that meets `Forward` and stays in virtual time. -/
theorem meets_clock (virtual : s.loop.realTime = false) (stays : ∀ l ∈ ls, l ≠ .setClock true)
    (path : Reaches (step home me) s ls t) (forward : Meets (step home me) (Forward me) s ls) :
    t.loop.realTime = false ∧ s.loop.snow ≤ t.loop.snow := by
  induction path with
  | refl => exact ⟨virtual, le_refl _⟩
  | next moved _ ih =>
      rw [List.forall_mem_cons] at stays
      obtain ⟨still, ahead⟩ := step_clock virtual stays.1 (step_iff.mp moved).2
      obtain ⟨real, later⟩ := ih still stays.2 (forward.2 _ moved)
      exact ⟨real, (ahead.mpr forward.1).trans later⟩

/-- In virtual time the clock is monotonic exactly if it never jumps to a timer
that is behind it, nor ticks at its maximum. -/
theorem clock_monotonic (virtual : s.loop.realTime = false) (stays : ∀ l ∈ ls, l ≠ .setClock true)
    (path : Reaches (step home me) s ls u) :
    Monotonic home me s ls ↔ Meets (step home me) (Forward me) s ls := by
  constructor
  · intro mono
    induction path with
    | refl => trivial
    | next moved rest ih =>
        rename_i s l t ls u
        rw [List.forall_mem_cons] at stays
        obtain ⟨still, ahead⟩ := step_clock virtual stays.1 (step_iff.mp moved).2
        have observed := mono [] [l] ls s t rfl (.refl s) (.next moved (.refl t)) 0 0
        simp only [Loop.steadyNow, virtual, still, Bool.false_eq_true, if_false] at observed
        exact .cons moved (ahead.mp observed) (ih still stays.2 (mono.tail moved))
  · rintro forward as bs cs t u rfl first second now now'
    rw [List.append_assoc] at stays forward
    have early : ∀ l ∈ as, l ≠ .setClock true := fun l member =>
      stays l (List.mem_append_left _ member)
    have late : ∀ l ∈ bs, l ≠ .setClock true := fun l member =>
      stays l (List.mem_append_right _ (List.mem_append_left _ member))
    obtain ⟨still, _⟩ := meets_clock virtual early first forward.front
    obtain ⟨real, later⟩ := meets_clock still late second (forward.suffix first).front
    simpa only [Loop.steadyNow, still, real, Bool.false_eq_true, if_false] using later

/-- A coroutine awaits a timer in the future. -/
theorem clock_monotonic_timer :
    Monotonic (fun _ => 0) 0 {} [.op .create, .op (.copy 0), .atTime 5 0, .op (.await 0 0),
      .enter false, .imports, .endCloses, .endAliquot, .endKeepalives, .endUpdates, .test 0,
      .clock 0] := by
  apply (clock_monotonic rfl (by simp) (run_iff_reaches.mp rfl)).mpr
  refine .cons rfl trivial (.cons rfl trivial (.cons rfl trivial (.cons rfl trivial ?_)))
  refine .cons rfl trivial (.cons rfl trivial (.cons rfl trivial (.cons rfl trivial ?_)))
  refine .cons rfl trivial (.cons rfl trivial (.cons rfl trivial (.cons rfl ?_ trivial)))
  intro t top _ _
  have same : some (5 : Int) = some t := top
  cases same
  show (0 : Int) ≤ 5
  decide

/-- A coroutine calls `at` with an event and a deadline one tick in the past. -/
theorem past_deadline_sets_clock_back :
    ∃ s t, Reaches (step (fun _ => 0) 0) {} [.op .create, .op (.copy 0), .atTime (-1) 0,
        .op (.await 0 0), .enter false, .imports, .endCloses, .endAliquot, .endKeepalives,
        .endUpdates, .test 0] s ∧ s.step (fun _ => 0) 0 (.clock 0) = some t ∧
      t.loop.steadyNow 0 = -1 ∧ s.loop.steadyNow 0 = 0 :=
  ⟨_, _, run_iff_reaches.mp rfl, rfl, by decide, rfl⟩

end Cotamer.Driver

import Cotamer.Driver

/-! When the loop returns. The exit test looks at timers, descriptors, the
migrate flag, guards and keepalives, but not at `asap_`: what the aliquot left
there, and what `process_clearing` put there, is still there when it passes. -/
namespace Cotamer
open Event Transition

/-- How many events `asap_` holds, once the aliquot is over. -/
def Loop.Counts (l : Loop) (held : Nat) : Prop :=
  match l.phase with
  | .keepalives => held = l.left ∧ l.posted = 0
  | .clearWatches | .clearTimers => l.left ≤ held
  | .updates | .test => held = l.left + l.posted
  | _ => True

namespace Driver

variable {home : CoroutineId → DriverId} {me : DriverId} {s t : Driver} {w w' : World} {loop : Loop}
  {l : Label} {ls : List Label} {os : List Op} {now : Int}

/-- The effect of several operations on the queues. -/
structure Delivered (me : DriverId) (os : List Op) (w w' : World) : Prop where
  inv : Inv w'
  flagged : (w.graph.inbox me).Flagged → (w'.graph.inbox me).Flagged
  grows : (∀ o ∈ os, o ≠ .popAsap me) → (w.graph.inbox me).asap <+: (w'.graph.inbox me).asap
  apart : (∀ o ∈ os, o.isRemote me = true) → (w'.graph.inbox me).asap = (w.graph.inbox me).asap
  visiting : (∀ o ∈ os, o.isRemote me = true ∨ o.isLocal me = true) →
    w'.outside.visiting me = w.outside.visiting me

theorem run_delivered (inv : Inv w) (ran : run (World.step home) w os = some w') :
    Delivered me os w w' := by
  induction os generalizing w with
  | nil =>
      cases Option.some.inj ran
      exact ⟨inv, id, fun _ => List.prefix_refl _, fun _ => rfl, fun _ => rfl⟩
  | cons o os ih =>
      obtain ⟨u, moved, rest⟩ := Option.bind_eq_some_iff.mp ran
      have first : Delivers me o w u := step_delivers inv moved
      have last := ih (inv.step moved) rest
      constructor
      · exact last.inv
      · exact fun h => last.flagged (first.flagged me h)
      · intro others
        rw [List.forall_mem_cons] at others
        exact (first.grows others.1).trans (last.grows others.2)
      · intro remote
        rw [List.forall_mem_cons] at remote
        exact (last.apart remote.2).trans (first.apart remote.1)
      · intro known
        rw [List.forall_mem_cons] at known
        exact (last.visiting known.2).trans (first.visiting known.1)

theorem step_iff : s.step home me l = some t ↔
    run (World.step home) s.world (s.ops me l) = some t.world ∧
      s.next me t.world l = some t.loop := by
  constructor
  · intro moved
    obtain ⟨w, ran, rest⟩ := Option.bind_eq_some_iff.mp moved
    obtain ⟨loop, nexts, rfl⟩ := Option.map_eq_some_iff.mp rest
    exact ⟨ran, nexts⟩
  · rintro ⟨ran, nexts⟩
    simp only [step, ran, nexts, Option.bind_some, Option.map_some]

/-- Every visit in the step wakes at most one coroutine of its driver, apart from
those on the visited event. -/
def Single (home : CoroutineId → DriverId) (me : DriverId) (s : Driver) (l : Label) : Prop :=
  Meets (World.step home) (Singles home) s.world (s.ops me l)

/-- The events of a driver run are a run of the events. -/
theorem step_kept (inv : Inv s.world) (kept : NoLost home s.world) (single : Single home me s l)
    (moved : s.step home me l = some t) : Inv t.world ∧ NoLost home t.world := by
  obtain ⟨ran, _⟩ := step_iff.mp moved
  apply (run_iff_reaches.mp ran).guarded (P := fun w => Inv w ∧ NoLost home w) _ single
  · exact ⟨inv, kept⟩
  · intro u o v both ok moved
    exact ⟨both.1.step moved, both.2.step both.1 ok moved⟩

/-! The loop between two visits. -/

/-- What holds of the driver in every phase. -/
structure Steady (me : DriverId) (s : Driver) : Prop where
  inv : Inv s.world
  flagged : (s.inbox me).Flagged
  still : s.loop.visits = false → s.loop.running = false ∧ s.world.outside.visiting me = none
  counts : s.loop.Counts (s.inbox me).asap.length

/-- A change of the loop that leaves its place and its counts alone. -/
structure Stays (l l' : Loop) : Prop where
  phase : l'.phase = l.phase
  left : l'.left = l.left
  posted : l'.posted = l.posted

theorem Stays.rfl {l : Loop} : Stays l l := ⟨Eq.refl _, Eq.refl _, Eq.refl _⟩

theorem Stays.trans {a b c : Loop} (first : Stays a b) (second : Stays b c) : Stays a c where
  phase := second.phase.trans first.phase
  left := second.left.trans first.left
  posted := second.posted.trans first.posted

theorem Stays.visits {l l' : Loop} (stays : Stays l l') : l'.visits = l.visits := by
  simp only [Loop.visits, stays.phase]

theorem Stays.counts {l l' : Loop} {held : Nat} (stays : Stays l l') (counts : l.Counts held) :
    l'.Counts held := by
  simpa only [Loop.Counts, stays.phase, stays.left, stays.posted] using counts

theorem addUpdate_stays (l : Loop) (fd : Nat) : Stays l (l.addUpdate fd) := by
  unfold Loop.addUpdate
  split <;> exact ⟨rfl, rfl, rfl⟩

theorem applyFdUpdate_stays (l : Loop) (fd mask : Nat) : Stays l (l.applyFdUpdate fd mask) := by
  unfold Loop.applyFdUpdate
  split <;> exact ⟨rfl, rfl, rfl⟩

theorem stepTime_stays (l : Loop) : Stays l l.stepTime := by
  unfold Loop.stepTime
  split
  case h_4 => split <;> exact ⟨rfl, rfl, rfl⟩
  all_goals exact .rfl

@[simp]
theorem addUpdate_running (l : Loop) (fd : Nat) : (l.addUpdate fd).running = l.running := by
  unfold Loop.addUpdate
  split <;> rfl

@[simp]
theorem applyFdUpdate_running (l : Loop) (fd mask : Nat) :
    (l.applyFdUpdate fd mask).running = l.running := by
  unfold Loop.applyFdUpdate
  split <;> rfl

@[simp]
theorem tick_running (l : Loop) (inbox : Inbox) (had : Bool) (now : Int) :
    (l.tick inbox had now).running = l.running := by
  unfold Loop.tick
  split
  · rfl
  · split
    · rfl
    · split <;> rfl

/-- Code on the driver's thread runs outside the loop or during a visit. -/
theorem Steady.visits (steady : Steady me s) (running : s.loop.running = true) :
    s.loop.visits = true := by
  cases visits : s.loop.visits with
  | true => rfl
  | false =>
      rw [(steady.still visits).1] at running
      contradiction

/-- Outside the loop and during a visit `asap_` may grow. -/
theorem Steady.counts_grow (steady : Steady me s)
    (busy : s.loop.phase = .idle ∨ s.loop.visits = true)
    (grows : (s.inbox me).asap <+: asap) : s.loop.Counts asap.length := by
  have counts := steady.counts
  have more := grows.length_le
  unfold Loop.Counts at counts ⊢
  rcases busy with idle | visits
  · rw [idle]
    trivial
  · unfold Loop.visits at visits
    split at counts <;> simp_all
    all_goals omega

/-- Who takes a step. -/
inductive Kind where
  | user        -- code on the driver's thread, or a close of `finish_migrate`
  | suspend     -- that code gives the thread back
  | remote      -- another thread, or the loop with nothing but its own fields
  | visit       -- the loop, at an event
  | turn        -- the loop, at no event

def Label.kind : Label → Kind
  | .op _ | .atTime .. | .keepalive _ | .guard | .unguard | .clear | .setClock _ | .watch _
  | .closeWatch .. | .closed _ => .user
  | .suspend => .suspend
  | .remote _ | .dropKeepalive | .update _ => .remote
  | .take | .call | .clearWatch .. | .clearTimer | .fdEvent .. | .timer => .visit
  | _ => .turn

theorem drops_local (list : List EventId) : ∀ o ∈ list.map Op.drop, o.isLocal me = true := by
  intro o member
  obtain ⟨n, _, rfl⟩ := List.mem_map.mp member
  rfl

theorem drops_remote (list : List EventId) : ∀ o ∈ list.map Op.drop, o.isRemote me = true := by
  intro o member
  obtain ⟨n, _, rfl⟩ := List.mem_map.mp member
  rfl

/-- Dropping handles leaves the queues alone. -/
theorem drops_inbox {ns : List EventId} (inv : Inv w)
    (ran : run (World.step home) w (ns.map .drop) = some w') : w'.graph.inbox = w.graph.inbox := by
  induction ns generalizing w with
  | nil =>
      cases Option.some.inj ran
      rfl
  | cons n ns ih =>
      obtain ⟨u, moved, rest⟩ := Option.bind_eq_some_iff.mp ran
      rw [ih (inv.step moved) rest]
      simp only [World.step] at moved
      split at moved
      · cases Option.some.inj moved
        rename_i owns
        obtain ⟨_, shrinks⟩ := deref_linked inv.deep (inv.linked.take owns)
        exact shrinks.inbox
      · contradiction

theorem nothing {p : Op → Prop} : ∀ o ∈ ([] : List Op), p o := fun _ member => nomatch member

/-! Steps of user code. -/

theorem user_next (kind : l.kind = .user) (nexts : s.next me w l = some loop) :
    (s.loop.userCode = true ∨ s.loop.phase = .closes) ∧ loop.running = s.loop.running ∧
      Stays s.loop loop := by
  cases l with
  | op o =>
      simp only [next, Option.ite_none_right_eq_some, Option.some.injEq, Bool.and_eq_true] at nexts
      obtain ⟨⟨⟨user, _⟩, _⟩, rfl⟩ := nexts
      exact ⟨.inl user, rfl, .rfl⟩
  | atTime t n =>
      simp only [next, Option.ite_none_right_eq_some, Option.some.injEq, Bool.and_eq_true] at nexts
      obtain ⟨⟨user, _⟩, rfl⟩ := nexts
      exact ⟨.inl user, rfl, rfl, rfl, rfl⟩
  | keepalive n =>
      simp only [next, Option.ite_none_right_eq_some, Option.some.injEq, Bool.and_eq_true] at nexts
      obtain ⟨⟨user, _⟩, rfl⟩ := nexts
      split
      · exact ⟨.inl user, rfl, .rfl⟩
      · exact ⟨.inl user, rfl, rfl, rfl, rfl⟩
  | guard =>
      simp only [next, Option.ite_none_left_eq_some, Bool.not_eq_true', Bool.not_eq_false] at nexts
      obtain ⟨user, nexts⟩ := nexts
      split at nexts <;> cases Option.some.inj nexts
      · exact ⟨.inl user, rfl, .rfl⟩
      · exact ⟨.inl user, rfl, rfl, rfl, rfl⟩
  | unguard =>
      simp only [next, Option.ite_none_right_eq_some, Option.some.injEq, Bool.and_eq_true] at nexts
      obtain ⟨⟨user, _⟩, rfl⟩ := nexts
      exact ⟨.inl user, rfl, rfl, rfl, rfl⟩
  | clear | setClock real =>
      simp only [next, Option.ite_none_right_eq_some, Option.some.injEq] at nexts
      obtain ⟨user, rfl⟩ := nexts
      exact ⟨.inl user, rfl, rfl, rfl, rfl⟩
  | watch fd =>
      simp only [next, Option.ite_none_right_eq_some, Option.some.injEq] at nexts
      obtain ⟨user, rfl⟩ := nexts
      exact ⟨.inl user, addUpdate_running .., (addUpdate_stays s.loop fd).trans ⟨rfl, rfl, rfl⟩⟩
  | closeWatch fd n =>
      simp only [next, Option.ite_none_right_eq_some, Option.some.injEq, Bool.and_eq_true,
        Bool.or_eq_true, beq_iff_eq] at nexts
      obtain ⟨⟨by', _⟩, rfl⟩ := nexts
      exact ⟨by'.imp_right And.left, rfl, rfl, rfl, rfl⟩
  | closed fd =>
      have stays := (addUpdate_stays s.loop fd).trans (applyFdUpdate_stays _ fd 0)
      simp only [next] at nexts
      split at nexts
      · rename_i user
        cases Option.some.inj nexts
        exact ⟨.inl user, by simp only [applyFdUpdate_running, addUpdate_running], stays⟩
      · simp only [Option.ite_none_right_eq_some, Option.some.injEq] at nexts
        obtain ⟨⟨closes, _⟩, rfl⟩ := nexts
        exact ⟨.inr closes, by simp only [applyFdUpdate_running, addUpdate_running],
          stays.trans ⟨rfl, rfl, rfl⟩⟩
  | _ => contradiction

theorem user_ops (kind : l.kind = .user) (nexts : s.next me w l = some loop) :
    ∀ o ∈ s.ops me l, o.isLocal me = true := by
  cases l with
  | op o =>
      simp only [next, Option.ite_none_right_eq_some, Bool.and_eq_true] at nexts
      simpa [ops] using nexts.1.1.2
  | atTime t n => exact drops_local _
  | keepalive n =>
      simp only [ops]
      split
      · simp [Op.isLocal]
      · exact nothing
  | watch fd => simp [ops, Op.isLocal]
  | closeWatch fd n => simp [ops, Op.isLocal]
  | guard | unguard | clear | setClock real | closed fd => exact nothing
  | _ => contradiction

theorem Steady.user (steady : Steady me s) (kind : l.kind = .user)
    (ran : run (World.step home) s.world (s.ops me l) = some w)
    (nexts : s.next me w l = some loop) : Steady me ⟨w, loop⟩ := by
  obtain ⟨user, running, stays⟩ := user_next kind nexts
  have known := user_ops kind nexts
  have delivered : Delivered me _ s.world w := run_delivered steady.inv ran
  constructor
  · exact delivered.inv
  · exact delivered.flagged steady.flagged
  · intro idle
    obtain ⟨stopped, none⟩ := steady.still (stays.visits.symm.trans idle)
    exact ⟨running.trans stopped, (delivered.visiting fun o member => .inr (known o member)).trans none⟩
  · have grows := delivered.grows fun o member same => by
      have isLocal := known o member
      rw [same] at isLocal
      exact nomatch isLocal
    rcases user with user | closes
    · rw [Loop.userCode, Bool.or_eq_true, beq_iff_eq] at user
      exact stays.counts (steady.counts_grow (user.imp_right steady.visits) grows)
    · simp only [Loop.Counts, stays.phase, closes]

theorem Steady.suspend (steady : Steady me s)
    (ran : run (World.step home) s.world (s.ops me .suspend) = some w)
    (nexts : s.next me w .suspend = some loop) : Steady me ⟨w, loop⟩ := by
  simp only [next, Option.ite_none_right_eq_some, Option.some.injEq] at nexts
  obtain ⟨running, rfl⟩ := nexts
  cases Option.some.inj ran
  have stays : Stays s.loop { s.loop.stepTime with running := false } :=
    (stepTime_stays s.loop).trans ⟨rfl, rfl, rfl⟩
  constructor
  · exact steady.inv
  · exact steady.flagged
  · intro idle
    rw [stays.visits, steady.visits running] at idle
    contradiction
  · exact stays.counts steady.counts

/-! Steps of other threads. -/

theorem remote_next (kind : l.kind = .remote) (nexts : s.next me w l = some loop) :
    loop.running = s.loop.running ∧ Stays s.loop loop := by
  cases l with
  | remote o =>
      simp only [next, Option.ite_none_right_eq_some, Option.some.injEq] at nexts
      obtain ⟨_, rfl⟩ := nexts
      exact ⟨rfl, .rfl⟩
  | dropKeepalive =>
      simp only [next] at nexts
      split at nexts
      · simp only [Option.ite_none_right_eq_some, Option.some.injEq] at nexts
        obtain ⟨_, rfl⟩ := nexts
        exact ⟨rfl, rfl, rfl, rfl⟩
      · contradiction
  | update mask =>
      simp only [next] at nexts
      split at nexts
      · rename_i fd rest _
        simp only [Option.ite_none_right_eq_some, Option.some.injEq] at nexts
        obtain ⟨_, rfl⟩ := nexts
        have taken : Stays s.loop { s.loop with updates := rest } := ⟨rfl, rfl, rfl⟩
        exact ⟨applyFdUpdate_running .., taken.trans (applyFdUpdate_stays _ fd mask)⟩
      · contradiction
  | _ => contradiction

theorem remote_ops (kind : l.kind = .remote) (nexts : s.next me w l = some loop) :
    ∀ o ∈ s.ops me l, o.isRemote me = true := by
  cases l with
  | remote o =>
      simp only [next, Option.ite_none_right_eq_some, Bool.and_eq_true] at nexts
      simpa [ops] using nexts.1.1
  | dropKeepalive => exact drops_remote _
  | update mask => exact nothing
  | _ => contradiction

theorem Steady.remote (steady : Steady me s) (kind : l.kind = .remote)
    (ran : run (World.step home) s.world (s.ops me l) = some w)
    (nexts : s.next me w l = some loop) : Steady me ⟨w, loop⟩ := by
  obtain ⟨running, stays⟩ := remote_next kind nexts
  have remote := remote_ops kind nexts
  have delivered : Delivered me _ s.world w := run_delivered steady.inv ran
  constructor
  · exact delivered.inv
  · exact delivered.flagged steady.flagged
  · intro idle
    obtain ⟨stopped, none⟩ := steady.still (stays.visits.symm.trans idle)
    exact ⟨running.trans stopped,
      (delivered.visiting fun o member => .inl (remote o member)).trans none⟩
  · have counts := stays.counts steady.counts
    rwa [inbox, ← delivered.apart remote] at counts

/-! Visits. -/

/-- A visit is where it was, or at the next event of the aliquot. -/
theorem visit_next (kind : l.kind = .visit) (nexts : s.next me w l = some loop) :
    loop.visits = true ∧ (l ≠ .take ∧ Stays s.loop loop ∨ ∃ n, loop.phase = .aliquot n) := by
  cases l with
  | take =>
      simp only [next] at nexts
      split at nexts
      · simp only [Option.ite_none_right_eq_some, Option.some.injEq] at nexts
        obtain ⟨_, rfl⟩ := nexts
        exact ⟨rfl, .inr ⟨_, rfl⟩⟩
      · contradiction
  | call =>
      simp only [next, Option.ite_none_right_eq_some, Option.some.injEq, Bool.and_eq_true] at nexts
      obtain ⟨⟨visits, _⟩, rfl⟩ := nexts
      exact ⟨visits, .inl ⟨nofun, rfl, rfl, rfl⟩⟩
  | clearWatch fd n | fdEvent fd n =>
      simp only [next, Option.ite_none_right_eq_some, Option.some.injEq] at nexts
      obtain ⟨⟨phase, _⟩, rfl⟩ := nexts
      have stays := addUpdate_stays s.loop fd
      refine ⟨?_, .inl ⟨nofun, stays.trans ⟨rfl, rfl, rfl⟩⟩⟩
      simp only [Loop.visits, stays.phase, phase]
  | clearTimer | timer =>
      simp only [next, Option.ite_none_right_eq_some, Option.some.injEq] at nexts
      obtain ⟨⟨phase, _⟩, rfl⟩ := nexts
      refine ⟨?_, .inl ⟨nofun, rfl, rfl, rfl⟩⟩
      simp only [Loop.visits, phase]
  | _ => contradiction

theorem visit_ops (kind : l.kind = .visit) (other : l ≠ .take) :
    ∀ o ∈ s.ops me l, o ≠ .popAsap me := by
  cases l with
  | take => exact absurd rfl other
  | call | clearWatch fd n | fdEvent fd n | clearTimer | timer => simp [ops]
  | _ => contradiction

theorem Steady.visit (steady : Steady me s) (kind : l.kind = .visit)
    (ran : run (World.step home) s.world (s.ops me l) = some w)
    (nexts : s.next me w l = some loop) : Steady me ⟨w, loop⟩ := by
  obtain ⟨visits, place⟩ := visit_next kind nexts
  have delivered : Delivered me _ s.world w := run_delivered steady.inv ran
  constructor
  · exact delivered.inv
  · exact delivered.flagged steady.flagged
  · intro idle
    rw [visits] at idle
    contradiction
  · rcases place with ⟨other, stays⟩ | ⟨n, aliquot⟩
    · have grows := delivered.grows (visit_ops kind other)
      exact stays.counts (steady.counts_grow (.inr (stays.visits.symm.trans visits)) grows)
    · simp only [Loop.Counts, aliquot]

/-! Turns of the loop. -/

/-- The loop turns when no event is being visited. -/
theorem turn_next (kind : l.kind = .turn) (nexts : s.next me w l = some loop) :
    (s.quiet me = true ∨ s.loop.visits = false) ∧ loop.running = s.loop.running := by
  cases l with
  | enter | imports | wake =>
      simp only [next, Option.ite_none_right_eq_some, Option.some.injEq] at nexts
      obtain ⟨phase, rfl⟩ := nexts
      exact ⟨.inr (by simp only [Loop.visits, phase]), rfl⟩
  | endCloses | endUpdates =>
      simp only [next, Option.ite_none_right_eq_some, Option.some.injEq] at nexts
      obtain ⟨⟨phase, _⟩, rfl⟩ := nexts
      exact ⟨.inr (by simp only [Loop.visits, phase]), rfl⟩
  | endAliquot =>
      simp only [next] at nexts
      split at nexts
      · simp only [Option.ite_none_right_eq_some, Option.some.injEq, Bool.and_eq_true] at nexts
        obtain ⟨⟨_, quiet⟩, rfl⟩ := nexts
        exact ⟨.inl quiet, rfl⟩
      · contradiction
  | endKeepalives =>
      simp only [next, Option.ite_none_right_eq_some, Option.some.injEq] at nexts
      obtain ⟨⟨phase, _⟩, rfl⟩ := nexts
      refine ⟨.inr (by simp only [Loop.visits, phase]), ?_⟩
      split <;> rfl
  | endWatches =>
      simp only [next, Option.ite_none_right_eq_some, Option.some.injEq] at nexts
      obtain ⟨⟨_, quiet⟩, rfl⟩ := nexts
      exact ⟨.inl quiet, rfl⟩
  | endClearing | endTimers =>
      simp only [next, Option.ite_none_right_eq_some, Option.some.injEq] at nexts
      obtain ⟨⟨_, quiet, _⟩, rfl⟩ := nexts
      exact ⟨.inl quiet, rfl⟩
  | test now =>
      simp only [next, Option.ite_none_right_eq_some, Option.some.injEq] at nexts
      obtain ⟨phase, rfl⟩ := nexts
      refine ⟨.inr (by simp only [Loop.visits, phase]), ?_⟩
      split
      · rfl
      · split <;> rfl
  | endFdEvents =>
      simp only [next] at nexts
      split at nexts
      · simp only [Option.ite_none_right_eq_some, Option.some.injEq] at nexts
        obtain ⟨quiet, rfl⟩ := nexts
        exact ⟨.inl quiet, rfl⟩
      · contradiction
  | clock now =>
      simp only [next] at nexts
      split at nexts
      · rename_i phase
        cases Option.some.inj nexts
        exact ⟨.inr (by simp only [Loop.visits, phase]), tick_running ..⟩
      · contradiction
  | leave =>
      simp only [next] at nexts
      split at nexts
      · rename_i phase
        cases Option.some.inj nexts
        exact ⟨.inr (by simp only [Loop.visits, phase]), rfl⟩
      · contradiction
  | _ => contradiction

/-- Apart from `finish_migrate`, the loop only drops handles between two visits. -/
theorem turn_ops (kind : l.kind = .turn) (other : l ≠ .imports) :
    ∀ o ∈ s.ops me l, o.isRemote me = true := by
  cases l with
  | imports => exact absurd rfl other
  | endKeepalives =>
      simp only [ops]
      split
      · exact drops_remote _
      · exact nothing
  | test now => exact drops_remote _
  | enter | endCloses | endAliquot | endWatches | endClearing | endUpdates | wake | endFdEvents
  | clock | endTimers | leave => exact nothing
  | _ => contradiction

theorem turn_visiting (inv : Inv s.world) (kind : l.kind = .turn)
    (ran : run (World.step home) s.world (s.ops me l) = some w) :
    w.outside.visiting me = s.world.outside.visiting me := by
  by_cases same : l = .imports
  · subst same
    simp only [ops] at ran
    split at ran <;> cases Option.some.inj ran <;> rfl
  · have delivered : Delivered me _ s.world w := run_delivered inv ran
    exact delivered.visiting fun o member => .inl (turn_ops kind same o member)

/-- The counts are taken when the aliquot and `process_clearing` end. -/
theorem Steady.turn_counts (steady : Steady me s) (kind : l.kind = .turn)
    (same : l ≠ .imports → (w.graph.inbox me).asap = (s.inbox me).asap)
    (nexts : s.next me w l = some loop) : loop.Counts (w.graph.inbox me).asap.length := by
  have counts := steady.counts
  cases l with
  | enter | imports | wake | endCloses =>
      simp only [next, Option.ite_none_right_eq_some, Option.some.injEq] at nexts
      obtain ⟨_, rfl⟩ := nexts
      trivial
  | endAliquot =>
      rw [same nofun]
      simp only [next] at nexts
      split at nexts
      · simp only [Option.ite_none_right_eq_some, Option.some.injEq] at nexts
        obtain ⟨_, rfl⟩ := nexts
        exact ⟨rfl, rfl⟩
      · contradiction
  | endKeepalives =>
      rw [same nofun]
      simp only [next, Option.ite_none_right_eq_some, Option.some.injEq] at nexts
      obtain ⟨⟨phase, _⟩, rfl⟩ := nexts
      simp only [Loop.Counts, phase] at counts
      split
      · exact Nat.le_of_eq counts.1.symm
      · simp only [Loop.Counts]
        omega
  | endWatches | endUpdates =>
      rw [same nofun]
      simp only [next, Option.ite_none_right_eq_some, Option.some.injEq] at nexts
      obtain ⟨⟨phase, _⟩, rfl⟩ := nexts
      simpa only [Loop.Counts, phase] using counts
  | endClearing =>
      rw [same nofun]
      simp only [next, Option.ite_none_right_eq_some, Option.some.injEq] at nexts
      obtain ⟨⟨phase, _⟩, rfl⟩ := nexts
      simp only [Loop.Counts, phase] at counts
      exact (Nat.add_sub_cancel' counts).symm
  | test now =>
      simp only [next, Option.ite_none_right_eq_some, Option.some.injEq] at nexts
      obtain ⟨_, rfl⟩ := nexts
      split
      · trivial
      · split <;> trivial
  | endFdEvents =>
      simp only [next] at nexts
      split at nexts
      · simp only [Option.ite_none_right_eq_some, Option.some.injEq] at nexts
        obtain ⟨_, rfl⟩ := nexts
        trivial
      · contradiction
  | endTimers =>
      simp only [next, Option.ite_none_right_eq_some, Option.some.injEq] at nexts
      obtain ⟨_, rfl⟩ := nexts
      simp only [Loop.Counts]
      cases s.loop.poll <;> trivial
  | clock now | leave =>
      simp only [next] at nexts
      split at nexts
      · cases Option.some.inj nexts
        trivial
      · contradiction
  | _ => contradiction

theorem Steady.turn (steady : Steady me s) (kind : l.kind = .turn)
    (ran : run (World.step home) s.world (s.ops me l) = some w)
    (nexts : s.next me w l = some loop) : Steady me ⟨w, loop⟩ := by
  obtain ⟨quiet, running⟩ := turn_next kind nexts
  have delivered : Delivered me _ s.world w := run_delivered steady.inv ran
  have still : s.loop.running = false ∧ s.world.outside.visiting me = none := by
    rcases quiet with quiet | idle
    · simp only [Driver.quiet, Bool.and_eq_true, beq_iff_eq, Bool.not_eq_true'] at quiet
      exact ⟨quiet.2, quiet.1⟩
    · exact steady.still idle
  constructor
  · exact delivered.inv
  · exact delivered.flagged steady.flagged
  · intro _
    exact ⟨running.trans still.1, (turn_visiting steady.inv kind ran).trans still.2⟩
  · exact steady.turn_counts kind (fun other => delivered.apart (turn_ops kind other)) nexts

theorem Steady.step (steady : Steady me s) (moved : s.step home me l = some t) : Steady me t := by
  obtain ⟨ran, nexts⟩ := step_iff.mp moved
  cases kind : l.kind with
  | user => exact steady.user kind ran nexts
  | suspend =>
      cases l with
      | suspend => exact steady.suspend ran nexts
      | _ => contradiction
  | remote => exact steady.remote kind ran nexts
  | visit => exact steady.visit kind ran nexts
  | turn => exact steady.turn kind ran nexts

/-! What is left when the loop returns. -/

/-- Nothing is left to do for driver `me`. -/
structure Finished (home : CoroutineId → DriverId) (me : DriverId) (s : Driver) : Prop where
  asap : (s.inbox me).asap = []
  timed : s.loop.timed.isEmpty = true
  keepalives : s.loop.keepalives = []
  registrations : s.loop.nfdctl = 0
  guards : s.loop.guardCount = 0
  migrate : (s.inbox me).nonempty = false ∧ (s.inbox me).migrate = []
  nobody : ∀ c m, s.world.outside.waiting c = some m → (s.world.graph.body m).triggered = true →
    home c ≠ me

theorem calm_meets (calm : ∀ o ∈ os, ∀ d, o ≠ .driverTrigger d) :
    Meets (World.step home) (Singles home) w os := by
  induction os generalizing w with
  | nil => trivial
  | cons o os ih =>
      rw [List.forall_mem_cons] at calm
      refine ⟨?_, fun u _ => ih calm.2⟩
      cases o with
      | driverTrigger d => exact absurd rfl (calm.1 d)
      | _ => trivial

theorem steady_initial : Steady me {} where
  inv := inv_initial
  flagged _ := ⟨rfl, rfl⟩
  still _ := ⟨rfl, rfl⟩
  counts := trivial

theorem reached_kept (path : Reaches (step home me) {} ls s)
    (single : Meets (step home me) (Single home me) {} ls) :
    Steady me s ∧ NoLost home s.world := by
  apply path.guarded (P := fun s => Steady me s ∧ NoLost home s.world) _ single
  · refine ⟨steady_initial, ?_⟩
    intro c m waits
    exact nomatch waits
  · intro s l t both ok moved
    exact ⟨both.1.step moved, (step_kept both.1.inv both.2 ok moved).2⟩

/-- The aliquot took every event of `asap_`, and `process_clearing` put none there. -/
def Drained (me : DriverId) (s : Driver) : Label → Prop
  | .endAliquot | .endClearing => (s.inbox me).asap = []
  | _ => True

/-- The counts of an iteration that drains `asap_`. -/
def Clean (l : Loop) : Prop :=
  match l.phase with
  | .keepalives | .updates | .test => l.left = 0 ∧ l.posted = 0
  | .clearWatches | .clearTimers => l.left = 0
  | _ => True

theorem Stays.clean {l l' : Loop} (stays : Stays l l') (clean : Clean l) : Clean l' := by
  simpa only [Clean, stays.phase, stays.left, stays.posted] using clean

/-- A turn of the loop. -/
theorem turn_clean (kind : l.kind = .turn) (clean : Clean s.loop) (drained : Drained me s l)
    (nexts : s.next me w l = some loop) : Clean loop := by
  cases l with
  | endAliquot =>
      simp only [next] at nexts
      split at nexts
      · simp only [Option.ite_none_right_eq_some, Option.some.injEq] at nexts
        obtain ⟨_, rfl⟩ := nexts
        exact ⟨List.length_eq_zero_iff.mpr drained, rfl⟩
      · contradiction
  | endKeepalives =>
      simp only [next, Option.ite_none_right_eq_some, Option.some.injEq] at nexts
      obtain ⟨⟨phase, _⟩, rfl⟩ := nexts
      simp only [Clean, phase] at clean
      split
      · exact clean.1
      · exact clean
  | endWatches | endUpdates =>
      simp only [next, Option.ite_none_right_eq_some, Option.some.injEq] at nexts
      obtain ⟨⟨phase, _⟩, rfl⟩ := nexts
      simpa only [Clean, phase] using clean
  | endClearing =>
      simp only [next, Option.ite_none_right_eq_some, Option.some.injEq] at nexts
      obtain ⟨⟨phase, _⟩, rfl⟩ := nexts
      simp only [Clean, phase] at clean
      have empty : (s.inbox me).asap = [] := drained
      exact ⟨clean, by rw [empty, List.length_nil, Nat.zero_sub]⟩
  | endTimers =>
      simp only [next, Option.ite_none_right_eq_some, Option.some.injEq] at nexts
      obtain ⟨_, rfl⟩ := nexts
      simp only [Clean]
      cases s.loop.poll <;> trivial
  | test now =>
      simp only [next, Option.ite_none_right_eq_some, Option.some.injEq] at nexts
      obtain ⟨_, rfl⟩ := nexts
      split
      · trivial
      · split <;> trivial
  | enter | imports | endCloses | wake =>
      simp only [next, Option.ite_none_right_eq_some, Option.some.injEq] at nexts
      obtain ⟨_, rfl⟩ := nexts
      trivial
  | endFdEvents =>
      simp only [next] at nexts
      split at nexts
      · simp only [Option.ite_none_right_eq_some, Option.some.injEq] at nexts
        obtain ⟨_, rfl⟩ := nexts
        trivial
      · contradiction
  | clock now | leave =>
      simp only [next] at nexts
      split at nexts
      · cases Option.some.inj nexts
        trivial
      · contradiction
  | _ => contradiction

theorem clean_step (clean : Clean s.loop) (drained : Drained me s l)
    (nexts : s.next me w l = some loop) : Clean loop := by
  cases kind : l.kind with
  | user => exact (user_next kind nexts).2.2.clean clean
  | suspend =>
      cases l with
      | suspend =>
          simp only [next, Option.ite_none_right_eq_some, Option.some.injEq] at nexts
          obtain ⟨_, rfl⟩ := nexts
          exact ((stepTime_stays s.loop).trans ⟨rfl, rfl, rfl⟩).clean clean
      | _ => contradiction
  | remote => exact (remote_next kind nexts).2.clean clean
  | visit =>
      rcases (visit_next kind nexts).2 with ⟨_, stays⟩ | ⟨n, aliquot⟩
      · exact stays.clean clean
      · simp only [Clean, aliquot]
  | turn => exact turn_clean kind clean drained nexts

/-- When the loop reports that there is nothing left to do, there is nothing left
exactly if the aliquot left nothing in `asap_` and `process_clearing` put nothing
there. -/
theorem finished_iff (path : Reaches (step home me) {} ls s)
    (single : Meets (step home me) (Single home me) {} ls)
    (returns : s.step home me (.test now) = some t) (done : t.loop.phase = .returned false) :
    t.Finished home me ↔ s.loop.left = 0 ∧ s.loop.posted = 0 := by
  obtain ⟨steady, kept⟩ := reached_kept path single
  have after := steady.step returns
  have calm : Single home me s (.test now) := by
    apply calm_meets
    intro o member d same
    obtain ⟨n, _, rfl⟩ := List.mem_map.mp member
    cases same
  have lossless := (step_kept steady.inv kept calm returns).2
  obtain ⟨ran, nexts⟩ := step_iff.mp returns
  have delivered : Delivered me _ s.world t.world := run_delivered steady.inv ran
  have same : (t.inbox me).asap = (s.inbox me).asap := delivered.apart (drops_remote _)
  simp only [next] at nexts
  split at nexts
  · rename_i phase
    have counts := steady.counts
    simp only [Loop.Counts, phase] at counts
    rw [← same] at counts
    constructor
    · intro finished
      rw [finished.asap, List.length_nil] at counts
      omega
    · rintro ⟨left, posted⟩
      have empty : (t.inbox me).asap = [] := List.length_eq_zero_iff.mp (by omega)
      have loop := Option.some.inj nexts
      split at loop
      · rename_i finished
        have inbox := drops_inbox steady.inv ran
        have clear : (t.inbox me).nonempty = false := by
          simp only [Driver.inbox, inbox]
          simp only [Loop.finished, Bool.and_eq_true, Bool.not_eq_true'] at finished
          exact finished.1.1.2
        have still := after.still (by simp only [Loop.visits, done])
        simp only [Loop.finished, Bool.and_eq_true, beq_iff_eq, List.isEmpty_iff] at finished
        constructor
        · exact empty
        · rw [← loop]
          exact finished.1.1.1.1
        · rw [← loop]
          exact finished.2
        · rw [← loop]
          exact finished.1.1.1.2
        · rw [← loop]
          exact finished.1.2
        · exact ⟨clear, (after.flagged clear).1⟩
        · intro c m waits fired mine
          have comes := lossless c m waits fired
          rw [mine] at comes
          rcases comes with queued | visited
          · rw [Queued] at queued
            have asap : (t.world.graph.inbox me).asap = [] := empty
            have migrate : (t.world.graph.inbox me).migrate = [] := (after.flagged clear).1
            rw [asap, migrate] at queued
            simp at queued
          · rw [still.2] at visited
            cases visited
      · split at loop <;> rw [← loop] at done <;> contradiction
  · contradiction

/-- In every run whose iterations drain `asap_`, the loop reports that there is
nothing left to do only when there is nothing left. -/
theorem returns_finished (path : Reaches (step home me) {} ls s)
    (single : Meets (step home me) (Single home me) {} ls)
    (drained : Meets (step home me) (Drained me) {} ls)
    (returns : s.step home me (.test now) = some t) (done : t.loop.phase = .returned false) :
    t.Finished home me := by
  have clean : Clean s.loop := by
    apply path.guarded (P := fun s => Clean s.loop) _ drained
    · trivial
    · intro s l t clean drained moved
      exact clean_step clean drained (step_iff.mp moved).2
  have phase : s.loop.phase = .test := by
    have nexts := (step_iff.mp returns).2
    simp only [next] at nexts
    split at nexts
    · assumption
    · contradiction
  simp only [Clean, phase] at clean
  exact (finished_iff path single returns done).mpr clean

theorem single_of_one (only : ∀ c, s.world.outside.waiting c ≠ none → c = 0) :
    Single home me s .call :=
  ⟨singles_of_one only _, fun _ _ => trivial⟩

/-- Coroutine 0 waits on an event in `asap_`. -/
theorem returns_finished_asap :
    let ls : List Label := [.op .create, .op (.await 0 0), .op (.asap 0 0), .enter false, .imports,
      .endCloses, .take, .call, .suspend, .call, .endAliquot, .endKeepalives, .endUpdates]
    ∃ s t, Reaches (step (fun _ => 0) 0) {} ls s ∧ s.step (fun _ => 0) 0 (.test 0) = some t ∧
      t.loop.phase = .returned false ∧ t.Finished (fun _ => 0) 0 := by
  intro ls
  refine ⟨_, _, run_iff_reaches.mp rfl, rfl, rfl, ?_⟩
  have single : Meets (step (fun _ => 0) 0) (Single (fun _ => 0) 0) {} ls := by
    refine .cons rfl ⟨trivial, fun _ _ => trivial⟩ (.cons rfl ⟨trivial, fun _ _ => trivial⟩ ?_)
    refine .cons rfl ⟨trivial, fun _ _ => trivial⟩ (.cons rfl trivial (.cons rfl trivial ?_))
    refine .cons rfl trivial (.cons rfl ⟨trivial, fun _ _ => trivial⟩ ?_)
    refine .cons rfl (single_of_one fun c waits => ?_) (.cons rfl trivial ?_)
    · by_contra other
      exact waits (if_neg other)
    refine .cons rfl (single_of_one fun c waits => ?_) ?_
    · by_contra other
      exact waits ((if_neg other).trans (if_neg other))
    exact .cons rfl trivial (.cons rfl trivial (.cons rfl trivial trivial))
  have drained : Meets (step (fun _ => 0) 0) (Drained 0) {} ls := by
    refine .cons rfl trivial (.cons rfl trivial (.cons rfl trivial (.cons rfl trivial ?_)))
    refine .cons rfl trivial (.cons rfl trivial (.cons rfl trivial (.cons rfl trivial ?_)))
    refine .cons rfl trivial (.cons rfl trivial (.cons rfl rfl (.cons rfl trivial ?_)))
    exact .cons rfl trivial trivial
  exact returns_finished (run_iff_reaches.mp rfl) single drained rfl rfl

/-- Two coroutines wait. process_clearing resumes the first, which triggers the
event of the second; the loop returns with that event in `asap_`. -/
theorem returns_with_asap_work :
    ∃ s, Reaches (step (fun _ => 0) 0) {} [.op .create, .op .create, .op (.await 0 0),
        .op (.await 1 1), .atTime 5 0, .clear, .enter false, .imports, .endCloses, .endAliquot,
        .endKeepalives, .endWatches, .clearTimer, .call, .op (.trigger 1 0), .suspend, .call,
        .endClearing, .endUpdates, .test 0] s ∧ s.loop.phase = .returned false ∧
      (s.inbox 0).asap = [1] ∧ s.world.outside.waiting 1 = some 1 ∧
      (s.world.graph.body 1).triggered = true :=
  ⟨_, run_iff_reaches.mp rfl, rfl, rfl, rfl, rfl⟩

end Driver
end Cotamer

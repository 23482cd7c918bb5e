import Cotamer.Event.Threshold

/-! No lost wakeup. A coroutine on a triggered event finds it in a queue of its
home driver, or its home driver is visiting it. A driver that triggers an event
itself claims one of its own coroutines and posts nothing to itself, so this
needs that no other event it triggers has a second one. -/
namespace Cotamer.Event
open SwapVector References Transition

variable {home : CoroutineId → DriverId} {s t : World} {ops : List Op} {op : Op} {g g' : Graph}
  {n m : EventId} {c : CoroutineId} {d : DriverId} {k : Caller} {w w' : Wake} {o : Outside}

/-- Some queue of the coroutine's driver holds the event, or the driver is
visiting it. -/
def World.Comes (s : World) (d : DriverId) (m : EventId) : Prop :=
  Queued s.graph d m ∨ s.outside.visiting d = some m

def NoLost (home : CoroutineId → DriverId) (s : World) : Prop :=
  ∀ c m, s.outside.waiting c = some m → (s.graph.body m).triggered = true → s.Comes (home c) m

/-- Event `m` triggers when `n` does: it belongs to every set that contains `n`
and each waiting quorum with enough members in it. -/
def Graph.Falls (g : Graph) (n m : EventId) : Prop :=
  ∀ S : EventId → Bool, S n = true →
    (∀ q, (g.body q).isQuorum = true → (g.body q).triggered = false →
      (g.body q).quorum ≤ (g.body q).triggeredMembers + (g.body q).members.countP S → S q = true) →
    S m = true

/-- When driver `d` triggers `n`, a coroutine of `d` on another event that falls
and is in none of the driver's queues is the only coroutine of `d` to be woken. -/
def Alone (home : CoroutineId → DriverId) (s : World) (d : DriverId) (n : EventId) : Prop :=
  ∀ c m, s.outside.waiting c = some m → home c = d → s.graph.Falls n m → m ≠ n →
    ¬Queued s.graph d m →
    ∀ c' m', s.outside.waiting c' = some m' → home c' = d → s.graph.Falls n m' → c' = c

/-- The visits of a run that wake nobody twice over. -/
def Singles (home : CoroutineId → DriverId) (s : World) : Op → Prop
  | .driverTrigger d => ∀ n, s.outside.visiting d = some n →
      (s.graph.body n).triggered = false → Alone home s d n
  | _ => True

/-- Nothing is triggered that does not fall. -/
theorem newly_falls (inv : Inv s) (fresh : (s.graph.body n).triggered = false)
    (newly : Newly s.graph (triggerUnlock home k ⟨s.graph, none⟩ n).graph m) :
    s.graph.Falls n m := by
  -- the members and counts of the graph stand in for the argument positions
  let args : EventId → List Handle := fun q =>
    (s.graph.body q).members.map some ++ List.replicate (s.graph.body q).triggeredMembers none
  let explicit : EventId → Prop := fun q => q = n ∨ (s.graph.body q).triggered = true
  have positions : ∀ g q, triggeredArgs args g q =
      (s.graph.body q).triggeredMembers + (s.graph.body q).members.countP
        fun e => (g.body e).triggered := by
    intro g q
    have members : (g.handleTriggered ∘ some) = fun e => (g.body e).triggered := rfl
    have counts : g.handleTriggered none = true := rfl
    simp only [triggeredArgs, args, List.countP_append, List.countP_map, members,
      List.countP_replicate, counts, if_true]
    exact Nat.add_comm _ _
  have occurs : ∀ q e, (args q).count (some e) = (s.graph.body q).members.count e := by
    intro q e
    have spare : (List.replicate (s.graph.body q).triggeredMembers none).count (some e) = 0 :=
      List.count_eq_zero.mpr (by simp)
    rw [List.count_append, List.count_map_of_injective _ _ (Option.some_injective _), spare,
      Nat.add_zero]
  have counted : Counted args explicit none none s.graph := by
    constructor
    · exact fun q => Nat.le_of_eq (positions s.graph q).symm
    · exact fun q e => Nat.le_of_eq (occurs q e).symm
    · exact fun q fired => .inl (.inr fired)
    · exact fun q _ _ _ _ => ⟨positions s.graph q, fun e _ => (occurs q e).symm⟩
    · exact inv.counted.below
  have why : Due args explicit s.graph n := .inl (.inl rfl)
  have settles : Settles _ [] [] args explicit home k s.outside _ ⟨s.graph, none⟩ _ :=
    (triggerUnlock_settles inv.deep inv.linked counted.weaken fresh why inv.listening
      claims_none).1
  intro S root closed
  induction rank : rankOf s.graph m using Nat.strong_induction_on generalizing m with
  | h r ih =>
      rcases settles.counted.reached m newly.2 with (rfl | before) | ⟨quorum, enough⟩
      · exact root
      · rw [newly.1] at before
        contradiction
      · rw [settles.wakes.kinds] at quorum
        rw [settles.wakes.quorums, positions] at enough
        apply closed m quorum newly.1 (enough.trans (Nat.add_le_add_left _ _))
        apply List.countP_mono_left
        intro e member fired
        have below := (inv.linked.ranked e m member).1
        exact ih _ (rank ▸ below) ⟨inv.untriggeredMember member, fired⟩ rfl

/-! What an operation may do to the waiting coroutines. -/

/-- An operation after which every coroutine on a triggered event was there
before, and still finds the event. -/
theorem NoLost.keeps (kept : NoLost home s)
    (waits : ∀ c m, t.outside.waiting c = some m → (t.graph.body m).triggered = true →
      s.outside.waiting c = some m ∧ (s.graph.body m).triggered = true)
    (comes : ∀ d m, s.Comes d m → t.Comes d m) : NoLost home t := by
  intro c m waiting fired
  obtain ⟨before, old⟩ := waits c m waiting fired
  exact comes (home c) m (kept c m before old)

/-- `trigger` from outside the drivers, or the sealing of a quorum. -/
theorem NoLost.trigger (kept : NoLost home s) (wakes : Wakes home k s.outside none ⟨g, none⟩ w)
    (nobody : k.drv = none)
    (same : ∀ m, (g.body m).triggered = (s.graph.body m).triggered) (inbox : g.inbox = s.graph.inbox)
    (graph : t.graph = w.graph) (waiting : ∀ c, t.outside.waiting c = s.outside.waiting c)
    (visiting : t.outside.visiting = s.outside.visiting) : NoLost home t := by
  intro c m waits fired
  rw [waiting] at waits
  rw [graph] at fired
  rw [World.Comes, graph, visiting]
  cases before : (g.body m).triggered with
  | true =>
      apply (kept c m waits ((same m).symm.trans before)).imp _ id
      intro queued
      apply wakes.queues
      rw [Queued, inbox]
      exact queued
  | false =>
      have posted := wakes.posted c m ⟨before, fired⟩ waits
      rw [if_neg (by simp [nobody])] at posted
      exact .inl (posted (by rintro ⟨⟩))

theorem NoLost.combine (kept : NoLost home s) (inv : Inv s) (form : Form) (args : List Handle)
    (current : DriverId) (holds : args.all s.outside.holds = true) :
    NoLost home (s.combined home form args current) := by
  match args with
  | [] =>
      cases form with
      | any =>
          apply kept.keeps
          · intro c m waits fired
            rw [show (s.combined home .any [] current).graph = s.graph.alloc (freshBody false 0)
              from rfl, alloc_triggered false 0 (inv.untriggered (Nat.le_refl _))] at fired
            exact ⟨waits, fired⟩
          · exact fun _ _ comes => comes
      | all => exact kept
  | [h] =>
      have combined : NoLost home (s.combined home form [h] current) ↔
          NoLost home { s with graph := s.graph.copyHandle h, outside := s.outside.giveHandle h } := by
        cases form <;> rfl
      rw [combined]
      cases h with
      | none => exact kept
      | some n =>
          apply kept.keeps
          · intro c m waits fired
            simp only [Graph.copyHandle, ref_body_eq] at fired
            exact ⟨waits, fired⟩
          · exact fun _ _ comes => comes
  | h :: h' :: rest =>
      obtain ⟨opening, settles⟩ := make_settles inv home current (form.threshold (h :: h' :: rest)) holds
      apply kept.trigger settles.wakes rfl opening.triggered opening.inbox
      · cases form <;> rfl
      · cases form <;> exact fun _ => rfl
      · cases form <;> rfl

theorem visited_graph (s : World) (d : DriverId) (n : EventId) (unclaimed : w.coh = none)
    (ran : s.graph.driverTrigger home d n = w) : s.visited home d n = { s with
      graph := w.graph.deref n, outside := s.outside.visit d none, explicit := s.mark n } := by
  simp only [World.visited, ran, unclaimed]

theorem visited_claimed (s : World) (d : DriverId) (n : EventId) (claimed : w.coh = some c)
    (ran : s.graph.driverTrigger home d n = w) : s.visited home d n = { s with
      graph := w.graph
      outside := (s.outside.giveHandle (s.outside.waiting c)).wait c none
      explicit := s.mark n } := by
  simp only [World.visited, ran, claimed]

theorem giveHandle_waiting (o : Outside) (h : Handle) : (o.giveHandle h).waiting = o.waiting := by
  cases h <;> rfl

theorem giveHandle_visiting (o : Outside) (h : Handle) :
    (o.giveHandle h).visiting = o.visiting := by
  cases h <;> rfl

/-- A visit that is not over: the claimed coroutine leaves, the others find what
they are waiting for. -/
theorem NoLost.claimed (claimed : w.coh = some c) (ran : s.graph.driverTrigger home d n = w)
    (found : ∀ c' m, c' ≠ c → s.outside.waiting c' = some m → (w.graph.body m).triggered = true →
      Queued w.graph (home c') m ∨ s.outside.visiting (home c') = some m) :
    NoLost home (s.visited home d n) := by
  rw [visited_claimed s d n claimed ran]
  intro c' m waits fired
  simp only [Outside.wait, giveHandle_waiting] at waits
  split at waits
  · contradiction
  · rename_i other
    simp only [World.Comes, Outside.wait, giveHandle_visiting]
    exact found c' m other waits fired

/-- A visit that is over: nobody needed it any more. -/
theorem NoLost.unclaimed (inv : Inv s) (visits : s.outside.visiting d = some n)
    (unclaimed : w.coh = none) (ran : s.graph.driverTrigger home d n = w)
    (found : ∀ c m, s.outside.waiting c = some m → (w.graph.body m).triggered = true →
      Queued w.graph (home c) m ∨ home c ≠ d ∧ s.outside.visiting (home c) = some m) :
    NoLost home (s.visited home d n) := by
  have visit := driverTrigger_visits inv home d n
  rw [ran] at visit
  have deep : ∀ m, rankOf s.graph m ≤ w.graph.next := by
    rw [visit.evolves.next]
    exact inv.deep
  obtain ⟨_, shrinks⟩ := deref_linked deep (visit.linked.unvisit visits)
  rw [visited_graph s d n unclaimed ran]
  intro c m waits fired
  rw [shrinks.triggered] at fired
  apply (found c m waits fired).imp
  · intro queued
    rw [Queued, shrinks.inbox]
    exact queued
  · rintro ⟨other, visiting⟩
    simpa [Outside.visit, other] using visiting

/-- The first call of a visit, which triggers the event. -/
theorem NoLost.first_call (kept : NoLost home s) (inv : Inv s)
    (visits : s.outside.visiting d = some n) (fired : (s.graph.body n).triggered = false)
    (alone : Alone home s d n) : NoLost home (s.visited home d n) := by
  have ran : s.graph.driverTrigger home d n = triggerUnlock home ⟨some d, d⟩ ⟨s.graph, none⟩ n := by
    simp [Graph.driverTrigger, fired]
  have wakes := (trigger_settles inv home ⟨some d, d⟩ fired).1.wakes
  generalize woken : triggerUnlock home ⟨some d, d⟩ ⟨s.graph, none⟩ n = w at ran wakes
  have falls : ∀ m, Newly s.graph w.graph m → s.graph.Falls n m := by
    intro m newly
    rw [← woken] at newly
    exact newly_falls inv fired newly
  -- what triggered before the visit, and what other drivers wait for
  have elsewhere : ∀ c m, s.outside.waiting c = some m → (w.graph.body m).triggered = true →
      Queued w.graph (home c) m ∨ home c ≠ d ∧ s.outside.visiting (home c) = some m ∨
        home c = d ∧ Newly s.graph w.graph m := by
    intro c m waits up
    cases before : (s.graph.body m).triggered with
    | true =>
        rcases kept c m waits before with queued | visiting
        · exact .inl (wakes.queues _ _ queued)
        · refine .inr (.inl ⟨?_, visiting⟩)
          intro mine
          rw [mine, visits] at visiting
          cases visiting
          rw [fired] at before
          contradiction
    | false =>
        by_cases mine : home c = d
        · exact .inr (.inr ⟨mine, before, up⟩)
        · have posted := wakes.posted c m ⟨before, up⟩ waits
          rw [if_neg (fun same => mine (Option.some.inj same).symm)] at posted
          exact .inl (posted (by rintro ⟨⟩))
  cases claimed : w.coh with
  | none =>
      apply NoLost.unclaimed inv visits claimed ran
      intro c m waits up
      rcases elsewhere c m waits up with queued | visiting | ⟨mine, newly⟩
      · exact .inl queued
      · exact .inr visiting
      · have posted := wakes.posted c m newly waits
        rw [if_pos (congrArg some mine.symm)] at posted
        exact absurd claimed posted
  | some c =>
      apply NoLost.claimed claimed ran
      intro c' m other waits up
      rcases elsewhere c' m waits up with queued | visiting | ⟨mine, newly⟩
      · exact .inl queued
      · exact .inr visiting.2
      · by_cases root : m = n
        · rw [mine, visits, root]
          exact .inr rfl
        · by_cases queued : Queued s.graph d m
          · rw [mine]
            exact .inl (wakes.queues _ _ queued)
          · rcases wakes.claims c claimed with before | ⟨own, m', waits', newly'⟩
            · contradiction
            · have same := alone c' m waits mine (falls m newly) root queued c m' waits'
                (Option.some.inj own).symm (falls m' newly')
              exact absurd same.symm other

/-- A later call, which takes the next coroutine of this driver, or ends the visit. -/
theorem NoLost.later_call (kept : NoLost home s) (inv : Inv s)
    (visits : s.outside.visiting d = some n) (fired : (s.graph.body n).triggered = true) :
    NoLost home (s.visited home d n) := by
  cases found : (s.graph.body n).listeners.find? (Listener.isOn home d) with
  | none =>
      have ran : s.graph.driverTrigger home d n = ⟨s.graph, none⟩ := by
        simp [Graph.driverTrigger, fired, found]
      apply NoLost.unclaimed inv visits rfl ran
      intro c m waits up
      apply (kept c m waits up).imp id
      intro visiting
      refine ⟨?_, visiting⟩
      intro mine
      rw [mine, visits] at visiting
      cases visiting
      have listed : .coroutine c ∈ (s.graph.body n).listeners := by
        have counted := inv.listening c n
        rw [if_pos ⟨waits, by rintro ⟨⟩⟩] at counted
        exact List.count_pos_iff.mp (by omega)
      have idle := List.find?_eq_none.mp found _ listed
      exact idle (by simp [Listener.isOn, mine])
  | some l =>
      cases l with
      | quorum q =>
          have on := List.find?_some found
          cases on
      | coroutine c =>
          have ran : s.graph.driverTrigger home d n =
              ⟨s.graph.removeListener n (.coroutine c), some c⟩ := by
            simp [Graph.driverTrigger, fired, found]
          have relisted := removeListener_relisted s.graph n c
          apply NoLost.claimed rfl ran
          intro c' m _ waits up
          obtain ⟨_, eq, _⟩ := relisted.2.2 m
          rw [eq] at up
          exact kept c' m waits up

theorem NoLost.visit (kept : NoLost home s) (inv : Inv s) (visits : s.outside.visiting d = some n)
    (alone : (s.graph.body n).triggered = false → Alone home s d n) :
    NoLost home (s.visited home d n) := by
  cases fired : (s.graph.body n).triggered with
  | false => exact kept.first_call inv visits fired (alone fired)
  | true => exact kept.later_call inv visits fired

/-- `event::trigger`, which claims no coroutine. -/
theorem NoLost.fire (kept : NoLost home s) (inv : Inv s) (n : EventId) (current : DriverId) :
    NoLost home { s with graph := s.graph.trigger home current n, explicit := s.mark n } := by
  cases fired : (s.graph.body n).triggered with
  | true =>
      have idle : s.graph.trigger home current n = s.graph := by
        simp [Graph.trigger, fired]
      rw [idle]
      exact kept
  | false =>
      have ran : s.graph.trigger home current n =
          (triggerUnlock home ⟨none, current⟩ ⟨s.graph, none⟩ n).graph := by
        simp [Graph.trigger, fired]
      have wakes := (trigger_settles inv home ⟨none, current⟩ fired).1.wakes
      exact kept.trigger wakes rfl (fun _ => rfl) rfl ran (fun _ => rfl) rfl

theorem NoLost.drop (kept : NoLost home s) (inv : Inv s) (owns : 0 < s.outside.client n) :
    NoLost home { s with graph := s.graph.deref n, outside := s.outside.take n } := by
  obtain ⟨_, shrinks⟩ := deref_linked inv.deep (inv.linked.take owns)
  apply kept.keeps
  · intro c m waits fired
    rw [shrinks.triggered] at fired
    exact ⟨waits, fired⟩
  · intro d m comes
    rw [World.Comes, Queued, shrinks.inbox]
    exact comes

theorem NoLost.await (kept : NoLost home s) (c : CoroutineId)
    (up : (s.graph.body n).triggered = false) :
    NoLost home { s with graph := s.graph.await c n, outside := s.outside.wait c (some n) } := by
  have relisted := addListener_relisted (s.graph.ref n) n c
  have triggered : ∀ m, ((s.graph.await c n).body m).triggered = (s.graph.body m).triggered := by
    intro m
    obtain ⟨_, eq, _⟩ := relisted.2.2 m
    rw [Graph.await, eq, ref_body_eq]
  apply kept.keeps
  · intro c' m waits fired
    rw [triggered] at fired
    simp only [Outside.wait] at waits
    split at waits
    · cases waits
      rw [up] at fired
      contradiction
    · exact ⟨waits, fired⟩
  · exact fun _ _ comes => comes

theorem NoLost.cancel (kept : NoLost home s) (inv : Inv s) (waits : s.outside.waiting c = some n) :
    NoLost home { s with graph := s.graph.cancel c n, outside := s.outside.wait c none } := by
  have relisted := removeListener_relisted s.graph n c
  have removed := (relisted.linked inv.linked).unwait waits
  obtain ⟨_, shrinks⟩ := deref_linked (g := s.graph.removeListener n _) inv.deep removed
  have triggered : ∀ m, ((s.graph.cancel c n).body m).triggered = (s.graph.body m).triggered := by
    intro m
    obtain ⟨_, eq, _⟩ := relisted.2.2 m
    rw [Graph.cancel, shrinks.triggered, eq]
  apply kept.keeps
  · intro c' m waits' fired
    rw [triggered] at fired
    simp only [Outside.wait] at waits'
    split at waits'
    · contradiction
    · exact ⟨waits', fired⟩
  · intro d m comes
    rw [World.Comes, Queued, Graph.cancel, shrinks.inbox]
    exact comes

/-- A change of one driver's queues that takes nothing out of them. -/
theorem NoLost.queues (kept : NoLost home s) (f : Inbox → Inbox)
    (grows : ∀ m, m ∈ (s.graph.inbox d).asap ∨ m ∈ (s.graph.inbox d).migrate →
      m ∈ (f (s.graph.inbox d)).asap ∨ m ∈ (f (s.graph.inbox d)).migrate)
    (waiting : o.waiting = s.outside.waiting) (visiting : o.visiting = s.outside.visiting) :
    NoLost home { s with graph := s.graph.modifyInbox d f, outside := o } := by
  apply kept.keeps
  · intro c m waits fired
    simp only [waiting] at waits
    exact ⟨waits, fired⟩
  · intro d' m comes
    simp only [World.Comes, visiting]
    apply comes.imp _ id
    intro queued
    simp only [Queued, Graph.modifyInbox_inbox] at queued ⊢
    split
    · rename_i same
      subst same
      exact grows m queued
    · exact queued

/-- The event at the front of `asap_` is visited. -/
theorem NoLost.popAsap {rest : List EventId} (kept : NoLost home s)
    (idle : s.outside.visiting d = none) (front : (s.graph.inbox d).asap = n :: rest) :
    NoLost home { s with graph := s.graph.popAsap d, outside := s.outside.visit d (some n) } := by
  apply kept.keeps
  · exact fun _ _ waits fired => ⟨waits, fired⟩
  · intro d' m comes
    simp only [World.Comes, Queued, Graph.popAsap, Graph.modifyInbox_inbox, Outside.visit] at comes ⊢
    by_cases mine : d' = d
    · subst mine
      rw [front, idle] at comes
      simpa [front, eq_comm, or_comm, or_assoc, or_left_comm] using comes
    · simpa [mine] using comes

/-- A handle that the driver has, in a timer or a watch, is visited. -/
theorem NoLost.takeHandle (kept : NoLost home s) (idle : s.outside.visiting d = none) :
    NoLost home { s with outside := (s.outside.take n).visit d (some n) } := by
  apply kept.keeps
  · exact fun _ _ waits fired => ⟨waits, fired⟩
  · intro d' m comes
    apply comes.imp id
    intro visiting
    have other : d' ≠ d := by
      rintro rfl
      rw [idle] at visiting
      contradiction
    simpa [Outside.visit, Outside.take, other] using visiting

theorem NoLost.step (kept : NoLost home s) (inv : Inv s) (ok : Singles home s op)
    (moved : s.step home op = some t) : NoLost home t := by
  cases op <;> simp only [World.step, Option.ite_none_right_eq_some, Option.some.injEq] at moved
  case create =>
    cases moved
    apply kept.keeps
    · intro c m waits fired
      rw [show s.graph.alloc {} = s.graph.alloc (freshBody false 0) from rfl,
        alloc_triggered false 0 (inv.untriggered (Nat.le_refl _))] at fired
      exact ⟨waits, fired⟩
    · exact fun _ _ comes => comes
  case combine form args current =>
    obtain ⟨holds, rfl⟩ := moved
    exact kept.combine inv form args current holds
  case copy n =>
    obtain ⟨_, rfl⟩ := moved
    apply kept.keeps
    · intro c m waits fired
      simp only [ref_body_eq] at fired
      exact ⟨waits, fired⟩
    · exact fun _ _ comes => comes
  case drop n =>
    obtain ⟨owns, rfl⟩ := moved
    exact kept.drop inv owns
  case trigger n current =>
    obtain ⟨_, rfl⟩ := moved
    exact kept.fire inv n current
  case await c n =>
    obtain ⟨⟨_, _, up⟩, rfl⟩ := moved
    exact kept.await c up
  case cancel c =>
    split at moved
    · contradiction
    · rename_i n waits
      cases Option.some.inj moved
      exact kept.cancel inv waits
  case asap d n =>
    obtain ⟨_, rfl⟩ := moved
    exact kept.queues _ (fun m queued => queued.imp (List.mem_append_left _) id) rfl rfl
  case closeFd d fd =>
    cases moved
    exact kept.queues _ (fun m queued => queued) rfl rfl
  case migrate d =>
    cases moved
    exact kept.queues _ (fun m queued => .inl (List.mem_append.mpr queued)) rfl rfl
  case popAsap d =>
    split at moved
    · rename_i n rest idle front
      cases Option.some.inj moved
      exact kept.popAsap idle front
    · contradiction
  case takeHandle d n =>
    obtain ⟨⟨_, idle⟩, rfl⟩ := moved
    exact kept.takeHandle idle
  case driverTrigger d =>
    split at moved
    · contradiction
    · rename_i n visits
      cases Option.some.inj moved
      exact kept.visit inv visits (ok n visits)

/-- What becomes of the coroutines that wait. Each is listed once, by the event
it waits on; when that event has triggered, its driver will visit the event or is
visiting it; and what a visit hands over is listed no more. -/
structure World.Accounted (home : CoroutineId → DriverId) (s : World) : Prop where
  listed : ∀ c m, (s.graph.body m).listeners.count (.coroutine c) =
    if s.outside.waiting c = some m then 1 else 0
  comes : NoLost home s
  handed : ∀ d n c, (s.graph.driverTrigger home d n).coh = some c → home c = d ∧
    ∃ m, s.outside.waiting c = some m ∧
      ((s.graph.driverTrigger home d n).graph.body m).triggered = true ∧
      ∀ m', .coroutine c ∉ ((s.graph.driverTrigger home d n).graph.body m').listeners

theorem NoLost.accounted (kept : NoLost home s) (inv : Inv s) : s.Accounted home where
  listed c m := by
    simpa using inv.listening c m
  comes := kept
  handed d n c claimed := by
    have visit := driverTrigger_visits inv home d n
    obtain ⟨mine, m, waits, fired⟩ := visit.claims c claimed
    refine ⟨mine, m, waits, fired, fun m' listed => ?_⟩
    have counted := visit.listening c m'
    rw [claimed, if_neg (fun both => both.2 rfl)] at counted
    exact List.count_eq_zero.mp counted listed

/-- In every run whose driver visits wake at most one coroutine of the driver on
the events that fall with the visited one, no wakeup is lost. -/
theorem no_wakeup_lost (path : Reaches (World.step home) {} ops s)
    (meets : Meets (World.step home) (Singles home) {} ops) : s.Accounted home := by
  have both : Inv s ∧ NoLost home s := by
    apply path.guarded _ meets
    · refine ⟨inv_initial, ?_⟩
      intro c m waits
      exact nomatch waits
    · intro s op t kept ok moved
      exact ⟨kept.1.step moved, kept.2.step kept.1 ok moved⟩
  exact both.2.accounted both.1

theorem singles_of_one (only : ∀ c, s.outside.waiting c ≠ none → c = 0) (op : Op) :
    Singles home s op := by
  cases op with
  | driverTrigger d =>
      intro n _ _ c m waits _ _ _ _ c' m' waits' _ _
      rw [only c (by simp [waits]), only c' (by simp [waits'])]
  | _ => trivial

/-- Coroutine 0 waits on `any(0, 1)` and its driver finds event 0 in its queue. -/
theorem no_wakeup_lost_quorum :
    let ops : List Op := [.create, .create, .combine .any [some 0, some 1] 0, .await 0 2,
      .asap 0 0, .popAsap 0, .driverTrigger 0]
    ∃ s, Reaches (World.step fun _ => 0) {} ops s ∧ (s.graph.body 2).triggered = true ∧
      s.outside.waiting 0 = none ∧ s.Accounted fun _ => 0 := by
  intro ops
  refine ⟨_, run_iff_reaches.mp rfl, by decide, by decide, ?_⟩
  have meets : Meets (World.step fun _ => 0) (Singles fun _ => 0) {} ops := by
    refine .cons rfl trivial (.cons rfl trivial (.cons rfl trivial (.cons rfl trivial
      (.cons rfl trivial (.cons rfl trivial (.cons rfl (singles_of_one ?_ _) trivial))))))
    intro c waits
    by_contra other
    exact waits (if_neg other)
  exact no_wakeup_lost (run_iff_reaches.mp rfl) meets

/-- Coroutine 0 waits on event 0 and coroutine 1 on `any(0, 1)`. Their driver
visits event 0: coroutine 0 is handed over and coroutine 1 is forgotten. -/
theorem visit_forgets_second_waiter :
    ∃ s, Reaches (World.step fun _ => 0) {} [.create, .create, .combine .any [some 0, some 1] 0,
        .await 0 0, .await 1 2, .asap 0 0, .popAsap 0, .driverTrigger 0, .driverTrigger 0] s ∧
      s.outside.waiting 1 = some 2 ∧ (s.graph.body 2).triggered = true ∧
      ¬s.Accounted fun _ => 0 := by
  refine ⟨_, run_iff_reaches.mp rfl, by decide, by decide, fun accounted => ?_⟩
  have comes := accounted.comes 1 2 (by decide) (by decide)
  revert comes
  unfold World.Comes Queued
  decide

end Cotamer.Event

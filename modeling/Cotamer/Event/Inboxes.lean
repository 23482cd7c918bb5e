import Cotamer.Event.Wakeup

/-! Who writes to the queues of a driver. Only its own thread appends to `asap_`
or starts a visit; other threads use `migrate_` and set the flag. -/
namespace Cotamer.Event
open SwapVector References Transition

/-- Operations of code on the thread of driver `me`. -/
def Op.isLocal (me : DriverId) : Op → Bool
  | .create | .copy _ | .drop _ | .await _ _ | .cancel _ => true
  | .combine _ _ current | .trigger _ current => current == me
  | .asap d _ => d == me
  | _ => false

/-- Operations of other threads, their drivers included. -/
def Op.isRemote (me : DriverId) : Op → Bool
  | .create | .copy _ | .drop _ | .await _ _ | .cancel _ | .closeFd _ _ => true
  | .combine _ _ current | .trigger _ current => current != me
  | .asap d _ | .migrate d | .popAsap d | .takeHandle d _ | .driverTrigger d => d != me

/-- The event whose handle the operation moves or drops. -/
def Op.consumes : Op → Option EventId
  | .drop n | .asap _ n | .takeHandle _ n => some n
  | _ => none

/-- The effect of an operation on the queues, as driver `me` sees them. -/
structure Delivers (me : DriverId) (op : Op) (s t : World) : Prop where
  flagged : ∀ d, (s.graph.inbox d).Flagged → (t.graph.inbox d).Flagged
  grows : op ≠ .popAsap me → (s.graph.inbox me).asap <+: (t.graph.inbox me).asap
  apart : op.isRemote me = true → (t.graph.inbox me).asap = (s.graph.inbox me).asap
  visiting : op.isRemote me = true ∨ op.isLocal me = true →
    t.outside.visiting me = s.outside.visiting me

variable {home : CoroutineId → DriverId} {me : DriverId} {s t : World} {op : Op} {k : Caller}
  {w w' : Wake} {d : DriverId} {n : EventId}

theorem ne_of_remote (remote : (d != me) = true) : me ≠ d := by
  rintro rfl
  simp at remote

theorem Delivers.still (inbox : t.graph.inbox = s.graph.inbox)
    (visiting : t.outside.visiting = s.outside.visiting) : Delivers me op s t where
  flagged d h := by rwa [inbox]
  grows _ := by rw [inbox]
  apart _ := by rw [inbox]
  visiting _ := by rw [visiting]

/-- One inbox is changed. -/
theorem Delivers.posts (f : Inbox → Inbox)
    (inbox : t.graph.inbox = fun d' => if d' = d then f (s.graph.inbox d') else s.graph.inbox d')
    (visiting : op.isRemote me = true ∨ op.isLocal me = true →
      t.outside.visiting me = s.outside.visiting me)
    (flagged : ∀ i : Inbox, i.Flagged → (f i).Flagged)
    (grows : op ≠ .popAsap me → ∀ i : Inbox, i.asap <+: (f i).asap)
    (apart : op.isRemote me = true → me ≠ d ∨ ∀ i : Inbox, (f i).asap = i.asap) :
    Delivers me op s t where
  flagged d' h := by
    rw [inbox]
    dsimp only
    split
    · exact flagged _ h
    · exact h
  grows other := by
    rw [inbox]
    dsimp only
    split
    · exact grows other _
    · exact List.prefix_refl _
  apart remote := by
    rw [inbox]
    dsimp only
    split
    · rename_i same
      exact (apart remote).resolve_left (fun other => other same) _
    · rfl
  visiting := visiting

theorem Delivers.wakes (wakes : Wakes home k o late w w') (before : w.graph.inbox = s.graph.inbox)
    (after : t.graph.inbox = w'.graph.inbox) (remote : op.isRemote me = true → me ≠ k.poster)
    (visiting : op.isRemote me = true ∨ op.isLocal me = true →
      t.outside.visiting me = s.outside.visiting me) : Delivers me op s t where
  flagged d h := by
    rw [after]
    rw [← before] at h
    exact wakes.flagged d h
  grows _ := by
    rw [after, ← before]
    exact wakes.grows me
  apart isRemote := by
    rw [after, ← before]
    exact wakes.apart me (remote isRemote)
  visiting := visiting

theorem driverTrigger_inboxes (inv : Inv s) (home : CoroutineId → DriverId) (d : DriverId)
    (n : EventId) : let g := (s.graph.driverTrigger home d n).graph
    (∀ d', (s.graph.inbox d').Flagged → (g.inbox d').Flagged) ∧
    (∀ d', (s.graph.inbox d').asap <+: (g.inbox d').asap) ∧
    ∀ d', d' ≠ d → (g.inbox d').asap = (s.graph.inbox d').asap := by
  unfold Graph.driverTrigger
  cases fired : (s.graph.body n).triggered with
  | false =>
      have wakes := (trigger_settles inv home ⟨some d, d⟩ fired).1.wakes
      exact ⟨wakes.flagged, wakes.grows, fun d' other => wakes.apart d' other⟩
  | true =>
      simp only [Bool.not_true, Bool.false_eq_true, if_false]
      split <;> exact ⟨fun _ h => h, fun _ => List.prefix_refl _, fun _ _ => rfl⟩

theorem visited_delivers (inv : Inv s) (visits : s.outside.visiting d = some n) :
    Delivers me (.driverTrigger d) s (s.visited home d n) := by
  obtain ⟨flagged, grows, apart⟩ := driverTrigger_inboxes inv home d n
  have visit := driverTrigger_visits inv home d n
  generalize ran : s.graph.driverTrigger home d n = w at flagged grows apart visit
  cases claimed : w.coh with
  | none =>
      have deep : ∀ m, rankOf s.graph m ≤ w.graph.next := by
        rw [visit.evolves.next]
        exact inv.deep
      obtain ⟨_, shrinks⟩ := deref_linked deep (visit.linked.unvisit visits)
      rw [visited_graph s d n claimed ran]
      constructor
      · simp only [shrinks.inbox]
        exact flagged
      · simp only [shrinks.inbox]
        exact fun _ => grows me
      · simp only [shrinks.inbox]
        intro remote
        exact apart me (ne_of_remote remote)
      · rintro (remote | isLocal)
        · have other : me ≠ d := ne_of_remote remote
          simp [Outside.visit, other]
        · cases isLocal
  | some c =>
      rw [visited_claimed s d n claimed ran]
      constructor
      · exact flagged
      · exact fun _ => grows me
      · intro remote
        exact apart me (ne_of_remote remote)
      · intro _
        simp only [Outside.wait, giveHandle_visiting]

theorem combined_delivers (inv : Inv s) (form : Form) (args : List Handle) (current : DriverId)
    (holds : args.all s.outside.holds = true) :
    Delivers me (.combine form args current) s (s.combined home form args current) := by
  match args with
  | [] => cases form <;> exact Delivers.still rfl rfl
  | [h] => cases form <;> cases h <;> exact Delivers.still rfl rfl
  | h :: h' :: rest =>
      obtain ⟨opening, settles⟩ := make_settles inv home current (form.threshold (h :: h' :: rest)) holds
      apply Delivers.wakes settles.wakes opening.inbox
      · cases form <;> rfl
      · intro remote
        exact ne_of_remote remote
      · intro _
        cases form <;> rfl

theorem trigger_delivers (inv : Inv s) (n : EventId) (current : DriverId) : Delivers me (.trigger n current) s
    { s with graph := s.graph.trigger home current n, explicit := s.mark n } := by
  cases fired : (s.graph.body n).triggered with
  | true => exact Delivers.still (by simp [Graph.trigger, fired]) rfl
  | false =>
      have wakes := (trigger_settles inv home ⟨none, current⟩ fired).1.wakes
      apply Delivers.wakes wakes rfl
      · simp [Graph.trigger, fired]
      · intro remote
        exact ne_of_remote remote
      · exact fun _ => rfl

theorem popAsap_delivers (d : DriverId) (n : EventId) : Delivers me (.popAsap d) s
    { s with graph := s.graph.popAsap d, outside := s.outside.visit d (some n) } := by
  by_cases mine : d = me
  · subst mine
    constructor
    · intro d' h
      simp only [Graph.popAsap, Graph.modifyInbox_inbox]
      split <;> exact h
    · exact fun other => absurd rfl other
    · exact fun remote => absurd rfl (ne_of_remote remote)
    · rintro (remote | isLocal)
      · exact absurd rfl (ne_of_remote remote)
      · cases isLocal
  · have other : me ≠ d := Ne.symm mine
    constructor
    · intro d' h
      simp only [Graph.popAsap, Graph.modifyInbox_inbox]
      split <;> exact h
    · intro _
      simp [Graph.popAsap, other]
    · intro _
      simp [Graph.popAsap, other]
    · intro _
      simp [Outside.visit, other]

theorem step_delivers (inv : Inv s) (moved : s.step home op = some t) : Delivers me op s t := by
  cases op <;> simp only [World.step, Option.ite_none_right_eq_some, Option.some.injEq] at moved
  case create =>
    cases moved
    exact Delivers.still rfl rfl
  case combine form args current =>
    obtain ⟨holds, rfl⟩ := moved
    exact combined_delivers inv form args current holds
  case copy n =>
    obtain ⟨_, rfl⟩ := moved
    exact Delivers.still rfl rfl
  case drop n =>
    obtain ⟨owns, rfl⟩ := moved
    obtain ⟨_, shrinks⟩ := deref_linked inv.deep (inv.linked.take owns)
    exact Delivers.still shrinks.inbox rfl
  case trigger n current =>
    obtain ⟨_, rfl⟩ := moved
    exact trigger_delivers inv n current
  case await c n =>
    obtain ⟨_, rfl⟩ := moved
    exact Delivers.still rfl rfl
  case cancel c =>
    split at moved
    · contradiction
    · rename_i n waits
      cases Option.some.inj moved
      have removed := ((removeListener_relisted s.graph n c).linked inv.linked).unwait waits
      obtain ⟨_, shrinks⟩ := deref_linked (g := s.graph.removeListener n _) inv.deep removed
      exact Delivers.still shrinks.inbox rfl
  case asap d n =>
    obtain ⟨_, rfl⟩ := moved
    exact Delivers.posts (fun i => { i with asap := i.asap ++ [n] }) rfl (fun _ => rfl)
      (fun _ h => h) (fun _ _ => List.prefix_append _ _) fun remote => .inl (ne_of_remote remote)
  case closeFd d fd =>
    cases moved
    exact Delivers.posts
      (fun i => { i with migrateFdClose := i.migrateFdClose ++ [fd], nonempty := true }) rfl
      (fun _ => rfl) (by rintro _ _ ⟨⟩) (fun _ _ => List.prefix_refl _)
      fun _ => .inr fun _ => rfl
  case migrate d =>
    cases moved
    exact Delivers.posts (fun i => ⟨i.asap ++ i.migrate, [], [], false⟩) rfl (fun _ => rfl)
      (fun _ _ _ => ⟨rfl, rfl⟩) (fun _ _ => List.prefix_append _ _)
      fun remote => .inl (ne_of_remote remote)
  case popAsap d =>
    split at moved
    · rename_i n rest idle front
      cases Option.some.inj moved
      exact popAsap_delivers d n
    · contradiction
  case takeHandle d n =>
    obtain ⟨_, rfl⟩ := moved
    constructor
    · exact fun _ h => h
    · exact fun _ => List.prefix_refl _
    · exact fun _ => rfl
    · rintro (remote | isLocal)
      · simp [Outside.visit, Outside.take, ne_of_remote remote]
      · cases isLocal
  case driverTrigger d =>
    split at moved
    · contradiction
    · rename_i n visits
      cases Option.some.inj moved
      exact visited_delivers inv visits

end Cotamer.Event

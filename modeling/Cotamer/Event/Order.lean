import Cotamer.Event.Trigger
import Cotamer.Transition

/-! The coroutines listening to one event, in the order of registration. Every function that reads
or changes `listeners_` does so once, under the body's lock, so any interleaving of threads is a
sequence of these calls. -/
namespace Cotamer.Event
open SwapVector Transition

/-- `listeners_` and `ef_triggered` of one body, with a record of the coroutines that registered
and were not cancelled while they waited, in order, and of those handed to drivers, in order. -/
structure Roster where
  listeners : List Listener := []
  triggered : Bool := false
  entered : List CoroutineId := []
  resumed : List CoroutineId := []
  deriving DecidableEq, Repr

/-- Where a listening coroutine runs. -/
def Listener.driver (home : CoroutineId → DriverId) : Listener → Option DriverId
  | .coroutine c => some (home c)
  | .quorum _ => none

/-- The coroutine listening, if it runs on `d`. -/
def Listener.waiter (home : CoroutineId → DriverId) (d : DriverId) : Listener → Option CoroutineId
  | .coroutine c => if home c = d then some c else none
  | .quorum _ => none

namespace Roster

inductive Label where
  | register (l : Listener)                                     -- add_listener_unlock
  | remove (l : Listener)                                       -- remove_listener_unlock
  | trigger (drv : Option DriverId) (coh : Option CoroutineId)  -- trigger_unlock
  | driverTrigger (d : DriverId)                                -- driver_trigger
  deriving DecidableEq, Repr

variable (home : CoroutineId → DriverId)

/-- `trigger_unlock`, called by driver `drv` with `coh` already claimed from another event. -/
def fire (s : Roster) (drv : Option DriverId) (coh : Option CoroutineId) : Roster :=
  let scan := s.listeners.foldl (scanListener home ⟨drv, drv.getD 0⟩) { coh }
  { s with
    listeners := scan.kept
    triggered := true
    resumed := if coh = none then s.resumed ++ scan.coh.toList else s.resumed }

/-- The search of `driver_trigger` on a triggered event. -/
def claim (s : Roster) (d : DriverId) : Roster :=
  match s.listeners.find? (Listener.isOn home d) with
  | some (.coroutine c) =>
    { s with listeners := swapErase (.coroutine c) s.listeners, resumed := s.resumed ++ [c] }
  | _ => s

/-- A coroutine registers with an untriggered event it does not wait for yet, and is removed
while it waits. -/
def step (s : Roster) : Label → Option Roster
  | .register (.coroutine c) =>
    if s.triggered ∨ .coroutine c ∈ s.listeners then none
    else some { s with listeners := s.listeners ++ [.coroutine c], entered := s.entered ++ [c] }
  | .register (.quorum q) =>
    if s.triggered then none else some { s with listeners := s.listeners ++ [.quorum q] }
  | .remove (.coroutine c) =>
    if .coroutine c ∈ s.listeners then
      some { s with
        listeners := swapErase (.coroutine c) s.listeners, entered := s.entered.erase c }
    else none
  | .remove (.quorum q) => some { s with listeners := swapErase (.quorum q) s.listeners }
  | .trigger drv coh => if s.triggered then none else some (s.fire home drv coh)
  | .driverTrigger d =>
    if s.triggered then some (s.claim home d) else some (s.fire home (some d) none)

/-- The waiting coroutines of `d`, as they are listed. -/
def waiting (s : Roster) (d : DriverId) : List CoroutineId :=
  s.listeners.filterMap (Listener.waiter home d)

/-- The coroutines `d` has resumed are the first of its own to have registered. -/
def Served (s : Roster) : Prop :=
  ∀ d, s.resumed.filter (home · = d) <+: s.entered.filter (home · = d)

/-- For every driver, those resumed and then those listed are in the order of registration. -/
def InOrder (s : Roster) : Prop :=
  ∀ d, s.entered.filter (home · = d) = s.resumed.filter (home · = d) ++ s.waiting home d

/-- The entry that takes the place of `l` passes no coroutine of its own driver. -/
def Passes (s : Roster) (l : Listener) : Prop :=
  ∀ last ∈ moved l s.listeners, last.driver home ≠ none →
    ∀ y ∈ passed l s.listeners, y.driver home ≠ last.driver home

instance (s : Roster) (l : Listener) : Decidable (s.Passes home l) :=
  inferInstanceAs (Decidable (∀ last ∈ moved l s.listeners, _))

/-- Every removal from the middle of the list leaves the drivers' coroutines in order. -/
def Careful (s : Roster) : Label → Prop
  | .remove l => l ∈ s.listeners → s.Passes home l
  | .driverTrigger d => s.triggered →
    ∀ l ∈ s.listeners.find? (Listener.isOn home d), s.Passes home l
  | _ => True

instance (s : Roster) : ∀ l, Decidable (s.Careful home l)
  | .remove l => inferInstanceAs (Decidable (l ∈ s.listeners → s.Passes home l))
  | .driverTrigger _ => inferInstanceAs (Decidable (s.triggered → _))
  | .register _ | .trigger _ _ => isTrue trivial

variable {home} {s t : Roster} {l : Label} {ls : List Label} {d : DriverId}

/-- The coroutines listening to `n` in a graph of events. -/
def ofGraph (g : Graph) (n : EventId) : Roster :=
  { listeners := (g.body n).listeners, triggered := (g.body n).triggered }

/-- `driver_trigger` of a triggered event in a graph changes its listeners as `claim` does and
returns the coroutine. -/
theorem ofGraph_claim (g : Graph) (n : EventId) (d : DriverId) (triggered : (g.body n).triggered) :
    ofGraph (g.driverTrigger home d n).graph n =
        { (ofGraph g n).claim home d with resumed := [] } ∧
      ((ofGraph g n).claim home d).resumed = (g.driverTrigger home d n).coh.toList := by
  simp only [Graph.driverTrigger, claim, triggered, Bool.not_true, Bool.false_eq_true, if_false]
  cases found : (g.body n).listeners.find? (Listener.isOn home d) with
  | none => simp [ofGraph, found]
  | some l => cases l <;> simp [ofGraph, found]

theorem waiter_some {x : Listener} : x.waiter home d = some c ↔ x = .coroutine c ∧ home c = d := by
  cases x with
  | coroutine b =>
      simp only [Listener.waiter, Listener.coroutine.injEq]
      constructor
      · intro listens
        split at listens
        · rename_i mine
          cases Option.some.inj listens
          exact ⟨rfl, mine⟩
        · contradiction
      · rintro ⟨rfl, mine⟩
        exact if_pos mine
  | quorum q => simp [Listener.waiter]

theorem isSome_waiter {x : Listener} : (x.waiter home d).isSome ↔ x.driver home = some d := by
  cases x with
  | coroutine c => simp [Listener.waiter, Listener.driver]
  | quorum q => simp [Listener.waiter, Listener.driver]

theorem waiter_home (c : CoroutineId) : (Listener.coroutine c).waiter home (home c) = some c :=
  waiter_some.mpr ⟨rfl, rfl⟩

theorem waiter_elsewhere (elsewhere : home c ≠ d) : (Listener.coroutine c).waiter home d = none :=
  if_neg elsewhere

theorem mem_waiting : c ∈ s.waiting home d ↔ .coroutine c ∈ s.listeners ∧ home c = d := by
  simp only [waiting, List.mem_filterMap, waiter_some]
  exact ⟨fun ⟨_, listed, same, mine⟩ => ⟨same ▸ listed, mine⟩, fun ⟨listed, mine⟩ => ⟨_, listed, rfl, mine⟩⟩

theorem waiting_erase (xs : List Listener) (c : CoroutineId) (d : DriverId) :
    (xs.erase (.coroutine c)).filterMap (Listener.waiter home d) =
      (xs.filterMap (Listener.waiter home d)).erase c := by
  induction xs with
  | nil => rfl
  | cons x xs ih =>
      by_cases same : x = .coroutine c
      · subst same
        rw [List.erase_cons_head]
        by_cases mine : home c = d
        · rw [List.filterMap_cons_some (waiter_some.mpr ⟨rfl, mine⟩), List.erase_cons_head]
        · have absent : c ∉ xs.filterMap (Listener.waiter home d) := by
            intro member
            obtain ⟨_, _, listens⟩ := List.mem_filterMap.mp member
            exact mine (waiter_some.mp listens).2
          rw [List.filterMap_cons_none (waiter_elsewhere mine), List.erase_of_not_mem absent]
      · rw [List.erase_cons_tail (by simpa using same)]
        cases listens : x.waiter home d with
        | none => rw [List.filterMap_cons_none listens, List.filterMap_cons_none listens, ih]
        | some b =>
            have ne : b ≠ c := fun eq => same (eq ▸ (waiter_some.mp listens).1)
            rw [List.filterMap_cons_some listens, List.filterMap_cons_some listens,
              List.erase_cons_tail (by simpa using ne), ih]

theorem waiting_erase_quorum (xs : List Listener) (q : EventId) (d : DriverId) :
    (xs.erase (.quorum q)).filterMap (Listener.waiter home d) =
      xs.filterMap (Listener.waiter home d) := by
  induction xs with
  | nil => rfl
  | cons x xs ih =>
      by_cases same : x = .quorum q
      · subst same
        rw [List.erase_cons_head]
        rfl
      · rw [List.erase_cons_tail (by simpa using same)]
        simp only [List.filterMap_cons, ih]

/-- The coroutines of a driver after `trigger_unlock` has looked at the listeners `xs`. -/
theorem scan_waiting (k : Caller) (xs : List Listener) (scan : Scan) (d : DriverId) :
    (xs.foldl (scanListener home k) scan).kept.filterMap (Listener.waiter home d) =
      scan.kept.filterMap (Listener.waiter home d) ++
        if k.drv = some d ∧ scan.coh = none then (xs.filterMap (Listener.waiter home d)).tail
        else xs.filterMap (Listener.waiter home d) := by
  induction xs generalizing scan with
  | nil => simp
  | cons x xs ih =>
      rw [List.foldl_cons, ih]
      cases x with
      | quorum q => rfl
      | coroutine c =>
          have split : [Listener.coroutine c].filterMap (Listener.waiter home d) ++
              xs.filterMap (Listener.waiter home d) =
                (Listener.coroutine c :: xs).filterMap (Listener.waiter home d) :=
            List.filterMap_append.symm
          by_cases mine : k.drv = some (home c)
          · cases claimed : scan.coh with
            | none =>
                by_cases here : home c = d
                · subst here
                  simp [scanListener, mine, claimed, List.filterMap_cons_some (waiter_home c)]
                · simp [scanListener, mine, claimed, here,
                    List.filterMap_cons_none (waiter_elsewhere here)]
            | some b =>
                simp [scanListener, mine, claimed, split]
          · rw [show scanListener home k scan (.coroutine c) = { scan with
              kept := scan.kept ++ [.coroutine c]
              drivers := if home c ∈ scan.drivers then scan.drivers else scan.drivers ++ [home c] }
              from if_neg mine]
            by_cases drv : k.drv = some d
            · have elsewhere : (Listener.coroutine c).waiter home d = none :=
                waiter_elsewhere fun here => mine (here ▸ drv)
              simp [drv, List.filterMap_cons_none elsewhere]
            · simp [drv, split]

theorem scan_coh (k : Caller) (xs : List Listener) (scan : Scan) :
    (xs.foldl (scanListener home k) scan).coh =
      scan.coh.or (k.drv.bind fun d => (xs.filterMap (Listener.waiter home d)).head?) := by
  induction xs generalizing scan with
  | nil => simp
  | cons x xs ih =>
      rw [List.foldl_cons, ih]
      cases x with
      | quorum q => rfl
      | coroutine c =>
          by_cases mine : k.drv = some (home c)
          · cases claimed : scan.coh with
            | none => simp [scanListener, mine, claimed, List.findSome?_cons, waiter_home]
            | some b => simp [scanListener, mine, claimed]
          · cases drv : k.drv with
            | none => simp [scanListener, drv]
            | some d =>
                have elsewhere : home c ≠ d := fun here => mine (here ▸ drv)
                simp [scanListener, drv, elsewhere.symm, List.findSome?_cons, waiter_elsewhere elsewhere]

theorem find_waiting (home : CoroutineId → DriverId) (s : Roster) (d : DriverId) : match s.listeners.find? (Listener.isOn home d) with
    | none => s.waiting home d = []
    | some l => ∃ c rest, l = .coroutine c ∧ s.waiting home d = c :: rest := by
  split
  · rename_i none
    have nobody := List.find?_eq_none.mp none
    refine List.filterMap_eq_nil_iff.mpr fun l listed => ?_
    cases l with
    | coroutine c =>
        refine waiter_elsewhere fun here => nobody _ listed ?_
        simpa [Listener.isOn] using here
    | quorum q => rfl
  · rename_i l found
    obtain ⟨mine, front, back, split, others⟩ := List.find?_eq_some_iff_append.mp found
    cases l with
    | coroutine c =>
        have here : home c = d := by simpa [Listener.isOn] using mine
        subst here
        have passed : front.filterMap (Listener.waiter home (home c)) = [] := by
          refine List.filterMap_eq_nil_iff.mpr fun l listed => ?_
          cases l with
          | coroutine b =>
              have other := others _ listed
              exact waiter_elsewhere fun here => by simp [Listener.isOn, here] at other
          | quorum q => rfl
        refine ⟨c, back.filterMap (Listener.waiter home (home c)), rfl, ?_⟩
        rw [waiting, split, List.filterMap_append, passed, List.nil_append,
          List.filterMap_cons_some (waiter_home c)]
    | quorum q => contradiction

/-- What holds of every event and its waiters, in order or not. -/
structure Sound (s : Roster) : Prop where
  distinct : s.entered.Nodup
  fresh : s.triggered = false → s.resumed = []

theorem Sound.nodup (sound : s.Sound) (order : s.InOrder home) (d : DriverId) :
    (s.resumed.filter (home · = d) ++ s.waiting home d).Nodup :=
  order d ▸ sound.distinct.filter _

theorem Sound.passes_iff (sound : s.Sound) (order : s.InOrder home) (listed : x ∈ s.listeners) :
    s.Passes home x ↔ ∀ d, (swapErase x s.listeners).filterMap (Listener.waiter home d) =
      (s.listeners.erase x).filterMap (Listener.waiter home d) := by
  have keyed := fun d => filterMap_swapErase (Listener.waiter home d)
    (List.nodup_append.mp (sound.nodup order d)).2.1 listed
  simp only [keyed, Passes, ← Option.not_isSome_iff_eq_none, isSome_waiter]
  constructor
  · intro passes d last moves mine y passed same
    exact passes last moves (by simp [mine]) y passed (same.trans mine.symm)
  · intro passes last moves runs y passed same
    obtain ⟨d, mine⟩ := Option.ne_none_iff_exists'.mp runs
    exact passes d last moves mine y passed (same.trans mine)

/-- A waiting coroutine stands behind those its driver has resumed. -/
theorem Sound.erased (sound : s.Sound) (order : s.InOrder home) (listed : .coroutine c ∈ s.listeners)
    (d : DriverId) : (s.entered.erase c).filter (home · = d) =
      s.resumed.filter (home · = d) ++ (s.waiting home d).erase c := by
  rw [← List.erase_filter, order d]
  by_cases here : home c = d
  · have waits : c ∈ s.waiting home d := mem_waiting.mpr ⟨listed, here⟩
    have apart := (List.nodup_append.mp (sound.nodup order d)).2.2
    exact List.erase_append_right _ fun resumed => apart c resumed c waits rfl
  · have absent : c ∉ s.waiting home d := fun waits => here (mem_waiting.mp waits).2
    rw [List.erase_of_not_mem absent, List.erase_of_not_mem]
    simp [absent, here]

theorem fire_waiting (s : Roster) (drv : Option DriverId) (coh : Option CoroutineId) (d : DriverId) :
    (s.fire home drv coh).waiting home d =
      if drv = some d ∧ coh = none then (s.waiting home d).tail else s.waiting home d :=
  scan_waiting ⟨drv, drv.getD 0⟩ s.listeners { coh } d

theorem fire_resumed (s : Roster) (drv : Option DriverId) : (s.fire home drv none).resumed =
    s.resumed ++ (drv.bind fun d => (s.waiting home d).head?).toList :=
  congrArg (fun coh : Option CoroutineId => s.resumed ++ coh.toList)
    (scan_coh ⟨drv, drv.getD 0⟩ s.listeners {})

/-- The first waiting coroutine of `e`, as `d` sees it. -/
theorem head_filter (s : Roster) (e d : DriverId) :
    ((s.waiting home e).head?.toList).filter (home · = d) =
      if e = d then (s.waiting home d).head?.toList else [] := by
  cases waits : s.waiting home e with
  | nil => split <;> simp_all
  | cons c rest =>
      have here : home c = e := (mem_waiting.mp (waits ▸ List.mem_cons_self)).2
      by_cases same : e = d
      · subst same
        simp [waits, here]
      · simp [same, here]

theorem fire_inOrder (order : s.InOrder home) (drv : Option DriverId) (coh : Option CoroutineId) :
    (s.fire home drv coh).InOrder home := by
  intro d
  rw [fire_waiting]
  cases coh with
  | some c => simpa [fire] using order d
  | none =>
      rw [fire_resumed, List.filter_append, List.append_assoc]
      cases drv with
      | none => simpa [fire] using order d
      | some e =>
          rw [Option.bind_some, head_filter]
          by_cases same : e = d
          · subst same
            rw [if_pos rfl, if_pos ⟨rfl, rfl⟩]
            cases waits : s.waiting home e <;> simpa [fire, waits] using order e
          · simpa [fire, same] using order d

theorem claim_entered (s : Roster) (d : DriverId) : (s.claim home d).entered = s.entered := by
  unfold claim
  split <;> rfl

theorem claim_triggered (s : Roster) (d : DriverId) : (s.claim home d).triggered = s.triggered := by
  unfold claim
  split <;> rfl

theorem claim_exact (sound : s.Sound) (order : s.InOrder home) (d : DriverId) :
    (s.claim home d).InOrder home ↔ ∀ l ∈ s.listeners.find? (Listener.isOn home d), s.Passes home l := by
  have first := find_waiting home s d
  cases found : s.listeners.find? (Listener.isOn home d) with
  | none => simpa [claim, found] using order
  | some l =>
      rw [found] at first
      obtain ⟨c, rest, rfl, waits⟩ := first
      have listed : .coroutine c ∈ s.listeners := List.mem_of_find?_eq_some found
      have here : home c = d := (mem_waiting.mp (waits ▸ List.mem_cons_self)).2
      have front : ∀ e, s.waiting home e = [c].filter (home · = e) ++ (s.waiting home e).erase c := by
        intro e
        by_cases same : home c = e
        · rw [← same, here, waits]
          simp [here]
        · have absent : c ∉ s.waiting home e := fun waits => same (mem_waiting.mp waits).2
          simp [same, List.erase_of_not_mem absent]
      have claimed : s.claim home d = { s with
          listeners := swapErase (.coroutine c) s.listeners, resumed := s.resumed ++ [c] } := by
        simp only [claim, found]
      simp only [Option.mem_some, forall_eq', sound.passes_iff order listed, claimed]
      refine forall_congr' fun e => ?_
      rw [waiting_erase]
      simp only [order e, List.filter_append, List.append_assoc, List.append_cancel_left_eq]
      conv_lhs => rw [front e, List.append_cancel_left_eq]
      exact eq_comm

theorem step_exact (sound : s.Sound) (order : s.InOrder home) (made : s.step home l = some t) :
    t.InOrder home ↔ s.Careful home l := by
  cases l with
  | register x =>
      refine iff_of_true ?_ trivial
      cases x with
      | coroutine c =>
          simp only [step, Option.ite_none_left_eq_some] at made
          cases made.2
          intro d
          by_cases here : home c = d <;> simp [order d, waiting, Listener.waiter, here]
      | quorum q =>
          simp only [step, Option.ite_none_left_eq_some] at made
          cases made.2
          intro d
          simp [order d, waiting, Listener.waiter]
  | remove x =>
      cases x with
      | coroutine c =>
          simp only [step, Option.ite_none_right_eq_some] at made
          obtain ⟨listed, made⟩ := made
          cases made
          simp only [Careful, listed, forall_const, sound.passes_iff order listed]
          refine forall_congr' fun d => ?_
          rw [waiting_erase, sound.erased order listed, List.append_cancel_left_eq]
          exact eq_comm
      | quorum q =>
          cases Option.some.inj made
          by_cases listed : .quorum q ∈ s.listeners
          · simp only [Careful, listed, forall_const, sound.passes_iff order listed]
            refine forall_congr' fun d => ?_
            rw [waiting_erase_quorum]
            simp only [order d, List.append_cancel_left_eq]
            exact eq_comm
          · refine iff_of_true ?_ fun member => absurd member listed
            simpa [InOrder, waiting, swapErase, listed] using order
  | trigger drv coh =>
      simp only [step, Option.ite_none_left_eq_some] at made
      cases made.2
      exact iff_of_true (fire_inOrder order drv coh) trivial
  | driverTrigger d =>
      simp only [step] at made
      split at made
      · rename_i triggered
        cases made
        simpa only [Careful, triggered, forall_const] using claim_exact sound order d
      · rename_i waiting
        cases made
        exact iff_of_true (fire_inOrder order (some d) none) fun triggered => absurd triggered waiting

theorem step_sound (sound : s.Sound) (order : s.InOrder home) (made : s.step home l = some t) :
    t.Sound := by
  cases l with
  | register x =>
      cases x with
      | coroutine c =>
          simp only [step, Option.ite_none_left_eq_some, not_or] at made
          obtain ⟨⟨waiting, absent⟩, made⟩ := made
          cases made
          refine ⟨?_, sound.fresh⟩
          have new : c ∉ s.entered := by
            intro entered
            have member : c ∈ s.entered.filter (home · = home c) := by simpa using entered
            rw [order, sound.fresh (by simpa using waiting)] at member
            exact absent (mem_waiting.mp member).1
          exact List.nodup_append.mpr ⟨sound.distinct, List.pairwise_singleton ..,
            fun b entered _ same eq => new (List.mem_singleton.mp same ▸ eq ▸ entered)⟩
      | quorum q =>
          simp only [step, Option.ite_none_left_eq_some] at made
          cases made.2
          exact ⟨sound.distinct, sound.fresh⟩
  | remove x =>
      cases x with
      | coroutine c =>
          simp only [step, Option.ite_none_right_eq_some] at made
          cases made.2
          exact ⟨sound.distinct.erase c, sound.fresh⟩
      | quorum q =>
          cases Option.some.inj made
          exact ⟨sound.distinct, sound.fresh⟩
  | trigger drv coh =>
      simp only [step, Option.ite_none_left_eq_some] at made
      cases made.2
      exact ⟨sound.distinct, nofun⟩
  | driverTrigger d =>
      simp only [step] at made
      split at made
      · rename_i triggered
        cases made
        exact ⟨claim_entered s d ▸ sound.distinct, fun fresh => absurd (claim_triggered s d ▸ triggered)
          (Bool.eq_false_iff.mp fresh)⟩
      · cases made
        exact ⟨sound.distinct, nofun⟩

theorem InOrder.served (order : s.InOrder home) : s.Served home := fun d =>
  ⟨s.waiting home d, (order d).symm⟩

/-- As long as no removal lets a coroutine pass another of its driver, drivers resume the
coroutines of an event in the order of registration; the listeners are in that order exactly
then. -/
theorem waiters_wake_in_order (home : CoroutineId → DriverId) (made : Reaches (step home) {} ls s) :
    (Meets (step home) (Careful home) {} ls → Always (step home) (Served home) {} ls) ∧
      (Always (step home) (InOrder home) {} ls ↔ Meets (step home) (Careful home) {} ls) := by
  have exact : Always (step home) (InOrder home) {} ls ↔ Meets (step home) (Careful home) {} ls :=
    always_iff_meets (fun sound order _ made => step_sound sound order made)
      (fun sound order made => step_exact sound order made) made
      ⟨List.nodup_nil, fun _ => rfl⟩ fun _ => rfl
  exact ⟨fun careful => (exact.mpr careful).mono fun _ order => order.served, exact⟩

/-- A quorum and three coroutines on two drivers; one is cancelled, and a driver triggers. -/
def twoDrivers : List Label :=
  [.register (.coroutine 0), .register (.quorum 9), .register (.coroutine 2), .register (.coroutine 1),
    .register (.coroutine 4), .remove (.coroutine 2), .driverTrigger 0, .driverTrigger 1,
    .driverTrigger 0, .driverTrigger 0]

theorem waiters_wake_in_order_two :
    Always (step (· % 2)) (Served (· % 2)) {} twoDrivers :=
  (waiters_wake_in_order (· % 2) (run_iff_reaches.mp rfl : Reaches (step (· % 2)) {} twoDrivers
    { triggered := true, entered := [0, 1, 4], resumed := [0, 1, 4] })).1 (by decide +kernel)

/-- Three coroutines wait when another triggers the event: the third is resumed second. -/
theorem third_waiter_second :
    ¬Always (step fun _ => 0) (Served fun _ => 0) {}
      [.register (.coroutine 1), .register (.coroutine 2), .register (.coroutine 3), .trigger none none,
        .driverTrigger 0, .driverTrigger 0] := by
  intro all
  have last := (((((all.2 _ rfl).2 _ rfl).2 _ rfl).2 _ rfl).2 _ rfl).2 _ rfl
  exact absurd (last 0) (by decide)

end Roster
end Cotamer.Event

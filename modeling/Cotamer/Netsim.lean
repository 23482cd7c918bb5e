import Cotamer.Transition
import Mathlib

/-! The network simulator: messages are under way for a time, and come to the port of
their server, where any number of tasks receive them. A task can be cancelled wherever
it waits. -/
namespace Cotamer.Netsim
open Transition

variable {Id T : Type} [DecidableEq Id]

/-- A `send_after` coroutine. -/
structure Letter (Id T : Type) where
  source : Id
  destination : Id
  message : T
  deriving DecidableEq, Repr

/-- Where a `receive_with_id` coroutine waits. -/
inductive Stage where
  | event (e : Nat)
  | resolve
  deriving DecidableEq, Repr

structure Receiver (Id : Type) where
  port : Id
  stage : Stage
  deriving DecidableEq, Repr

structure Port (Id T : Type) where
  messageq : List (T × Id)
  receiverEvent : Nat
  deriving DecidableEq, Repr

/-- `sent` and `received` are history. -/
structure Network (Id T : Type) where
  now : Nat := 0
  timers : List (Nat × Letter Id T) := []
  ready : List (Letter Id T) := []
  ports : Id → Option (Port Id T) := fun _ => none
  receivers : Nat → Option (Receiver Id) := fun _ => none
  triggered : List Nat := []
  next : Nat := 0
  sent : List (Letter Id T) := []
  received : Id → List (T × Id) := fun _ => []

inductive Label (Id T : Type) where
  | send (source destination : Id) (m : T)
  | tick (time : Nat)
  | expire
  | arrive
  | receive (r : Nat) (p : Id) (active : Bool)
  | wake (r : Nat) (active : Bool)
  | resolve (r : Nat)
  | cancel (r : Nat)
  deriving DecidableEq, Repr

/-- The timer that is due first, and of two with one deadline the older. -/
def least {α : Type} : List (Nat × α) → Option ((Nat × α) × List (Nat × α))
  | [] => none
  | x :: xs =>
    match least xs with
    | none => some (x, [])
    | some (y, ys) => if x.1 ≤ y.1 then some (x, xs) else some (y, x :: ys)

namespace Network

variable (w : Network Id T)

/-- `network::input` -/
def input (p : Id) : Network Id T :=
  match w.ports p with
  | some _ => w
  | none => { w with ports := Function.update w.ports p (some ⟨[], w.next⟩), next := w.next + 1 }

/-- `send_after`, after its delay. -/
def deliver (l : Letter Id T) (port : Port Id T) : Network Id T :=
  { w with
    ports := Function.update w.ports l.destination
      (some { port with messageq := port.messageq ++ [(l.message, l.source)] })
    triggered := port.receiverEvent :: w.triggered }

/-- `receiver_event_.arm()`, and wait. -/
def sleep (r : Nat) (p : Id) (port : Port Id T) : Network Id T :=
  if port.receiverEvent ∈ w.triggered then
    { w with
      ports := Function.update w.ports p (some { port with receiverEvent := w.next })
      next := w.next + 1
      receivers := Function.update w.receivers r (some ⟨p, .event w.next⟩) }
  else { w with receivers := Function.update w.receivers r (some ⟨p, .event port.receiverEvent⟩) }

/-- The front message is received. -/
def take (r : Nat) (p : Id) (port : Port Id T) (m : T × Id) (rest : List (T × Id)) : Network Id T :=
  { w with
    ports := Function.update w.ports p (some { port with messageq := rest })
    receivers := Function.update w.receivers r none
    received := Function.update w.received p (w.received p ++ [m]) }

/-- `receive_with_id` up to its next wait. A task that is actively awaited does not stop
at the resolution point. -/
def receiveWithId (r : Nat) (p : Id) (active : Bool) : Option (Network Id T) :=
  (w.ports p).map fun port =>
    match port.messageq with
    | [] => w.sleep r p port
    | m :: rest =>
      if active then w.take r p port m rest
      else { w with receivers := Function.update w.receivers r (some ⟨p, .resolve⟩) }

def step (delay : Nat) (w : Network Id T) : Label Id T → Option (Network Id T)
  | .send source destination m =>
    let l : Letter Id T := ⟨source, destination, m⟩
    some { w.input destination with timers := w.timers ++ [(w.now + delay, l)], sent := w.sent ++ [l] }
  | .tick time => if w.now ≤ time then some { w with now := time } else none
  | .expire =>
    match least w.timers with
    | some ((deadline, l), timers) =>
      if deadline ≤ w.now then some { w with timers, ready := w.ready ++ [l] } else none
    | none => none
  | .arrive =>
    match w.ready with
    | [] => none
    | l :: ready => (w.ports l.destination).map fun port => { w.deliver l port with ready }
  | .receive r p active =>
    match w.receivers r with
    | some _ => none
    | none => (w.input p).receiveWithId r p active
  | .wake r active =>
    match w.receivers r with
    | some ⟨p, .event e⟩ => if e ∈ w.triggered then w.receiveWithId r p active else none
    | _ => none
  | .resolve r =>
    match w.receivers r with
    | some ⟨p, .resolve⟩ => w.receiveWithId r p true
    | _ => none
  | .cancel r => (w.receivers r).map fun _ => { w with receivers := Function.update w.receivers r none }

/-- What is in the queue of a port. -/
def queue (p : Id) : List (T × Id) := ((w.ports p).map (·.messageq)).getD []

/-- Messages that are under way, the oldest first. -/
def underway : List (Letter Id T) := w.ready ++ w.timers.map Prod.snd

end Network

/-- What comes to a port. -/
def arrivals (p : Id) (ls : List (Letter Id T)) : List (T × Id) :=
  (ls.filter (·.destination = p)).map fun l => (l.message, l.source)

theorem least_sorted {α : Type} {x : Nat × α} {xs : List (Nat × α)}
    (sorted : ((x :: xs).map Prod.fst).Pairwise (· ≤ ·)) : least (x :: xs) = some (x, xs) := by
  induction xs generalizing x with
  | nil => rfl
  | cons y ys ih =>
    obtain ⟨first, rest⟩ := List.pairwise_cons.mp sorted
    rw [least, ih rest]
    exact if_pos (first y.1 List.mem_cons_self)

@[simp] theorem arrivals_append (p : Id) (ls ms : List (Letter Id T)) :
    arrivals p (ls ++ ms) = arrivals p ls ++ arrivals p ms := by
  simp [arrivals]

namespace Network

variable {w w' : Network Id T} {p q : Id} {r delay : Nat} {active : Bool} {port : Port Id T} {l : Label Id T}
  {ls : List (Label Id T)}

omit [DecidableEq Id] in
theorem queue_some (here : w.ports p = some port) : w.queue p = port.messageq := by
  rw [queue, here, Option.map_some, Option.getD_some]

/-- The port has another queue. -/
theorem queue_update {ports : Id → Option (Port Id T)} (same : w'.ports = Function.update ports p (some port))
    (others : ports = w.ports) : w'.queue q = if q = p then port.messageq else w.queue q := by
  by_cases here : q = p
  · rw [if_pos here, queue_some (by rw [same, here, Function.update_self])]
  · rw [if_neg here, queue, same, others, Function.update_of_ne here, queue]

/-- What a receiver does: messages go from the queue to those received, in order. -/
structure Keeps (w w' : Network Id T) : Prop where
  timers : w'.timers = w.timers
  ready : w'.ready = w.ready
  now : w'.now = w.now
  sent : w'.sent = w.sent
  contents : ∀ q, w'.received q ++ w'.queue q = w.received q ++ w.queue q

theorem input_keeps (w : Network Id T) (p : Id) : Keeps w (w.input p) := by
  cases here : w.ports p with
  | some port =>
    simp only [input, here]
    exact ⟨rfl, rfl, rfl, rfl, fun _ => rfl⟩
  | none =>
    simp only [input, here]
    refine ⟨rfl, rfl, rfl, rfl, fun q => ?_⟩
    rw [queue_update (w := w) rfl rfl]
    by_cases same : q = p
    · rw [if_pos same, same, queue, here, Option.map_none, Option.getD_none]
    · rw [if_neg same]

theorem sleep_keeps (here : w.ports p = some port) (r : Nat) : Keeps w (w.sleep r p port) := by
  unfold sleep
  split
  · refine ⟨rfl, rfl, rfl, rfl, fun q => ?_⟩
    rw [queue_update (w := w) rfl rfl]
    by_cases same : q = p
    · rw [if_pos same, same, queue_some here]
    · rw [if_neg same]
  · exact ⟨rfl, rfl, rfl, rfl, fun _ => rfl⟩

theorem take_keeps {m : T × Id} {rest : List (T × Id)} (here : w.ports p = some port)
    (queued : port.messageq = m :: rest) (r : Nat) : Keeps w (w.take r p port m rest) := by
  refine ⟨rfl, rfl, rfl, rfl, fun q => ?_⟩
  rw [queue_update (w := w) rfl rfl]
  dsimp only [take]
  by_cases same : q = p
  · rw [if_pos same, same, Function.update_self, queue_some here, queued, List.append_assoc]
    rfl
  · rw [if_neg same, Function.update_of_ne same]

theorem receiveWithId_keeps (made : w.receiveWithId r p active = some w') : Keeps w w' := by
  obtain ⟨port, here, made⟩ := Option.map_eq_some_iff.mp made
  split at made
  · cases made
    exact sleep_keeps here r
  next m rest queued =>
    split at made
    · cases made
      exact take_keeps here queued r
    · cases made
      exact ⟨rfl, rfl, rfl, rfl, fun _ => rfl⟩

/-- Every message sent was received, is in its queue or is under way, in the order of
sending. -/
structure Delivers (delay : Nat) (w : Network Id T) : Prop where
  sorted : (w.timers.map Prod.fst).Pairwise (· ≤ ·)
  due : ∀ x ∈ w.timers, x.1 ≤ w.now + delay
  ledger : ∀ p, w.received p ++ w.queue p ++ arrivals p w.underway = arrivals p w.sent

theorem Delivers.keeps (delivers : Delivers delay w) (keeps : Keeps w w') : Delivers delay w' := by
  refine ⟨keeps.timers ▸ delivers.sorted, keeps.timers ▸ keeps.now ▸ delivers.due, fun p => ?_⟩
  rw [keeps.contents, underway, keeps.ready, keeps.timers, keeps.sent]
  exact delivers.ledger p

theorem step_delivers (delivers : Delivers delay w) (made : step delay w l = some w') : Delivers delay w' := by
  cases l with
  | send source destination m =>
    cases made
    have keeps := input_keeps w destination
    refine ⟨?_, ?_, fun p => ?_⟩
    · -- the new deadline is the latest
      rw [List.map_append, List.pairwise_append]
      refine ⟨delivers.sorted, List.pairwise_singleton _ _, fun a old b new => ?_⟩
      obtain ⟨x, member, rfl⟩ := List.mem_map.mp old
      cases List.mem_singleton.mp new
      exact delivers.due x member
    · intro x member
      dsimp only at member ⊢
      rw [keeps.now]
      rcases List.mem_append.mp member with old | new
      · exact delivers.due x old
      · cases List.mem_singleton.mp new
        exact Nat.le_refl _
    · unfold underway
      dsimp only
      rw [keeps.ready, List.map_append, ← List.append_assoc, arrivals_append p (w.ready ++ _), arrivals_append p w.sent,
        ← List.append_assoc, ← delivers.ledger p]
      exact congrArg (· ++ arrivals p w.underway ++ _) (keeps.contents p)
  | tick time =>
    obtain ⟨later, same⟩ := Option.ite_none_right_eq_some.mp made
    cases same
    exact ⟨delivers.sorted, fun x member => (delivers.due x member).trans (Nat.add_le_add_right later _), delivers.ledger⟩
  | expire =>
    simp only [step] at made
    split at made
    next deadline letter timers first =>
      obtain ⟨_, same⟩ := Option.ite_none_right_eq_some.mp made
      cases same
      cases timed : w.timers with
      | nil =>
        rw [timed] at first
        cases first
      | cons x xs =>
        have sorted := delivers.sorted
        rw [timed] at sorted first
        cases (least_sorted sorted).symm.trans first
        refine ⟨(List.pairwise_cons.mp sorted).2, fun y member => delivers.due y ?_, fun p => ?_⟩
        · rw [timed]
          exact List.mem_cons_of_mem _ member
        · have ledger := delivers.ledger p
          rw [underway, timed] at ledger
          unfold underway
          dsimp only
          rw [List.append_assoc w.ready]
          exact ledger
    · cases made
  | arrive =>
    simp only [step] at made
    split at made
    · cases made
    next letter ready waiting =>
      obtain ⟨port, here, rfl⟩ := Option.map_eq_some_iff.mp made
      refine ⟨delivers.sorted, delivers.due, fun p => ?_⟩
      have ledger := delivers.ledger p
      rw [underway, waiting, List.cons_append, ← List.singleton_append, arrivals_append] at ledger
      rw [queue_update (w := w) rfl rfl]
      dsimp only [deliver, underway]
      by_cases same : p = letter.destination
      · rw [same, queue_some here] at ledger
        rw [if_pos same, same]
        simpa [arrivals] using ledger
      · have none : arrivals p [letter] = [] := by
          simp [arrivals, Ne.symm same]
        rw [if_neg same, ← ledger, none, List.nil_append]
  | receive r p active =>
    simp only [step] at made
    split at made
    · cases made
    · exact (delivers.keeps (input_keeps w p)).keeps (receiveWithId_keeps made)
  | wake r active =>
    simp only [step] at made
    split at made
    · split at made
      · exact delivers.keeps (receiveWithId_keeps made)
      · cases made
    · cases made
  | resolve r =>
    simp only [step] at made
    split at made
    · exact delivers.keeps (receiveWithId_keeps made)
    · cases made
  | cancel r =>
    obtain ⟨_, _, rfl⟩ := Option.map_eq_some_iff.mp made
    exact ⟨delivers.sorted, delivers.due, delivers.ledger⟩

/-- A receiver that sleeps has been woken, or it waits for the next message and its port has
none. -/
def Waits (w : Network Id T) : Prop :=
  ∀ r p e, w.receivers r = some ⟨p, .event e⟩ →
    e ∈ w.triggered ∨ ∃ port, w.ports p = some port ∧ port.receiverEvent = e ∧ port.messageq = []

theorem input_waits (waits : w.Waits) (p : Id) : (w.input p).Waits := by
  cases here : w.ports p with
  | some port =>
    simp only [input, here]
    exact waits
  | none =>
    simp only [input, here]
    intro r q e asleep
    rcases waits r q e asleep with woken | ⟨port, there, rest⟩
    · exact .inl woken
    · have other : q ≠ p := by
        rintro rfl
        cases here.symm.trans there
      exact .inr ⟨port, (Function.update_of_ne other _ _).trans there, rest⟩

theorem sleep_waits (waits : w.Waits) (here : w.ports p = some port) (empty : port.messageq = []) (r : Nat) :
    (w.sleep r p port).Waits := by
  unfold sleep
  split
  next spent =>
    intro s q e asleep
    dsimp only at asleep ⊢
    by_cases mine : s = r
    · rw [mine, Function.update_self] at asleep
      cases asleep
      exact .inr ⟨_, Function.update_self .., rfl, empty⟩
    · rw [Function.update_of_ne mine] at asleep
      rcases waits s q e asleep with woken | ⟨port', there, event, rest⟩
      · exact .inl woken
      · by_cases same : q = p
        · subst same
          cases here.symm.trans there
          exact .inl (event ▸ spent)
        · exact .inr ⟨port', (Function.update_of_ne same _ _).trans there, event, rest⟩
  · intro s q e asleep
    dsimp only at asleep ⊢
    by_cases mine : s = r
    · rw [mine, Function.update_self] at asleep
      cases asleep
      exact .inr ⟨port, here, rfl, empty⟩
    · rw [Function.update_of_ne mine] at asleep
      exact waits s q e asleep

theorem take_waits {m : T × Id} {rest : List (T × Id)} (waits : w.Waits) (here : w.ports p = some port)
    (queued : port.messageq = m :: rest) (r : Nat) : (w.take r p port m rest).Waits := by
  intro s q e asleep
  dsimp only [take] at asleep ⊢
  by_cases mine : s = r
  · rw [mine, Function.update_self] at asleep
    cases asleep
  · rw [Function.update_of_ne mine] at asleep
    rcases waits s q e asleep with woken | ⟨port', there, event, empty⟩
    · exact .inl woken
    · have other : q ≠ p := by
        rintro rfl
        cases here.symm.trans there
        cases queued.symm.trans empty
      exact .inr ⟨port', (Function.update_of_ne other _ _).trans there, event, empty⟩

omit [DecidableEq Id] in
theorem Waits.leave {stage : Option (Receiver Id)} (waits : w.Waits) (r : Nat)
    (awake : ∀ p e, stage ≠ some ⟨p, .event e⟩) :
    Waits { w with receivers := Function.update w.receivers r stage } := by
  intro s q e asleep
  by_cases mine : s = r
  · rw [mine] at asleep
    exact absurd ((Function.update_self ..).symm.trans asleep) (awake q e)
  · exact waits s q e ((Function.update_of_ne mine _ _).symm.trans asleep)

theorem receiveWithId_waits (waits : w.Waits) (made : w.receiveWithId r p active = some w') : w'.Waits := by
  obtain ⟨port, here, made⟩ := Option.map_eq_some_iff.mp made
  split at made
  next empty =>
    cases made
    exact sleep_waits waits here empty r
  next m rest queued =>
    split at made
    · cases made
      exact take_waits waits here queued r
    · cases made
      exact waits.leave r (by simp)

theorem deliver_waits {letter : Letter Id T} (waits : w.Waits) (here : w.ports letter.destination = some port)
    (ready : List (Letter Id T)) : Waits { w.deliver letter port with ready } := by
  intro r q e asleep
  dsimp only [deliver] at asleep ⊢
  rcases waits r q e asleep with woken | ⟨port', there, event, rest⟩
  · exact .inl (List.mem_cons_of_mem _ woken)
  · by_cases same : q = letter.destination
    · subst same
      cases here.symm.trans there
      exact .inl (event ▸ List.mem_cons_self)
    · exact .inr ⟨port', (Function.update_of_ne same _ _).trans there, event, rest⟩

theorem step_waits (waits : w.Waits) (made : step delay w l = some w') : w'.Waits := by
  cases l with
  | send source destination m =>
    cases made
    exact input_waits waits destination
  | tick time =>
    obtain ⟨_, same⟩ := Option.ite_none_right_eq_some.mp made
    cases same
    exact waits
  | expire =>
    simp only [step] at made
    split at made
    · obtain ⟨_, same⟩ := Option.ite_none_right_eq_some.mp made
      cases same
      exact waits
    · cases made
  | arrive =>
    simp only [step] at made
    split at made
    · cases made
    · obtain ⟨port, here, rfl⟩ := Option.map_eq_some_iff.mp made
      exact deliver_waits waits here _
  | receive r p active =>
    simp only [step] at made
    split at made
    · cases made
    · exact receiveWithId_waits (input_waits waits p) made
  | wake r active =>
    simp only [step] at made
    split at made
    · split at made
      · exact receiveWithId_waits waits made
      · cases made
    · cases made
  | resolve r =>
    simp only [step] at made
    split at made
    · exact receiveWithId_waits waits made
    · cases made
  | cancel r =>
    obtain ⟨_, _, rfl⟩ := Option.map_eq_some_iff.mp made
    exact waits.leave r (by simp)

theorem initial_delivers : Delivers delay ({} : Network Id T) :=
  ⟨.nil, by rintro _ ⟨⟩, fun _ => rfl⟩

end Network

/-- Each port receives what was sent to it, once and in the order of sending, whatever
receivers are cancelled. -/
theorem delivered_in_order {delay : Nat} {ls : List (Label Id T)} {w : Network Id T}
    (path : Reaches (Network.step delay) {} ls w) (p : Id) :
    w.received p ++ w.queue p ++ arrivals p w.underway = arrivals p w.sent :=
  (path.invariant Network.step_delivers Network.initial_delivers).ledger p

/-- A receiver is cancelled after it found the first message. -/
theorem delivered_in_order_cancelled : ∃ w : Network Nat Nat,
    Reaches (Network.step 20) {} [.receive 0 2 false, .send 1 2 10, .tick 5, .send 1 2 11, .tick 30, .expire, .arrive,
      .wake 0 false, .cancel 0, .receive 1 2 true] w ∧
    w.received 2 = [(10, 1)] ∧ w.received 2 ++ w.queue 2 ++ arrivals 2 w.underway = [(10, 1), (11, 1)] := by
  obtain ⟨w, ran, received, sent⟩ : ∃ w : Network Nat Nat, run (Network.step 20) {} [.receive 0 2 false, .send 1 2 10,
      .tick 5, .send 1 2 11, .tick 30, .expire, .arrive, .wake 0 false, .cancel 0, .receive 1 2 true] = some w ∧
      w.received 2 = [(10, 1)] ∧ arrivals 2 w.sent = [(10, 1), (11, 1)] := ⟨_, rfl, rfl, rfl⟩
  have path := run_iff_reaches.mp ran
  exact ⟨w, path, received, (delivered_in_order path 2).trans sent⟩

/-- A receiver that sleeps without having been woken has nothing to receive: all that came
to its port was received, and what is under way will wake it. -/
theorem receivers_wake {delay : Nat} {ls : List (Label Id T)} {w : Network Id T}
    (path : Reaches (Network.step delay) {} ls w) {r e : Nat} {p : Id}
    (asleep : w.receivers r = some ⟨p, .event e⟩) (unwoken : e ∉ w.triggered) :
    w.received p ++ arrivals p w.underway = arrivals p w.sent ∧
      ∃ port, w.ports p = some port ∧ port.receiverEvent = e := by
  have waits : w.Waits := path.invariant Network.step_waits (by rintro _ _ _ ⟨⟩)
  obtain ⟨port, here, event, empty⟩ := (waits r p e asleep).resolve_left unwoken
  have ledger := (path.invariant Network.step_delivers Network.initial_delivers).ledger p
  rw [Network.queue_some here, empty, List.append_nil] at ledger
  exact ⟨ledger, port, here, event⟩

/-- Another receiver had the first message. -/
theorem receivers_wake_second : ∃ w : Network Nat Nat,
    Reaches (Network.step 20) {} [.send 1 2 10, .tick 20, .expire, .arrive, .receive 0 2 true, .receive 1 2 false,
      .send 3 2 11] w ∧
    w.received 2 ++ arrivals 2 w.underway = [(10, 1), (11, 3)] := by
  obtain ⟨w, ran, asleep, unwoken, sent⟩ : ∃ w : Network Nat Nat, run (Network.step 20) {} [.send 1 2 10, .tick 20,
      .expire, .arrive, .receive 0 2 true, .receive 1 2 false, .send 3 2 11] = some w ∧
      w.receivers 1 = some ⟨2, .event 1⟩ ∧ 1 ∉ w.triggered ∧ arrivals 2 w.sent = [(10, 1), (11, 3)] :=
    ⟨_, rfl, rfl, by decide, rfl⟩
  have path := run_iff_reaches.mp ran
  exact ⟨w, path, (receivers_wake path asleep unwoken).1.trans sent⟩

end Cotamer.Netsim

import Cotamer.Fd.Registered

/-! Batches of notifications. Coroutines run between two notifications of a batch,
so a notification can be about a body that is closed by the time it is delivered;
the epochs tell. -/
namespace Cotamer.Fd.Watches
open Transition

/-- What the notifier returns: the data of a registration and what is ready. Whose
registration it was is recorded. -/
structure Notification where
  fd : Nat
  mask : FdEvent
  epoch : Epoch
  body : Option Nat
  deriving DecidableEq, Repr

/-- The watches, and a batch that is being delivered. `owner` records for which body
the notifier was last told of a descriptor, `due` the events that notifications of
the registrations in the notifier are for, and `triggered` those that were triggered. -/
structure Polling where
  fds : State := {}
  owner : Nat → Option Nat := fun _ => none
  batch : List Notification := []
  due : List Nat := []
  triggered : List Nat := []

inductive Move where
  | op (l : Label)
  | poll (reports : List (Nat × FdEvent))   -- epoll_wait
  | deliver                                 -- batch.pop, then take_watch_list
  | pop                                     -- pop_watch_list_event, then driver_trigger
  deriving DecidableEq, Repr

namespace Polling

/-- `watch_fds` is not running. -/
def idle (s : Polling) : Bool := s.batch.isEmpty && s.fds.detached.isEmpty

/-- Updates are made by the loop, outside `watch_fds`. -/
def allows (s : Polling) : Label → Bool
  | .take _ _ _ | .pop => false
  | .update => s.idle
  | _ => true

/-- A registration that changes is one of the body that the record has now. -/
def moved (s : Polling) (fds : State) : Polling :=
  { s with fds, owner := fun fd =>
    if fds.kernel.lookup fd = s.fds.kernel.lookup fd then s.owner fd else (fds.fdrs fd).body }

/-- The notifier reports with the data of the registration. -/
def report (s : Polling) (r : Nat × FdEvent) : Option Notification :=
  (s.fds.kernel.lookup r.1).map fun reg => ⟨r.1, r.2, reg.2, s.owner r.1⟩

/-- The registration in the notifier has produced the notification. -/
def fresh (s : Polling) (n : Notification) : Bool :=
  (s.fds.kernel.lookup n.fd).any fun reg => reg.2 == n.epoch

/-- The live watches that a notification of the present registration is for. -/
def called (s : Polling) (n : Notification) : List Nat :=
  if s.fresh n then
    ((s.fds.fdrs n.fd).watches.filter fun w => !s.fds.empty w && n.mask &&& w.mask ≠ 0).map Watch.ev
  else []

def step (s : Polling) : Move → Option Polling
  | .op l => if s.allows l then (s.fds.step l).map s.moved else none
  | .poll reports => if s.idle then some { s with batch := reports.filterMap s.report } else none
  | .deliver =>
    match s.batch with
    | [] => none
    | n :: batch =>
      if s.fds.detached = [] then
        some { s with
          batch, fds := s.fds.takeWatchList n.fd n.mask n.epoch
          due := s.due ++ s.called n }
      else none
  | .pop =>
    match s.fds.detached with
    | [] => none
    | w :: detached =>
      some { s with
        fds := { s.fds with detached, emptied := s.fds.emptied ++ [w.ev] }
        triggered := s.triggered ++ [w.ev] }

/-- Notifications of the registrations in the notifier trigger the watches they are
for, and a notification of a registration of one body does nothing to the watches of
another. -/
structure Heeds (s : Polling) : Prop where
  current : ∀ e ∈ s.due, e ∈ s.triggered ∨ ∃ w ∈ s.fds.detached, w.ev = e
  stale : ∀ n ∈ s.batch, ∀ b, (s.fds.fdrs n.fd).body = some b → n.body ≠ some b →
    (s.fds.takeWatchList n.fd n.mask n.epoch).detached = s.fds.detached

/-- The epoch a record has when `watch` has given it a new body. -/
def nextEpoch (s : Polling) (fd : Nat) : Epoch :=
  if (s.fds.fdrs fd).body = none then (s.fds.fdrs fd).epoch else (s.fds.fdrs fd).epoch + 1

/-- No watch gives a record a new body and the epoch of a notification that is about
another one: epochs have not come round within the batch. -/
def Unwrapped (s : Polling) : Label → Prop
  | .watch b mask => ∀ body ∈ s.fds.bodies[b]?, mask = 0 ∨ (s.fds.fdrs body.baseFd).body = some b ∨
      ∀ n ∈ s.batch, n.fd = body.baseFd → n.epoch = s.nextEpoch body.baseFd → n.body = some b
  | _ => True

instance (s : Polling) : ∀ l, Decidable (s.Unwrapped l)
  | .watch b _ => inferInstanceAs (Decidable (∀ body ∈ s.fds.bodies[b]?, _))
  | .create _ | .close _ | .notifyClose _ | .take _ _ _ | .pop | .empty _ | .update => isTrue trivial

def Careful (s : Polling) : Move → Prop
  | .op l => s.fds.Undisplaced l ∧ s.Unwrapped l
  | _ => True

instance (s : Polling) : ∀ m, Decidable (s.Careful m)
  | .op l => inferInstanceAs (Decidable (s.fds.Undisplaced l ∧ s.Unwrapped l))
  | .poll _ | .deliver | .pop => isTrue trivial

end Polling

variable {s t middle : State} {fdu : FdUpdate} {l : Label} {fd : Nat} {p : Polling} {r : FdRec}

/-! What single operations leave alone. -/

theorem popUpdate_body (popped : s.popUpdate = some (fdu, middle)) (fd : Nat) :
    (middle.fdrs fd).body = (s.fdrs fd).body := by
  have record : ∀ (s : State) (fd' : Nat) (epoch : Epoch),
      ((s.setRec fd' { s.fdrs fd' with epoch }).fdrs fd).body = (s.fdrs fd).body := by
    intro s fd' epoch
    by_cases mine : fd = fd'
    · subst mine
      simp [State.setRec]
    · simp [State.setRec, Function.update_of_ne mine]
  simp only [State.popUpdate] at popped
  split at popped
  · contradiction
  · split at popped
    · cases Option.some.inj popped
      exact record { s with updates := _ } _ _
    · split at popped
      · cases Option.some.inj popped
        exact record { s with updates := _ } _ _
      · cases Option.some.inj popped
        rfl

theorem queue_detached (s : State) (fd : Nat) : (s.queue fd).detached = s.detached := by
  unfold State.queue
  split <;> rfl

theorem applyFdUpdate_detached (s : State) (fdu : FdUpdate) : (s.applyFdUpdate fdu).detached = s.detached := by
  simp only [State.applyFdUpdate]
  split <;> rfl

theorem fdClose_detached (s : State) (fd : Nat) : (s.fdClose fd).1.detached = s.detached := by
  simp only [State.fdClose]
  split
  · rfl
  · split
    · rfl
    · rw [queue_detached]
      rfl

theorem install_detached (s : State) (fd b : Nat) (mask : FdEvent) :
    (s.install fd b mask).detached = s.detached := by
  simp only [State.install]
  rw [queue_detached]
  rfl

theorem popUpdate_detached (popped : s.popUpdate = some (fdu, middle)) : middle.detached = s.detached := by
  simp only [State.popUpdate] at popped
  split at popped
  · contradiction
  · split at popped
    · cases Option.some.inj popped
      rfl
    · split at popped <;> cases Option.some.inj popped <;> rfl

/-- Only `take_watch_list` detaches watches. -/
theorem step_detached (allowed : p.allows l = true) (moved : s.step l = some t) : t.detached = s.detached := by
  cases l with
  | create fd =>
      simp only [State.step, Option.ite_none_left_eq_some] at moved
      cases Option.some.inj moved.2
      rfl
  | close b =>
      simp only [State.step] at moved
      split at moved
      · contradiction
      · cases Option.some.inj moved
        rfl
  | watch b mask =>
      obtain ⟨body, _, moved⟩ := Option.bind_eq_some_iff.mp moved
      simp only [State.watch] at moved
      split at moved
      · cases Option.some.inj moved
        rfl
      · split at moved
        · cases Option.some.inj moved
          exact install_detached ..
        · split at moved
          · cases Option.some.inj moved
            exact install_detached ..
          · have shut := fdClose_detached s body.baseFd
            split at moved
            · rename_i closed _ did
              cases Option.some.inj moved
              rw [install_detached]
              rwa [did] at shut
            · contradiction
  | notifyClose fd =>
      cases Option.some.inj moved
      have shut := fdClose_detached s fd
      simp only [State.notifyClose]
      split
      · rename_i closed _ _ did
        rw [applyFdUpdate_detached]
        rwa [did] at shut
      · rename_i same did
        rwa [did] at shut
  | take fd mask epoch => cases allowed
  | pop => cases allowed
  | empty e =>
      cases Option.some.inj moved
      rfl
  | update =>
      obtain ⟨⟨fdu, middle⟩, popped, eq⟩ := Option.map_eq_some_iff.mp moved
      cases eq
      rw [applyFdUpdate_detached, popUpdate_detached popped]

/-- Taking watches changes nothing but one chain and the update list. -/
theorem takeWatchList_record (s : State) (fd : Nat) (mask : FdEvent) (epoch : Epoch) :
    (s.takeWatchList fd mask epoch).kernel = s.kernel ∧ ∀ other,
      ((s.takeWatchList fd mask epoch).fdrs other).body = (s.fdrs other).body ∧
      ((s.takeWatchList fd mask epoch).fdrs other).epoch = (s.fdrs other).epoch ∧
      ((s.takeWatchList fd mask epoch).fdrs other).watches.Sublist (s.fdrs other).watches := by
  have chain : ∀ f : Watch → Bool, ∀ other,
      (Function.update s.fdrs fd { s.fdrs fd with watches := (s.fdrs fd).watches.filter f } other).body =
        (s.fdrs other).body ∧
      (Function.update s.fdrs fd { s.fdrs fd with watches := (s.fdrs fd).watches.filter f } other).epoch =
        (s.fdrs other).epoch ∧
      (Function.update s.fdrs fd
        { s.fdrs fd with watches := (s.fdrs fd).watches.filter f } other).watches.Sublist
        (s.fdrs other).watches := by
    intro f other
    by_cases mine : other = fd
    · subst mine
      rw [Function.update_self]
      exact ⟨rfl, rfl, List.filter_sublist⟩
    · rw [Function.update_of_ne mine]
      exact ⟨rfl, rfl, List.Sublist.refl _⟩
  simp only [State.takeWatchList]
  split
  · exact ⟨rfl, fun other => ⟨rfl, rfl, List.Sublist.refl _⟩⟩
  · split
    · exact ⟨rfl, chain _⟩
    · rw [State.queue_kernel, State.queue_fdrs]
      exact ⟨rfl, chain _⟩

/-- A notification with another epoch does nothing. -/
theorem takeWatchList_stale {mask : FdEvent} {epoch : Epoch} (used : epoch ≠ 0)
    (other : epoch ≠ (s.fdrs fd).epoch) : s.takeWatchList fd mask epoch = s :=
  if_pos (.inr ⟨used, other⟩)

/-- A notification with the epoch of the record detaches the watches it is for. -/
theorem takeWatchList_fresh {mask : FdEvent} {w : Watch} (member : w ∈ (s.fdrs fd).watches)
    (meets : mask &&& w.mask ≠ 0) :
    w ∈ (s.takeWatchList fd mask (s.fdrs fd).epoch).detached := by
  have some : (s.fdrs fd).watches ≠ [] := List.ne_nil_of_mem member
  have skip : ¬((s.fdrs fd).watches = [] ∨ ((s.fdrs fd).epoch ≠ 0 ∧ (s.fdrs fd).epoch ≠ (s.fdrs fd).epoch)) := by
    rintro (none | ⟨_, differs⟩)
    · exact some none
    · exact differs rfl
  have wanted : w ∈ (s.fdrs fd).watches.filter fun w => decide (mask &&& w.mask ≠ 0) || s.empty w := by
    rw [List.mem_filter, decide_eq_true meets]
    exact ⟨member, rfl⟩
  simp only [State.takeWatchList, skip, if_false]
  split
  · exact List.mem_append_right _ wanted
  · rw [queue_detached]
    exact List.mem_append_right _ wanted

/-! What holds between two steps. -/

/-- An undelivered notification that has the epoch of the record is about its body. -/
structure Tracks (p : Polling) : Prop where
  copied : p.fds.Copied
  current : p.fds.Current
  vacant : ∀ fd, (p.fds.fdrs fd).body = none → (p.fds.fdrs fd).watches = []
  unregistered : ∀ fd, (p.fds.fdrs fd).body = none → p.fds.kernel.lookup fd = none
  owned : ∀ fd m e, p.fds.kernel.lookup fd = some (m, e) → p.owner fd = (p.fds.fdrs fd).body
  used : ∀ n ∈ p.batch, n.epoch ≠ 0
  traced : ∀ n ∈ p.batch, n.epoch = (p.fds.fdrs n.fd).epoch → ∀ b, (p.fds.fdrs n.fd).body = some b →
    n.body = some b
  heeded : ∀ e ∈ p.due, e ∈ p.triggered ∨ ∃ w ∈ p.fds.detached, w.ev = e

theorem fresh_iff {n : Notification} :
    p.fresh n = true ↔ ∃ m, p.fds.kernel.lookup n.fd = some (m, n.epoch) := by
  rw [Polling.fresh]
  cases p.fds.kernel.lookup n.fd with
  | none => simp
  | some reg =>
      obtain ⟨m, e⟩ := reg
      simp

theorem Tracks.heeds (tracks : Tracks p) : p.Heeds where
  current := tracks.heeded
  stale n member b recorded other := by
    rw [takeWatchList_stale (tracks.used n member)]
    exact fun same => other (tracks.traced n member same b recorded)

/-- The records and the notifier stay as they are. -/
theorem Tracks.still (tracks : Tracks p) (still : State.Still p.fds t) (detached : t.detached = p.fds.detached) :
    Tracks (p.moved t) where
  copied := tracks.copied.still still.fdctl still.nfdctl still.kernel
  current := by
    show ∀ fd m e, t.kernel.lookup fd = some (m, e) → e = (t.fdrs fd).epoch
    rw [still.kernel, still.fdrs]
    exact tracks.current
  vacant := by
    show ∀ fd, (t.fdrs fd).body = none → (t.fdrs fd).watches = []
    rw [still.fdrs]
    exact tracks.vacant
  unregistered := by
    show ∀ fd, (t.fdrs fd).body = none → t.kernel.lookup fd = none
    rw [still.kernel, still.fdrs]
    exact tracks.unregistered
  owned := by
    simp only [Polling.moved, still.kernel, still.fdrs, if_true]
    exact tracks.owned
  used := tracks.used
  traced := by
    simp only [Polling.moved, still.fdrs]
    exact tracks.traced
  heeded := by
    show ∀ e ∈ p.due, e ∈ p.triggered ∨ ∃ w ∈ t.detached, w.ev = e
    rw [detached]
    exact tracks.heeded

/-- A watch joins a record, which it may give a new body. -/
theorem Tracks.install (tracks : Tracks p) {b : Nat} (edited : State.Edited p.fds t fd r)
    (detached : t.detached = p.fds.detached) (body : r.body = some b)
    (same : p.fds.kernel.lookup fd = none ∨ (p.fds.fdrs fd).body = some b ∧ r.epoch = (p.fds.fdrs fd).epoch)
    (told : ∀ n ∈ p.batch, n.fd = fd → n.epoch = r.epoch → n.body = some b) : Tracks (p.moved t) where
  copied := edited.copied tracks.copied
  current := by
    show ∀ fd m e, t.kernel.lookup fd = some (m, e) → e = (t.fdrs fd).epoch
    rw [edited.kernel, edited.fdrs]
    intro other m e registered
    by_cases mine : other = fd
    · subst mine
      rw [Function.update_self]
      rcases same with none | ⟨_, epoch⟩
      · rw [none] at registered
        contradiction
      · rw [epoch]
        exact tracks.current other m e registered
    · rw [Function.update_of_ne mine]
      exact tracks.current other m e registered
  vacant := by
    show ∀ fd, (t.fdrs fd).body = none → (t.fdrs fd).watches = []
    rw [edited.fdrs]
    intro other
    by_cases mine : other = fd
    · subst mine
      rw [Function.update_self, body]
      exact nofun
    · rw [Function.update_of_ne mine]
      exact tracks.vacant other
  unregistered := by
    show ∀ fd, (t.fdrs fd).body = none → t.kernel.lookup fd = none
    rw [edited.kernel, edited.fdrs]
    intro other
    by_cases mine : other = fd
    · subst mine
      rw [Function.update_self, body]
      exact nofun
    · rw [Function.update_of_ne mine]
      exact tracks.unregistered other
  owned := by
    simp only [Polling.moved, edited.kernel, if_true, edited.fdrs]
    intro other m e registered
    by_cases mine : other = fd
    · subst mine
      rw [Function.update_self, body]
      rcases same with none | ⟨before, _⟩
      · rw [none] at registered
        contradiction
      · rw [← before]
        exact tracks.owned other m e registered
    · rw [Function.update_of_ne mine]
      exact tracks.owned other m e registered
  used := tracks.used
  traced := by
    simp only [Polling.moved, edited.fdrs]
    intro n member
    by_cases mine : n.fd = fd
    · rw [mine, Function.update_self, body]
      rintro epoch _ ⟨⟩
      exact told n member mine epoch
    · rw [Function.update_of_ne mine]
      exact tracks.traced n member
  heeded := by
    show ∀ e ∈ p.due, e ∈ p.triggered ∨ ∃ w ∈ t.detached, w.ev = e
    rw [detached]
    exact tracks.heeded

theorem Tracks.watch (tracks : Tracks p) {b : Nat} {mask : FdEvent} (careful : p.Careful (.op (.watch b mask)))
    (moved : p.fds.step (.watch b mask) = some t) : Tracks (p.moved t) := by
  have detached := step_detached (p := p) (l := .watch b mask) rfl moved
  obtain ⟨body, found, moved⟩ := Option.bind_eq_some_iff.mp moved
  have undisplaced := careful.1 body found
  have unwrapped := careful.2 body found
  unfold State.watch at moved
  by_cases noMask : mask = 0
  · rw [if_pos noMask] at moved
    cases Option.some.inj moved
    exact tracks.still ⟨rfl, rfl, rfl, rfl, rfl, fun _ => id⟩ rfl
  · rw [if_neg noMask] at moved
    replace undisplaced := undisplaced.resolve_left noMask
    replace unwrapped := unwrapped.resolve_left noMask
    split at moved
    · rename_i vacant
      cases Option.some.inj moved
      apply tracks.install (State.install_edited p.fds body.baseFd b mask) detached rfl
      · exact .inl (tracks.unregistered body.baseFd vacant)
      · rcases unwrapped with mine | told
        · rw [vacant] at mine
          contradiction
        · intro n member same epoch
          apply told n member same
          rwa [Polling.nextEpoch, if_pos vacant]
    · rename_i owner recorded
      split at moved
      · rename_i mine
        subst mine
        cases Option.some.inj moved
        apply tracks.install (State.install_edited p.fds body.baseFd owner mask) detached rfl
        · exact .inr ⟨recorded, rfl⟩
        · intro n member same epoch
          exact tracks.traced n member (by rwa [same]) owner (by rwa [same])
      · rename_i differs
        have other : (p.fds.fdrs body.baseFd).body ≠ some b := by
          rw [recorded]
          exact fun same => differs (Option.some.inj same)
        split at moved
        · rename_i closed result did
          obtain ⟨b', e⟩ := result
          obtain ⟨edit, _, _⟩ := State.fdClose_some did
          cases Option.some.inj moved
          apply tracks.install (edit.trans (State.install_edited closed body.baseFd b mask)) detached rfl
          · rcases undisplaced with vacant | mine | unregistered
            · rw [recorded] at vacant
              contradiction
            · exact absurd mine other
            · exact .inl ((State.kernelMask_eq_zero tracks.copied).mp unregistered)
          · intro n member same epoch
            apply unwrapped.resolve_left other n member same
            rw [Polling.nextEpoch, if_neg (by rw [recorded]; exact nofun)]
            simpa [edit.fdrs] using epoch
        · contradiction

theorem Tracks.notifyClose (tracks : Tracks p) (fd : Nat) : Tracks (p.moved (p.fds.notifyClose fd)) := by
  have detached : (p.fds.notifyClose fd).detached = p.fds.detached :=
    step_detached (p := p) (l := .notifyClose fd) rfl rfl
  unfold State.notifyClose at detached ⊢
  cases did : p.fds.fdClose fd with
  | mk closed result =>
      cases result with
      | none =>
          rw [State.fdClose_none did]
          exact tracks.still (.refl _) rfl
      | some pair =>
          rw [did] at detached
          obtain ⟨edit, _, _⟩ := State.fdClose_some did
          have applied := State.applyFdUpdate_applied (edit.copied tracks.copied)
            { fd, mask := 0, epoch := pair.2 }
          have gone : (closed.applyFdUpdate { fd, mask := 0, epoch := pair.2 }).kernel.lookup fd = none := by
            rcases applied.lookup with ⟨same, unregistered⟩ | ⟨_, none⟩ | ⟨some, _⟩
            · rw [same]
              exact (State.kernelMask_eq_zero (edit.copied tracks.copied)).mp unregistered
            · exact none
            · exact absurd rfl some
          have fdrs := applied.fdrs.trans edit.fdrs
          have others : ∀ other, other ≠ fd → (closed.applyFdUpdate
              { fd, mask := 0, epoch := pair.2 }).kernel.lookup other = p.fds.kernel.lookup other := by
            intro other distinct
            rw [applied.others other distinct, edit.kernel]
          refine ⟨applied.copied (edit.copied tracks.copied) fun some => absurd rfl some,
            State.closed_current edit applied tracks.copied tracks.current, ?_, ?_, ?_, tracks.used, ?_, ?_⟩
          · intro other
            simp only [Polling.moved, fdrs]
            by_cases mine : other = fd
            · subst mine
              rw [Function.update_self]
              exact fun _ => rfl
            · rw [Function.update_of_ne mine]
              exact tracks.vacant other
          · intro other
            simp only [Polling.moved, fdrs]
            by_cases mine : other = fd
            · subst mine
              exact fun _ => gone
            · rw [Function.update_of_ne mine, others other mine]
              exact tracks.unregistered other
          · intro other m e
            simp only [Polling.moved, fdrs]
            by_cases mine : other = fd
            · subst mine
              rw [gone]
              exact nofun
            · rw [others other mine, if_pos rfl, Function.update_of_ne mine]
              exact tracks.owned other m e
          · intro n member
            simp only [Polling.moved, fdrs]
            by_cases mine : n.fd = fd
            · rw [mine, Function.update_self]
              exact fun _ _ none => nomatch none
            · rw [Function.update_of_ne mine]
              exact tracks.traced n member
          · show ∀ e ∈ p.due, e ∈ p.triggered ∨ ∃ w ∈ (closed.applyFdUpdate _).detached, w.ev = e
            rw [detached]
            exact tracks.heeded

theorem Tracks.update (tracks : Tracks p) (idle : p.idle = true) (moved : p.fds.step .update = some t) :
    Tracks (p.moved t) := by
  have detached := step_detached (p := p) (l := .update) idle moved
  have drained : p.batch = [] := List.isEmpty_iff.mp (Bool.and_eq_true_iff.mp idle).1
  obtain ⟨⟨fdu, middle⟩, popped, eq⟩ := Option.map_eq_some_iff.mp moved
  cases eq
  have body := popUpdate_body popped
  obtain ⟨r, taken⟩ := State.popUpdate_popped popped
  have copied := taken.copied tracks.copied
  have applied := State.applyFdUpdate_applied copied fdu
  have records : ∀ other, ((middle.applyFdUpdate fdu).fdrs other).body = (p.fds.fdrs other).body := by
    intro other
    rw [applied.fdrs]
    exact body other
  refine ⟨applied.copied copied fun some => (taken.epoch some).1,
    State.updated_current taken applied tracks.copied tracks.current, ?_, ?_, ?_, tracks.used, ?_, ?_⟩
  · intro other vacant
    have before := tracks.vacant other (records other ▸ vacant)
    show ((middle.applyFdUpdate fdu).fdrs other).watches = []
    rw [applied.fdrs, taken.fdrs]
    by_cases mine : other = fdu.fd
    · subst mine
      rwa [Function.update_self, taken.watches]
    · rwa [Function.update_of_ne mine]
  · intro other vacant
    have none := records other ▸ vacant
    have before := tracks.unregistered other none
    show (middle.applyFdUpdate fdu).kernel.lookup other = Option.none
    by_cases mine : other = fdu.fd
    · subst mine
      rcases applied.lookup with ⟨same, _⟩ | ⟨_, gone⟩ | ⟨some, _⟩
      · rw [same, taken.kernel]
        exact before
      · exact gone
      · rw [taken.mask, State.liveMask, tracks.vacant fdu.fd none] at some
        exact absurd rfl some
    · rw [applied.others other mine, taken.kernel]
      exact before
  · intro other m e registered
    simp only [Polling.moved, records]
    split
    · rename_i same
      have before : p.fds.kernel.lookup other = some (m, e) := same ▸ registered
      exact tracks.owned other m e before
    · rfl
  · intro n member
    rw [Polling.moved, drained] at member
    exact absurd member List.not_mem_nil
  · show ∀ e ∈ p.due, e ∈ p.triggered ∨ ∃ w ∈ (middle.applyFdUpdate fdu).detached, w.ev = e
    rw [detached]
    exact tracks.heeded

theorem Tracks.poll (tracks : Tracks p) (reports : List (Nat × FdEvent)) :
    Tracks { p with batch := reports.filterMap p.report } := by
  refine { tracks with used := ?_, traced := ?_ }
  all_goals
    intro n member
    obtain ⟨report, _, made⟩ := List.mem_filterMap.mp member
    obtain ⟨⟨m, e⟩, registered, rfl⟩ := Option.map_eq_some_iff.mp made
  · intro zero
    have kept := (tracks.copied.kept report.1 m e registered).2
    change e = 0 at zero
    rw [zero] at kept
    exact absurd kept (by decide)
  · intro _ b recorded
    exact (tracks.owned report.1 m e registered).trans recorded

theorem Tracks.deliver (tracks : Tracks p) {n : Notification} {batch : List Notification}
    (rest : p.batch = n :: batch) :
    Tracks { p with
      batch, fds := p.fds.takeWatchList n.fd n.mask n.epoch
      due := p.due ++ p.called n } := by
  obtain ⟨kernel, records⟩ := takeWatchList_record p.fds n.fd n.mask n.epoch
  have taken := State.takeWatchList_change p.fds n.fd n.mask n.epoch
  have moved : p.fds.step (.take n.fd n.mask n.epoch) = some (p.fds.takeWatchList n.fd n.mask n.epoch) := rfl
  have left : ∀ n' ∈ batch, n' ∈ p.batch := by
    intro n' member
    rw [rest]
    exact List.mem_cons_of_mem _ member
  refine ⟨State.step_copied tracks.copied moved, ?_, ?_, ?_, ?_, fun n' member => tracks.used n' (left n' member),
    ?_, ?_⟩
  · intro fd m e registered
    rw [kernel] at registered
    rw [(records fd).2.1]
    exact tracks.current fd m e registered
  · intro fd vacant
    rw [(records fd).1] at vacant
    have none := (records fd).2.2
    rw [tracks.vacant fd vacant] at none
    exact List.sublist_nil.mp none
  · intro fd vacant
    rw [(records fd).1] at vacant
    show (p.fds.takeWatchList n.fd n.mask n.epoch).kernel.lookup fd = none
    rw [kernel]
    exact tracks.unregistered fd vacant
  · intro fd m e registered
    rw [kernel] at registered
    rw [(records fd).1]
    exact tracks.owned fd m e registered
  · intro n' member
    rw [(records n'.fd).1, (records n'.fd).2.1]
    exact tracks.traced n' (left n' member)
  · intro e wanted
    rcases List.mem_append.mp wanted with before | now
    · rcases tracks.heeded e before with done | ⟨w, member, rfl⟩
      · exact .inl done
      · refine .inr ⟨w, ?_, rfl⟩
        simp only [State.takeWatchList]
        split
        · exact member
        · split
          · exact List.mem_append_left _ member
          · rw [queue_detached]
            exact List.mem_append_left _ member
    · simp only [Polling.called] at now
      split at now
      · rename_i fresh
        obtain ⟨w, chosen, rfl⟩ := List.mem_map.mp now
        obtain ⟨member, live⟩ := List.mem_filter.mp chosen
        have meets := of_decide_eq_true (Bool.and_eq_true_iff.mp live).2
        obtain ⟨m, registered⟩ := fresh_iff.mp fresh
        rw [tracks.current n.fd m n.epoch registered]
        exact .inr ⟨w, takeWatchList_fresh member meets, rfl⟩
      · exact absurd now List.not_mem_nil

theorem Tracks.pop (tracks : Tracks p) {w : Watch} {detached : List Watch}
    (rest : p.fds.detached = w :: detached) :
    Tracks { p with
      fds := { p.fds with detached, emptied := p.fds.emptied ++ [w.ev] }
      triggered := p.triggered ++ [w.ev] } where
  copied := tracks.copied.still rfl rfl rfl
  current := tracks.current
  vacant := tracks.vacant
  unregistered := tracks.unregistered
  owned := tracks.owned
  used := tracks.used
  traced := tracks.traced
  heeded e wanted := by
    rcases tracks.heeded e wanted with done | ⟨w', member, rfl⟩
    · exact .inl (List.mem_append_left _ done)
    · rw [rest] at member
      rcases List.mem_cons.mp member with rfl | later
      · exact .inl (List.mem_append_right _ (List.mem_singleton.mpr rfl))
      · exact .inr ⟨w', later, rfl⟩

variable {q : Polling} {move : Move} {moves : List Move}

theorem step_tracks (tracks : Tracks p) (careful : p.Careful move) (moved : p.step move = some q) :
    Tracks q := by
  cases move with
  | op l =>
      obtain ⟨allowed, moved⟩ := Option.ite_none_right_eq_some.mp moved
      obtain ⟨fds, stepped, rfl⟩ := Option.map_eq_some_iff.mp moved
      cases l with
      | create fd =>
          simp only [State.step, Option.ite_none_left_eq_some] at stepped
          cases Option.some.inj stepped.2
          exact tracks.still ⟨rfl, rfl, rfl, rfl, rfl, fun _ => id⟩ rfl
      | close b =>
          simp only [State.step] at stepped
          split at stepped
          · contradiction
          · cases Option.some.inj stepped
            exact tracks.still ⟨rfl, rfl, rfl, rfl, rfl, fun _ => id⟩ rfl
      | watch b mask => exact tracks.watch careful stepped
      | notifyClose fd =>
          cases Option.some.inj stepped
          exact tracks.notifyClose fd
      | take fd mask epoch => cases allowed
      | pop => cases allowed
      | empty e =>
          cases Option.some.inj stepped
          exact tracks.still ⟨rfl, rfl, rfl, rfl, rfl, fun _ => List.mem_append_left _⟩ rfl
      | update => exact tracks.update allowed stepped
  | poll reports =>
      obtain ⟨_, moved⟩ := Option.ite_none_right_eq_some.mp moved
      cases Option.some.inj moved
      exact tracks.poll reports
  | deliver =>
      simp only [Polling.step] at moved
      split at moved
      · contradiction
      · rename_i n batch rest
        obtain ⟨_, moved⟩ := Option.ite_none_right_eq_some.mp moved
        cases Option.some.inj moved
        exact tracks.deliver rest
  | pop =>
      simp only [Polling.step] at moved
      split at moved
      · contradiction
      · rename_i w detached rest
        cases Option.some.inj moved
        exact tracks.pop rest

theorem start_tracks : Tracks {} where
  copied := State.initial_copied
  current := State.initial_current
  vacant _ _ := rfl
  unregistered _ _ := AList.lookup_empty _
  owned _ _ _ registered := nomatch registered
  used _ member := nomatch member
  traced _ member := nomatch member
  heeded _ wanted := nomatch wanted

/-- As long as no watch displaces a registered body and epochs do not come round
within a batch, stale notifications do nothing and the others trigger the watches
they are for. -/
theorem notifications_heeded (meets : Meets Polling.step Polling.Careful {} moves) :
    Always Polling.step Polling.Heeds {} moves :=
  (always_of_meets step_tracks meets start_tracks).mono fun _ tracks => tracks.heeds

/-- Two descriptors are reported in one batch; the coroutine woken by the first closes
the second and uses its number for another body. -/
theorem notifications_heeded_reused :
    let moves : List Move := [.op (.create 3), .op (.create 4), .op (.watch 0 1), .op (.watch 1 1),
      .op .update, .op .update, .poll [(3, 1), (4, 1)], .deliver, .pop, .op (.close 1),
      .op (.notifyClose 4), .op (.create 4), .op (.watch 2 1), .deliver]
    ∃ p, Reaches Polling.step {} moves p ∧ p.due = [0] ∧ p.triggered = [0] ∧ p.fds.detached = [] ∧
      Always Polling.step Polling.Heeds {} moves :=
  ⟨_, run_iff_reaches.mp rfl, by decide, by decide, by decide, notifications_heeded (by decide)⟩

/-- A new body on the number of a closed one is never told: the notifier reports with
the epoch of the old one, which `watch` has made stale. -/
theorem displaced_never_told :
    ∃ p, Reaches Polling.step {} [.op (.create 3), .op (.watch 0 1), .op .update, .op (.close 0),
        .op (.create 3), .op (.watch 1 1), .op .update, .poll [(3, 1)], .deliver] p ∧
      p.fds.updates = [] ∧ p.due = [1] ∧ ¬p.Heeds := by
  refine ⟨_, run_iff_reaches.mp rfl, by decide, by decide, fun heeds => ?_⟩
  exact absurd (heeds.current 1 (by decide)) (by decide)

end Cotamer.Fd.Watches

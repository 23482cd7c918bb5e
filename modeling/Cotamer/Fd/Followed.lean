import Cotamer.Fd.Notified
import Cotamer.Fd.Wellformed

/-! One watch is followed through a run: its record, its registration in the notifier
and the update between the two. -/
namespace Cotamer.Fd.Table
open Links Transition
open Watches (FdEvent Epoch FdUpdate Watch Within within_zero within_or within_refl userEpoch)

section lists

variable {v v' : Watches.State} {k k' : Epoll} {fd u b e : Nat} {mask m : FdEvent} {ep : Epoch} {l : Label}

/-- Events were made. -/
structure Kept (v : Watches.State) : Prop where
  emptied : ∀ e ∈ v.emptied, e < v.next
  made : ∀ u, ∀ w ∈ (v.fdrs u).watches, w.ev < v.next

/-- The watch is in the chain, and its event has not triggered. -/
def Waiting (v : Watches.State) (fd e : Nat) (mask : FdEvent) : Prop :=
  { ev := e, mask } ∈ (v.fdrs fd).watches ∧ e ∉ v.emptied

/-- The number can be updated, a registration that covers the watch has the epoch that the
record will have after the update, and without one pending the watch is covered. -/
structure Followed (v : Watches.State) (k : Epoll) (fd : Nat) (mask : FdEvent) : Prop where
  backed : k.Backed fd
  covers : Within mask (Nibbles.get k.fdctl fd) → k.Registers fd (toldEpoch mask (v.fdrs fd).epoch)
  asked : fd ∉ v.updates → Within mask (Nibbles.get k.fdctl fd) ∧ k.Registers fd (v.fdrs fd).epoch

/-- A step that leaves the watch and its record alone. -/
structure Aside (v v' : Watches.State) (fd e : Nat) (mask : FdEvent) : Prop where
  waiting : Waiting v' fd e mask → Waiting v fd e mask ∧ (v'.fdrs fd).epoch = (v.fdrs fd).epoch
  updates : fd ∉ v'.updates → fd ∉ v.updates

theorem Aside.followed (aside : Aside v v' fd e mask) (steady : k.Steady k' fd) (opened : k'.opened fd = true)
    (followed : Waiting v fd e mask → Followed v k fd mask) : Waiting v' fd e mask → Followed v' k' fd mask := by
  intro waiting
  obtain ⟨before, epoch⟩ := aside.waiting waiting
  have old := followed before
  refine ⟨steady.backed opened old.backed, fun within => ?_, fun clean => ?_⟩
  · rw [epoch]
    exact steady.registers (old.covers (steady.nibble ▸ within))
  · obtain ⟨within, current⟩ := old.asked (aside.updates clean)
    rw [epoch, steady.nibble]
    exact ⟨within, steady.registers current⟩

theorem install_events (v : Watches.State) (u b : Nat) (m : FdEvent) :
    (v.install u b m).emptied = v.emptied ∧ (v.install u b m).next = v.next + 1 := by
  simp [Watches.State.install, Watches.State.setRec]

theorem fdClose_events {closed : Watches.State} {pair : Nat × Epoch} (did : v.fdClose u = (closed, some pair)) :
    closed.emptied = v.emptied ++ (v.fdrs u).watches.map Watch.ev ∧ closed.next = v.next := by
  simp only [Watches.State.fdClose] at did
  split at did
  · cases did
  · split at did
    · cases did
    · cases did
      constructor
      · simp [Watches.State.setRec]
      · unfold Watches.State.queue
        split <;> rfl

/-- What `watch` does: a chain is extended or replaced, or nothing happens. -/
structure Watched (v v' : Watches.State) (u : Nat) (m : FdEvent) : Prop where
  next : v'.next = v.next + 1
  updates : ∀ fd, fd ∈ v.updates → fd ∈ v'.updates
  others : ∀ fd, fd ≠ u → v'.fdrs fd = v.fdrs fd
  mine : v'.fdrs = v.fdrs ∧ v'.emptied = v.emptied ∨
    (v'.fdrs u).epoch = (v.fdrs u).epoch ∧ v'.emptied = v.emptied ∧
      (v'.fdrs u).watches = (v.fdrs u).watches ++ [{ ev := v.next, mask := m }] ∨
    (v'.fdrs u).watches = [{ ev := v.next, mask := m }] ∧
      v'.emptied = v.emptied ++ (v.fdrs u).watches.map Watch.ev

theorem install_chain (v : Watches.State) (u b : Nat) (m : FdEvent) : (v.install u b m).fdrs u =
    { v.fdrs u with body := b, watches := (v.fdrs u).watches ++ [{ ev := v.next, mask := m }] } := by
  rw [(Watches.State.install_edited v u b m).fdrs, Function.update_self]

theorem install_watched (v : Watches.State) (u b : Nat) (m : FdEvent) : Watched v (v.install u b m) u m := by
  have edited := Watches.State.install_edited v u b m
  obtain ⟨emptied, next⟩ := install_events v u b m
  refine ⟨next, fun fd member => (edited.updates fd).mpr (.inr member), ?_, .inr (.inl ?_)⟩
  · intro fd other
    rw [edited.fdrs, Function.update_of_ne other]
  · rw [install_chain]
    exact ⟨rfl, emptied, rfl⟩

theorem watch_watched (moved : v.watch u b m = some v') : Watched v v' u m := by
  unfold Watches.State.watch at moved
  split at moved
  · cases Option.some.inj moved
    exact ⟨rfl, fun _ => id, fun _ _ => rfl, .inl ⟨rfl, rfl⟩⟩
  · split at moved
    · cases Option.some.inj moved
      exact install_watched v u b m
    · split at moved
      · cases Option.some.inj moved
        exact install_watched v u b m
      · split at moved
        · rename_i closed pair did
          cases Option.some.inj moved
          obtain ⟨edit, _, _⟩ := Watches.State.fdClose_some did
          obtain ⟨emptied, next⟩ := fdClose_events did
          have watched := install_watched closed u b m
          obtain ⟨emptied', next'⟩ := install_events closed u b m
          refine ⟨?_, ?_, ?_, .inr (.inr ⟨?_, ?_⟩)⟩
          · rw [next', next]
          · exact fun fd member => watched.updates fd ((edit.updates fd).mpr (.inr member))
          · intro fd other
            rw [watched.others fd other, edit.fdrs, Function.update_of_ne other]
          · rw [install_chain, edit.fdrs, Function.update_self, next]
            rfl
          · rw [emptied', emptied]
        · contradiction

/-- What a watch that is followed sees of other watches. -/
theorem Watched.aside (watched : Watched v v' u m) (small : e < v.next) : Aside v v' fd e mask := by
  have live : ∀ {es : List Nat}, v'.emptied = v.emptied ++ es → e ∉ v'.emptied → e ∉ v.emptied := by
    intro es grown waits gone
    rw [grown] at waits
    exact waits (List.mem_append_left es gone)
  refine ⟨fun waiting => ?_, fun clean member => clean (watched.updates fd member)⟩
  obtain ⟨member, waits⟩ := waiting
  by_cases same : fd = u
  · subst same
    rcases watched.mine with ⟨fdrs, emptied⟩ | ⟨epoch, emptied, watches⟩ | ⟨watches, _⟩
    · rw [fdrs] at member ⊢
      exact ⟨⟨member, emptied ▸ waits⟩, rfl⟩
    · rw [watches, List.mem_append, List.mem_singleton] at member
      rcases member with old | new
      · exact ⟨⟨old, emptied ▸ waits⟩, epoch⟩
      · exact absurd (congrArg Watch.ev new) (Nat.ne_of_lt small)
    · rw [watches, List.mem_singleton] at member
      exact absurd (congrArg Watch.ev member) (Nat.ne_of_lt small)
  · rw [watched.others fd same] at member ⊢
    refine ⟨⟨member, ?_⟩, rfl⟩
    rcases watched.mine with ⟨_, emptied⟩ | ⟨_, emptied, _⟩ | ⟨_, emptied⟩
    · exact emptied ▸ waits
    · exact emptied ▸ waits
    · exact live emptied waits

theorem Watched.kept (watched : Watched v v' u m) (kept : Kept v) : Kept v' := by
  have bound : ∀ e, e < v.next → e < v'.next := by
    intro e small
    rw [watched.next]
    exact Nat.lt_succ_of_lt small
  have old : ∀ fd, ∀ w ∈ (v.fdrs fd).watches, w.ev < v'.next := fun fd w member => bound _ (kept.made fd w member)
  have fresh : v.next < v'.next := by
    rw [watched.next]
    exact Nat.lt_succ_self _
  refine ⟨fun e gone => ?_, fun fd w member => ?_⟩
  · rcases watched.mine with ⟨_, emptied⟩ | ⟨_, emptied, _⟩ | ⟨_, emptied⟩
    · exact bound e (kept.emptied e (emptied ▸ gone))
    · exact bound e (kept.emptied e (emptied ▸ gone))
    · rw [emptied, List.mem_append] at gone
      rcases gone with before | now
      · exact bound e (kept.emptied e before)
      · obtain ⟨w, member, rfl⟩ := List.mem_map.mp now
        exact old u w member
  · by_cases same : fd = u
    · subst same
      rcases watched.mine with ⟨fdrs, _⟩ | ⟨_, _, watches⟩ | ⟨watches, _⟩
      · exact old fd w (fdrs ▸ member)
      · rw [watches, List.mem_append, List.mem_singleton] at member
        rcases member with before | rfl
        · exact old fd w before
        · exact fresh
      · rw [watches, List.mem_singleton] at member
        rw [member]
        exact fresh
    · exact old fd w (watched.others fd same ▸ member)

/-- The watches of a closed body are gone. -/
theorem fdClose_keeps (kept : Kept v) (u fd e : Nat) (mask : FdEvent) :
    Kept (v.fdClose u).1 ∧ (v.fdClose u).1.next = v.next ∧ Aside v (v.fdClose u).1 fd e mask := by
  cases did : v.fdClose u with
  | mk closed result =>
      cases result with
      | none =>
          rw [Watches.State.fdClose_none did]
          exact ⟨kept, rfl, fun waiting => ⟨waiting, rfl⟩, id⟩
      | some pair =>
          obtain ⟨edit, _, _⟩ := Watches.State.fdClose_some did
          obtain ⟨emptied, next⟩ := fdClose_events did
          refine ⟨⟨fun e gone => ?_, fun other w member => ?_⟩, next, fun ⟨member, waits⟩ => ?_,
            fun clean member => clean ((edit.updates fd).mpr (.inr member))⟩
          · rw [emptied, List.mem_append] at gone
            rw [next]
            rcases gone with before | now
            · exact kept.emptied e before
            · obtain ⟨w, member, rfl⟩ := List.mem_map.mp now
              exact kept.made u w member
          · rw [next]
            rw [edit.fdrs] at member
            by_cases same : other = u
            · subst same
              rw [Function.update_self] at member
              exact absurd member List.not_mem_nil
            · rw [Function.update_of_ne same] at member
              exact kept.made other w member
          · rw [edit.fdrs] at member ⊢
            by_cases same : fd = u
            · subst same
              rw [Function.update_self] at member
              exact absurd member List.not_mem_nil
            · rw [Function.update_of_ne same] at member ⊢
              exact ⟨⟨member, fun gone => waits (edit.emptied e gone)⟩, rfl⟩

theorem take_rest (v : Watches.State) (u : Nat) (m : FdEvent) (ep : Epoch) :
    (v.takeWatchList u m ep).emptied = v.emptied ∧ (v.takeWatchList u m ep).next = v.next ∧
      ∀ fd ∈ v.updates, fd ∈ (v.takeWatchList u m ep).updates := by
  simp only [Watches.State.takeWatchList]
  split
  · exact ⟨rfl, rfl, fun _ => id⟩
  · split
    · exact ⟨rfl, rfl, fun _ => id⟩
    · refine ⟨?_, ?_, fun fd member => (Watches.State.mem_queue _ _).mpr (.inr member)⟩
      · exact Watches.State.queue_emptied _ _
      · unfold Watches.State.queue
        split <;> rfl

theorem take_keeps (kept : Kept v) (u : Nat) (m : FdEvent) (ep : Epoch) :
    Kept (v.takeWatchList u m ep) ∧ (v.takeWatchList u m ep).next = v.next ∧
      Aside v (v.takeWatchList u m ep) fd e mask := by
  obtain ⟨_, records⟩ := Watches.takeWatchList_record v u m ep
  obtain ⟨emptied, next, updates⟩ := take_rest v u m ep
  refine ⟨⟨?_, fun other w member => ?_⟩, next, fun ⟨member, waits⟩ => ?_,
    fun clean member => clean (updates fd member)⟩
  · rw [emptied, next]
    exact kept.emptied
  · rw [next]
    exact kept.made other w ((records other).2.2.mem member)
  · exact ⟨⟨(records fd).2.2.mem member, emptied ▸ waits⟩, (records fd).2.1⟩

theorem toldEpoch_some (some : mask ≠ 0) (ep : Epoch) :
    toldEpoch mask ep = if ep < userEpoch then userEpoch else ep := if_neg some

theorem keptEpoch_some (some : mask ≠ 0) (ep : Epoch) : keptEpoch mask ep = toldEpoch mask ep := by
  rw [keptEpoch, toldEpoch, if_neg some, if_neg some]

theorem toldEpoch_again (some : mask ≠ 0) (ep : Epoch) : toldEpoch mask (toldEpoch mask ep) = toldEpoch mask ep := by
  simp only [toldEpoch_some some]
  split
  · exact if_neg (BitVec.lt_irrefl _)
  · rfl

theorem userEpoch_le_told (some : mask ≠ 0) (ep : Epoch) : userEpoch ≤ toldEpoch mask ep := by
  rw [toldEpoch_some some]
  split
  · exact BitVec.le_refl _
  · rename_i old
    exact BitVec.not_lt.mp old

theorem within_some (within : Within mask m) (some : mask ≠ 0) : m ≠ 0 := by
  rintro rfl
  exact some (by rw [← within]; exact BitVec.or_zero.symm)

/-- The lists when the update of the descriptor at the head of the update list is popped. -/
def updated (v : Watches.State) (u : Nat) (rest : List Nat) : Watches.State :=
  { v with
    updates := rest
    fdrs := Function.update v.fdrs u { v.fdrs u with epoch := keptEpoch (v.liveMask u) (v.fdrs u).epoch } }

/-- The update that is popped. -/
def update (v : Watches.State) (u : Nat) : FdUpdate :=
  { fd := u, mask := v.liveMask u, epoch := toldEpoch (v.liveMask u) (v.fdrs u).epoch }

variable {rest : List Nat}

theorem popUpdate_updated (updates : v.updates = u :: rest) :
    v.popUpdate = some (update v u, updated v u rest) := State.popUpdate_list updates rfl

theorem updated_aside (other : fd ≠ u) (updates : v.updates = u :: rest) : Aside v (updated v u rest) fd e mask := by
  refine ⟨fun ⟨member, waits⟩ => ?_, fun clean member => ?_⟩
  · simp only [updated, Function.update_of_ne other] at member ⊢
    exact ⟨⟨member, waits⟩, trivial⟩
  · rw [updates, List.mem_cons] at member
    exact clean (member.resolve_left other)

theorem updated_kept (kept : Kept v) : Kept (updated v u rest) := by
  refine ⟨kept.emptied, fun other w member => ?_⟩
  by_cases same : other = u
  · subst same
    simp only [updated, Function.update_self] at member
    exact kept.made other w member
  · simp only [updated, Function.update_of_ne same] at member
    exact kept.made other w member

/-- The update of the descriptor itself: a registration that covers the watch is one
of the epoch of the record, and any other is replaced. -/
theorem updated_followed (some : mask ≠ 0) (registrations : k.Kept) (waits : Waiting v fd e mask)
    (followed : Followed v k fd mask) : Followed (updated v fd rest) (k.applyFdUpdate (update v fd)).1 fd mask := by
  obtain ⟨member, live⟩ := waits
  have covered : Within mask (v.liveMask fd) := by
    apply (Watches.State.watchListMask_within v _ _).mp within_refl _ member
    exact decide_eq_false live
  have some' := within_some covered some
  have backed : k.Backed (update v fd).fd := followed.backed
  obtain ⟨nibble, lookup⟩ : Nibbles.get (k.applyFdUpdate (update v fd)).1.fdctl fd = v.liveMask fd ∧ _ :=
    Epoll.applyFdUpdate_self registrations backed
  have told : toldEpoch (v.liveMask fd) (v.fdrs fd).epoch = toldEpoch mask (v.fdrs fd).epoch := by
    rw [toldEpoch_some some, toldEpoch_some some']
  have epoch : ((updated v fd rest).fdrs fd).epoch = toldEpoch mask (v.fdrs fd).epoch := by
    simp only [updated, Function.update_self]
    exact (keptEpoch_some some' _).trans told
  have current : (k.applyFdUpdate (update v fd)).1.Registers fd (toldEpoch mask (v.fdrs fd).epoch) := by
    rw [Epoll.Registers, nibble]
    refine lookup.trans ?_
    by_cases same : Nibbles.get k.fdctl fd = v.liveMask fd
    · have old := followed.covers (same ▸ covered)
      rw [Epoll.Registers, same] at old
      exact (if_pos same).trans old
    · refine (if_neg same).trans ((if_neg some').trans ?_)
      rw [← told]
      rfl
  refine ⟨⟨?_, fun _ => ⟨_, current⟩⟩, fun _ => ?_, fun _ => ?_⟩
  · rw [Epoll.applyFdUpdate_opened]
    exact backed.opened
  · rw [epoch, toldEpoch_again some]
    exact current
  · rw [epoch]
    exact ⟨nibble ▸ covered, current⟩

/-- A step leaves the watch alone, unless it is the update of its descriptor. -/
theorem listStep_keeps (fd e : Nat) (mask : FdEvent) (moved : State.listStep v l = Option.some v') (kept : Kept v) :
    Kept v' ∧ v.next ≤ v'.next ∧
      (e < v.next → (l = .update → v.updates.head? ≠ some fd) → Aside v v' fd e mask) := by
  cases l with
  | openFile u | closeFile u | listen b | unlisten b =>
      cases Option.some.inj moved
      exact ⟨kept, Nat.le_refl _, fun _ _ => ⟨fun waiting => ⟨waiting, rfl⟩, id⟩⟩
  | create u =>
      cases Option.some.inj moved
      exact ⟨⟨kept.emptied, kept.made⟩, Nat.le_refl _, fun _ _ => ⟨fun waiting => ⟨waiting, rfl⟩, id⟩⟩
  | close b =>
      obtain ⟨body, _, rfl⟩ := Option.map_eq_some_iff.mp moved
      split
      · exact ⟨⟨kept.emptied, kept.made⟩, Nat.le_refl _, fun _ _ => ⟨fun waiting => ⟨waiting, rfl⟩, id⟩⟩
      · exact ⟨kept, Nat.le_refl _, fun _ _ => ⟨fun waiting => ⟨waiting, rfl⟩, id⟩⟩
  | watch u m b =>
      obtain ⟨_, moved⟩ := Option.ite_none_right_eq_some.mp moved
      have watched : Watched v v' u.toNat m := by
        split at moved
        · cases Option.some.inj moved
          exact ⟨rfl, fun _ => id, fun _ _ => rfl, .inl ⟨rfl, rfl⟩⟩
        · exact watch_watched moved
      refine ⟨watched.kept kept, ?_, fun small _ => watched.aside small⟩
      rw [watched.next]
      exact Nat.le_succ _
  | notifyClose u =>
      cases Option.some.inj moved
      obtain ⟨kept', next, aside⟩ := fdClose_keeps kept u fd e mask
      exact ⟨kept', Nat.le_of_eq next.symm, fun _ _ => aside⟩
  | take u m ep =>
      cases Option.some.inj moved
      obtain ⟨kept', next, aside⟩ := take_keeps kept u m ep
      exact ⟨⟨kept'.emptied, kept'.made⟩, Nat.le_of_eq next.symm, fun _ _ => ⟨aside.waiting, aside.updates⟩⟩
  | pop i => contradiction
  | empty e' =>
      obtain ⟨made, moved⟩ := Option.ite_none_right_eq_some.mp moved
      cases Option.some.inj moved
      refine ⟨⟨fun e gone => ?_, kept.made⟩, Nat.le_refl _, fun _ _ => ⟨fun ⟨member, waits⟩ => ?_, id⟩⟩
      · rcases List.mem_append.mp gone with before | now
        · exact kept.emptied e before
        · rw [List.mem_singleton.mp now]
          exact made
      · exact ⟨⟨member, fun gone => waits (List.mem_append_left _ gone)⟩, rfl⟩
  | update =>
      cases updates : v.updates with
      | nil =>
          rw [State.listStep, Watches.State.popUpdate, updates] at moved
          contradiction
      | cons u rest =>
          rw [State.listStep, popUpdate_updated updates] at moved
          cases Option.some.inj moved
          refine ⟨updated_kept kept, Nat.le_refl _, fun _ apart => updated_aside (fun same => ?_) updates⟩
          exact apart rfl (congrArg some same.symm)

end lists

/-! The table and the kernel. -/

namespace State

variable {s s' : State} {lay lay' : Layout} {ufd b fd : Nat} {mask : FdEvent} {l : Label}

theorem register_shuts (moved : s.register ufd b = some s') : s.epoll.Shuts s'.epoll := by
  unfold register at moved
  split at moved
  · cases Option.some.inj moved
    exact .refl s.epoll
  · split at moved
    · cases Option.some.inj moved
      exact .refl s.epoll
    · split at moved
      · cases Option.some.inj moved
        exact release_shuts _ _
      · contradiction

/-- Registrations change in updates only, unless their numbers are closed. -/
theorem step_shuts (moved : s.step l = some s') (noUpdate : l ≠ .update) (noClose : ∀ fd, l ≠ .notifyClose fd) :
    s.epoll.Shuts s'.epoll ∨ ∃ n, s'.epoll = s.epoll.openFile n := by
  cases l with
  | openFile n =>
      obtain ⟨_, moved⟩ := Option.ite_none_left_eq_some.mp moved
      cases Option.some.inj moved
      exact .inr ⟨n, rfl⟩
  | closeFile n =>
      cases Option.some.inj moved
      exact .inl (.inr ⟨n, rfl⟩)
  | create n =>
      cases Option.some.inj moved
      exact .inl (.refl s.epoll)
  | close b =>
      obtain ⟨body, _, rfl⟩ := Option.map_eq_some_iff.mp moved
      split
      · exact .inl (release_shuts _ b)
      · exact .inl (.refl s.epoll)
  | listen b =>
      obtain ⟨_, moved⟩ := Option.ite_none_right_eq_some.mp moved
      cases Option.some.inj moved
      exact .inl (.refl s.epoll)
  | unlisten b =>
      obtain ⟨_, moved⟩ := Option.ite_none_right_eq_some.mp moved
      cases Option.some.inj moved
      exact .inl (release_shuts _ b)
  | watch n mask b =>
      obtain ⟨_, moved⟩ := Option.ite_none_right_eq_some.mp moved
      unfold watch at moved
      split at moved
      · cases Option.some.inj moved
        exact .inl (.refl s.epoll)
      · obtain ⟨s₁, registers, rfl⟩ := Option.map_eq_some_iff.mp moved
        have shuts := register_shuts registers
        exact .inl shuts
  | notifyClose n => exact absurd rfl (noClose n)
  | take n mask epoch =>
      obtain ⟨_, _, rfl⟩ := Option.map_eq_some_iff.mp moved
      exact .inl (.refl s.epoll)
  | pop i =>
      obtain ⟨wix, _, rest⟩ := Option.bind_eq_some_iff.mp (show s.pop i = some s' from moved)
      obtain ⟨_, rest⟩ := Option.ite_none_left_eq_some.mp rest
      split at rest
      · cases Option.some.inj rest
        exact .inl (.refl s.epoll)
      · contradiction
  | empty e =>
      obtain ⟨_, moved⟩ := Option.ite_none_right_eq_some.mp moved
      cases Option.some.inj moved
      exact .inl (.refl s.epoll)
  | update => exact absurd rfl noUpdate

/-- The update of the descriptor that is next. -/
theorem view_update (laid : s.Laid lay) {rest : List Nat} (queue : lay.queue = ufd :: rest) : ∃ s',
    s.step .update = some s' ∧ s'.Laid { lay with queue := rest } ∧
      s'.view { lay with queue := rest } = updated (s.view lay) ufd rest ∧
      s'.epoll = (s.epoll.applyFdUpdate (update (s.view lay) ufd)).1 := by
  obtain ⟨fdu, fds, runs, laid', popped⟩ := view_popUpdate laid queue
  have listed := popped.symm.trans (popUpdate_updated (v := s.view lay) queue)
  simp only [Option.some.injEq, Prod.mk.injEq] at listed
  refine ⟨{ s with fds, epoll := (s.epoll.applyFdUpdate fdu).1 }, ?_, laid', listed.2, ?_⟩
  · rw [step, runs]
    rfl
  · rw [← listed.1]

theorem initial_kept : Kept (view {} ⟨fun _ => [], []⟩) where
  emptied _ gone := nomatch gone
  made _ _ member := nomatch member

/-- A step follows a watch, unless the number is closed. -/
theorem step_follows (fd e : Nat) (laid : s.Laid lay) (kept : Kept (s.view lay)) (registrations : s.epoll.Kept)
    (some : mask ≠ 0) (moved : s.step l = Option.some s') : ∃ lay', s'.Laid lay' ∧ Kept (s'.view lay') ∧
      s'.epoll.Kept ∧ s.next ≤ s'.next ∧ (s'.epoll.opened fd = true → e < s.next →
        (Waiting (s.view lay) fd e mask → Followed (s.view lay) s.epoll fd mask) →
        Waiting (s'.view lay') fd e mask → Followed (s'.view lay') s'.epoll fd mask) := by
  by_cases updates : l = .update
  · subst updates
    cases queue : lay.queue with
    | nil =>
        rw [step, popUpdate_none laid queue] at moved
        contradiction
    | cons u rest =>
        obtain ⟨s₁, runs, laid', view', epoll⟩ := view_update laid queue
        cases Option.some.inj (runs.symm.trans moved)
        refine ⟨_, laid', ?_, ?_, Nat.le_of_eq ?_, fun opened small followed => ?_⟩
        · rw [view']
          exact updated_kept kept
        · rw [epoll]
          exact registrations.applyFdUpdate fun some => userEpoch_le_told some _
        · exact (congrArg Watches.State.next view').symm
        · rw [view', epoll]
          by_cases same : fd = u
          · subst same
            intro waiting
            have before : Waiting (s.view lay) fd e mask := by
              simpa [Waiting, updated] using waiting
            exact updated_followed some registrations before (followed before)
          · refine (updated_aside same queue).followed (Epoll.applyFdUpdate_steady _ same) ?_ followed
            rw [← epoll]
            exact opened
  · by_cases closes : ∃ u, l = .notifyClose u
    · obtain ⟨u, rfl⟩ := closes
      obtain ⟨s₁, lay', runs, laid', listed, effect⟩ := view_notifyClose laid u
      cases Option.some.inj (runs.symm.trans moved)
      obtain ⟨kept', next, aside⟩ := fdClose_keeps kept u fd e mask
      rw [listed] at kept' next aside
      rcases effect with ⟨rfl, rfl⟩ | ⟨b, shut⟩
      · exact ⟨lay', laid, kept, registrations, Nat.le_refl _, fun _ _ followed => followed⟩
      · have none : (0 : FdEvent) ≠ 0 → userEpoch ≤ (s.fds.fdr u).epoch := fun some => absurd rfl some
        refine ⟨lay', laid', kept', (registrations.applyFdUpdate none).shuts shut.epoll, Nat.le_of_eq next.symm, ?_⟩
        intro opened _ followed
        by_cases same : fd = u
        · subst same
          rintro ⟨member, _⟩
          have record := congrFun shut.record fd
          rw [Function.update_self] at record
          rw [show ((s'.view lay').fdrs fd) = _ from record] at member
          exact absurd member List.not_mem_nil
        · have told : s.epoll.Steady (s.epoll.applyFdUpdate ⟨u, 0, (s.fds.fdr u).epoch⟩).1 fd :=
            Epoll.applyFdUpdate_steady s.epoll same
          exact aside.followed (told.trans (shut.epoll.steady opened)) opened followed
    · obtain ⟨lay', l', laid', label, listed⟩ := step_view laid moved
      obtain ⟨kept', next, aside⟩ := listStep_keeps fd e mask listed kept
      have apart : l' = .update → (s.view lay).updates.head? ≠ Option.some fd := by
        rintro rfl
        cases label
        exact absurd rfl updates
      refine ⟨lay', laid', kept', ?_, next, fun opened small followed => ?_⟩
      · rcases step_shuts moved updates fun u same => closes ⟨u, same⟩ with shuts | ⟨n, opens⟩
        · exact registrations.shuts shuts
        · rw [opens]
          exact registrations.openFile n
      · refine (aside small apart).followed ?_ opened followed
        rcases step_shuts moved updates fun u same => closes ⟨u, same⟩ with shuts | ⟨n, opens⟩
        · exact shuts.steady opened
        · rw [opens]
          exact Epoll.openFile_steady s.epoll n fd

end State
end Cotamer.Fd.Table

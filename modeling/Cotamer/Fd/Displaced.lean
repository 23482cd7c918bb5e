import Cotamer.Fd.Balanced
import Cotamer.Fd.Followed

/-! A watch of a new body on a number that the table has for another body. -/
namespace Cotamer.Fd.Table
open Links Transition
open Watches (FdEvent Epoch FdUpdate Watch Within within_refl userEpoch)

namespace State

variable {s s' : State} {lay lay' : Layout} {fd e b other : Nat} {mask : FdEvent} {epoch : Epoch} {l : Label}
  {ls : List Label}

theorem reached_kept (path : Reaches step {} ls s) :
    ∃ lay, s.Laid lay ∧ Kept (s.view lay) ∧ s.epoll.Kept ∧ Balanced s.bodyAt s.listed := by
  apply path.invariant (P := fun s => ∃ lay, s.Laid lay ∧ Kept (s.view lay) ∧ s.epoll.Kept ∧
    Balanced s.bodyAt s.listed)
  · rintro s l s' ⟨lay, laid, kept, registrations, balanced⟩ moved
    have some : (1 : FdEvent) ≠ 0 := by decide
    obtain ⟨lay', laid', kept', registrations', _⟩ := step_follows 0 0 laid kept registrations some moved
    exact ⟨lay', laid', kept', registrations', step_balanced laid balanced moved⟩
  · refine ⟨_, initial_laid, initial_kept, ?_, initial_balanced⟩
    intro fd m ep registered
    cases registered

/-- A list of slots has the watch. -/
def Chained (ws : List WatchRec) (first e : Nat) (mask : FdEvent) : Prop :=
  ∃ xs, Leads (links ws) linkClean first xs ∧
    ∃ wix ∈ xs, (slot ws wix).ev = some e ∧ (slot ws wix).mask = mask

theorem chained_iff {ws : List WatchRec} {next first : Nat} {o : Owner} {xs : List Nat}
    (lists : Lists ws next o first xs) (used : o ≠ .free) :
    Chained ws first e mask ↔ { ev := e, mask } ∈ xs.map (watchOf ws) := by
  rw [List.mem_map]
  constructor
  · rintro ⟨ys, leads, wix, member, ev, rfl⟩
    rw [leads.unique lists.leads] at member
    refine ⟨wix, member, ?_⟩
    rw [watchOf, ev]
    rfl
  · rintro ⟨wix, member, same⟩
    refine ⟨xs, lists.leads, wix, member, ?_, congrArg Watch.mask same⟩
    obtain ⟨e', _, ev⟩ := lists.made used wix member
    have event := congrArg Watch.ev same
    rw [watchOf, ev] at event
    exact ev.trans (congrArg some event)

/-- The event of the watch is not triggered. -/
def Waits (s : State) (fd e : Nat) (mask : FdEvent) : Prop :=
  Chained s.fds.ws (s.fds.fdr fd).whead e mask ∧ e ∉ s.emptied

theorem waits_iff (laid : s.Laid lay) : s.Waits fd e mask ↔ Waiting (s.view lay) fd e mask :=
  and_congr_left' (chained_iff (laid.slots.lists (.chain fd)) nofun)

/-- The kernel has a registration that covers the watch, and whatever it reports for
the watch takes it. -/
def Told (s : State) (fd e : Nat) (mask : FdEvent) : Prop :=
  ∃ m ep, s.epoll.kernel.lookup fd = some (m, ep) ∧ Within mask m ∧ ∀ r, r &&& mask ≠ 0 →
    ∃ whead fds, s.fds.takeWatchList s.isEmpty fd r ep = some (whead, fds) ∧ Chained fds.ws whead e mask

/-- The number does not lose its file. -/
def Lasts (fd : Nat) (s : State) (l : Label) : Prop :=
  ∀ s' ∈ s.step l, s.epoll.opened fd = true → s'.epoll.opened fd = true

/-- From then on: as long as the watch waits and the number is not closed, the kernel is
told of the watch when the record has no update to make. -/
def Heard (s : State) (fd e : Nat) (mask : FdEvent) : Prop :=
  ∀ ls t, Reaches step s ls t → Meets step (Lasts fd) s ls → t.Waits fd e mask →
    (t.fds.fdr fd).updateLink = linkClean → t.Told fd e mask

/-- A report takes the watches that it meets, unless its epoch is an old one. -/
theorem take_chained (laid : s.Laid lay) (r : FdEvent) (ep : Epoch) (fd e : Nat) (mask : FdEvent) :
    ∃ whead fds, s.fds.takeWatchList s.isEmpty fd r ep = some (whead, fds) ∧
      (Chained fds.ws whead e mask ↔ { ev := e, mask } ∈ ((s.view lay).takeWatchList fd r ep).detached) := by
  obtain ⟨whead, fds, lay', runs, laid', _, drained⟩ := view_takeWatchList laid fd r ep
  refine ⟨whead, fds, runs, ?_⟩
  have lists := laid'.slots.lists (.drained s.detached.length)
  have first : fds.head (s.detached ++ [whead]) (.drained s.detached.length) = whead := by
    simp [FdEventSet.head]
  rw [← drained]
  exact first ▸ chained_iff lists (by simp)

theorem take_meets {v : Watches.State} {r : FdEvent} (member : { ev := e, mask } ∈ (v.fdrs fd).watches)
    (meets : r &&& mask ≠ 0) : { ev := e, mask } ∈ (v.takeWatchList fd r (v.fdrs fd).epoch).detached := by
  have taken : { ev := e, mask } ∈
      (v.fdrs fd).watches.filter fun w => decide (r &&& w.mask ≠ 0) || v.empty w :=
    List.mem_filter.mpr ⟨member, (Bool.or_eq_true _ _).mpr (.inl (decide_eq_true meets))⟩
  simp only [Watches.State.takeWatchList]
  rw [if_neg (by simp [List.ne_nil_of_mem member])]
  split
  · rename_i none
    rw [none] at taken
    contradiction
  · have same : ∀ (v : Watches.State) u, (v.queue u).detached = v.detached := by
      intro v u
      unfold Watches.State.queue
      split <;> rfl
    rw [same]
    exact List.mem_append_right _ taken

theorem take_stale {v : Watches.State} {r : FdEvent} {ep : Epoch} (some : ep ≠ 0) (stale : ep ≠ (v.fdrs fd).epoch) :
    v.takeWatchList fd r ep = v := by
  simp only [Watches.State.takeWatchList]
  exact if_pos (.inr ⟨some, stale⟩)

theorem followed_told (laid : s.Laid lay) (followed : Followed (s.view lay) s.epoll fd mask)
    (waits : s.Waits fd e mask) (clean : (s.fds.fdr fd).updateLink = linkClean) : s.Told fd e mask := by
  have unqueued : fd ∉ (s.view lay).updates := fun member => (laid.queued fd).mpr member clean
  obtain ⟨within, registers⟩ := followed.asked unqueued
  refine ⟨_, _, registers, within, fun r meets => ?_⟩
  obtain ⟨whead, fds, runs, chained⟩ := take_chained laid r _ fd e mask
  exact ⟨whead, fds, runs, chained.mpr (take_meets ((waits_iff laid).mp waits).1 meets)⟩

theorem followed_heard (laid : s.Laid lay) (kept : Kept (s.view lay)) (registrations : s.epoll.Kept)
    (some : mask ≠ 0) (small : e < s.next) (opened : s.epoll.opened fd = true)
    (followed : Waiting (s.view lay) fd e mask → Followed (s.view lay) s.epoll fd mask) : s.Heard fd e mask := by
  intro ls t path
  induction path generalizing lay with
  | refl => exact fun _ waits => followed_told laid (followed ((waits_iff laid).mp waits)) waits
  | @next l t ls u s moved path ih =>
      intro lasts
      have still := lasts.1 _ moved opened
      obtain ⟨lay', laid', kept', registrations', next, followed'⟩ := step_follows fd e laid kept registrations some moved
      exact ih laid' kept' registrations' (Nat.lt_of_lt_of_le small next) still (followed' still small followed)
        (lasts.2 _ moved)

/-! Updates. -/

/-- What an update of other descriptors leaves alone. -/
structure Unmoved (v v' : Watches.State) (k k' : Epoll) (fd : Nat) : Prop where
  record : v'.fdrs fd = v.fdrs fd
  emptied : v'.emptied = v.emptied
  steady : k.Steady k' fd
  opened : k'.opened = k.opened

/-- Updates open and close nothing. -/
theorem updates_last (only : ∀ l ∈ ls, l = .update) : Meets step (Lasts fd) s ls := by
  refine (Meets.of_forall only).mono fun s l update s' moved => ?_
  subst update
  obtain ⟨⟨fdu, fds⟩, _, rfl⟩ := Option.map_eq_some_iff.mp (Option.mem_def.mp moved)
  exact fun opened => (congrFun (Epoll.applyFdUpdate_opened s.epoll fdu) fd).trans opened

/-- Updates are made until the descriptor is next. -/
theorem updates_reach {front back : List Nat} (laid : s.Laid lay) (queue : lay.queue = front ++ fd :: back)
    (others : fd ∉ front) : ∃ ls s' lay', Reaches step s ls s' ∧ (∀ l ∈ ls, l = .update) ∧ s'.Laid lay' ∧
      lay'.queue = fd :: back ∧ Unmoved (s.view lay) (s'.view lay') s.epoll s'.epoll fd := by
  induction front generalizing s lay with
  | nil => exact ⟨[], s, lay, .refl s, nofun, laid, queue, rfl, rfl, .refl s.epoll fd, rfl⟩
  | cons u front ih =>
      obtain ⟨other, others⟩ := not_or.mp fun same => others (List.mem_cons.mpr same)
      have next : lay.queue = u :: (front ++ fd :: back) := queue
      obtain ⟨s₁, moved, laid₁, view₁, epoll₁⟩ := view_update laid next
      obtain ⟨ls, s', lay', path, only, laid', queue', rest⟩ := ih laid₁ rfl others
      refine ⟨.update :: ls, s', lay', .next moved path, List.forall_mem_cons.mpr ⟨rfl, only⟩, laid', queue',
        ?_, ?_, ?_, ?_⟩
      · rw [rest.record, view₁]
        exact Function.update_of_ne other ..
      · rw [rest.emptied, view₁]
        rfl
      · refine .trans ?_ rest.steady
        rw [epoll₁]
        exact Epoll.applyFdUpdate_steady s.epoll other
      · rw [rest.opened, epoll₁, Epoll.applyFdUpdate_opened]

/-- The update of a record that is on the list comes. -/
theorem updates_finish (laid : s.Laid lay) (member : fd ∈ lay.queue) : ∃ ls s' lay' v k rest,
    Reaches step s ls s' ∧ Meets step (Lasts fd) s ls ∧ s'.Laid lay' ∧ (s'.fds.fdr fd).updateLink = linkClean ∧
      Unmoved (s.view lay) v s.epoll k fd ∧ s'.view lay' = updated v fd rest ∧
      s'.epoll = (k.applyFdUpdate (update v fd)).1 := by
  obtain ⟨front, back, queue, others⟩ := List.eq_append_cons_of_mem member
  obtain ⟨ls, s₁, lay₁, path, only, laid₁, queue₁, unmoved⟩ := updates_reach laid queue others
  obtain ⟨s', moved, laid', view', epoll'⟩ := view_update laid₁ queue₁
  have only' : ∀ l ∈ ls ++ [.update], l = .update := by
    intro l among
    rcases List.mem_append.mp among with before | last
    · exact only l before
    · exact List.mem_singleton.mp last
  refine ⟨ls ++ [.update], s', _, _, _, back, path.trans (.next moved (.refl s')), updates_last only', laid', ?_,
    unmoved, view', epoll'⟩
  by_contra dirty
  have nodup := Lays.queue_nodup laid₁
  rw [queue₁, List.nodup_cons] at nodup
  exact nodup.1 ((laid'.queued fd).mp dirty)

/-- The state after the watch of a new body: its number has one watch and an update to make. -/
structure Replaced (s : State) (lay : Layout) (fd e : Nat) (mask : FdEvent) (b : Nat) (epoch : Epoch) : Prop where
  laid : s.Laid lay
  kept : Kept (s.view lay)
  registrations : s.epoll.Kept
  next : e < s.next
  live : e ∉ s.emptied
  made : b < s.bodies.length
  record : (s.view lay).fdrs fd = { body := b, epoch, watches := [{ ev := e, mask }] }
  queued : fd ∈ lay.queue

/-- A number without a file, or with one that the kernel does not know though the driver's
copy says so, gets no registration. -/
theorem heard_backed (replaced : Replaced s lay fd e mask b epoch) (heard : s.Heard fd e mask) :
    s.epoll.Backed fd := by
  by_contra lost
  have unknown : s.epoll.kernel.lookup fd = none := by
    cases known : s.epoll.kernel.lookup fd with
    | none => rfl
    | some registration =>
        obtain ⟨opened, copied, _⟩ := replaced.registrations fd registration.1 registration.2 known
        exact absurd ⟨opened, fun _ => ⟨registration.2, known.trans (by rw [copied])⟩⟩ lost
  obtain ⟨ls, t, lay', v, k, rest, path, lasts, laid', clean, unmoved, view', epoll'⟩ :=
    updates_finish replaced.laid replaced.queued
  have waits : t.Waits fd e mask := by
    apply (waits_iff laid').mpr
    rw [view']
    constructor
    · simp [updated, unmoved.record, replaced.record]
    · show e ∉ v.emptied
      rw [unmoved.emptied]
      exact replaced.live
  obtain ⟨m, ep, registered, _⟩ := heard ls t path lasts waits clean
  have none : t.epoll.kernel.lookup fd = none := by
    rw [epoll']
    refine Epoll.applyFdUpdate_lost (update v fd) (unmoved.steady.lookup.trans unknown) fun opened nibble => ?_
    rw [show Nibbles.get k.fdctl (update v fd).fd = _ from unmoved.steady.nibble] at nibble
    exact lost ⟨unmoved.opened ▸ opened, fun some => absurd nibble some⟩
  rw [none] at registered
  contradiction

/-- The body of the one watch watches for what the driver's copy already has: the
update finds nothing to tell the kernel. -/
theorem watched_again (replaced : Replaced s lay fd e mask b epoch) (number : fd < 2 ^ 31) (some : mask ≠ 0)
    (within : Within mask (Nibbles.get s.epoll.fdctl fd)) : ∃ ls t lay',
      Reaches step s ls t ∧ Meets step (Lasts fd) s ls ∧ t.Laid lay' ∧ (t.fds.fdr fd).updateLink = linkClean ∧
        t.epoll.kernel.lookup fd = s.epoll.kernel.lookup fd ∧
        ((t.view lay').fdrs fd).epoch = toldEpoch mask epoch ∧ t.Waits fd e mask := by
  have some' := within_some within some
  have busy : ¬((fd : Int) < 0 ∨ Nibbles.get s.epoll.fdctl fd = 0) := not_or.mpr ⟨by omega, some'⟩
  have mine : ∀ other, (s.fds.fdr (fd : Int).toNat).body = Option.some other → other = b := by
    intro other same
    exact Option.some.inj (same.symm.trans (congrArg Watches.FdRec.body replaced.record))
  obtain ⟨s₁, lay₁, runs, laid₁, listed, epoll₁, _⟩ :=
    watch_fits replaced.laid (Int.toNat_natCast fd ▸ number) busy mine
  have moved : s.step (.watch fd (Nibbles.get s.epoll.fdctl fd) b) = Option.some s₁ := by
    rw [step, if_pos ⟨by omega, replaced.made⟩]
    exact runs
  have installed : s₁.view lay₁ = (s.view lay).install fd b (Nibbles.get s.epoll.fdctl fd) := by
    rw [Watches.State.watch, if_neg some'] at listed
    simp only [Int.toNat_natCast, replaced.record, if_true] at listed
    exact (Option.some.inj listed).symm
  have edited := Watches.State.install_edited (s.view lay) fd b (Nibbles.get s.epoll.fdctl fd)
  rw [← installed] at edited
  have queued : fd ∈ lay₁.queue := (edited.updates fd).mpr (.inl rfl)
  -- the updates come to the descriptor
  obtain ⟨ls, t, lay', v, k, rest, path, lasts, laid', clean, unmoved, view', epoll'⟩ := updates_finish laid₁ queued
  have begins : Lasts fd s (.watch fd (Nibbles.get s.epoll.fdctl fd) b) := by
    intro s' moved' opened
    cases Option.some.inj (moved.symm.trans moved')
    rw [epoll₁]
    exact opened
  have before : v.emptied = s.emptied := by
    rw [unmoved.emptied, installed]
    exact (install_events ..).1
  have chain : v.fdrs fd = { body := b, epoch, watches :=
      [{ ev := e, mask }, { ev := s.next, mask := Nibbles.get s.epoll.fdctl fd }] } := by
    rw [unmoved.record, edited.fdrs, Function.update_self, replaced.record]
    rfl
  have asked : v.liveMask fd = Nibbles.get s.epoll.fdctl fd := by
    have fresh : s.next ∉ s.emptied := fun gone => Nat.lt_irrefl _ (replaced.kept.emptied _ gone)
    simp only [Watches.State.liveMask, chain, Watches.State.watchListMask, Watches.State.empty, before,
      List.foldl_cons, List.foldl_nil, decide_eq_false replaced.live, decide_eq_false fresh,
      Bool.false_eq_true, if_false]
    exact (congrArg (· ||| Nibbles.get s.epoll.fdctl fd) BitVec.zero_or).trans within
  have same : Nibbles.get k.fdctl fd = v.liveMask fd := by
    rw [unmoved.steady.nibble, epoll₁, asked]
  refine ⟨_, t, lay', .next moved path, .cons moved begins lasts, laid', clean, ?_, ?_, (waits_iff laid').mpr ⟨?_, ?_⟩⟩
  · have found : (k.applyFdUpdate (update v fd)).1.kernel.lookup fd = k.kernel.lookup fd :=
      (Epoll.applyFdUpdate_found (update v fd) same).lookup
    rw [epoll', found, unmoved.steady.lookup, epoll₁]
  · rw [view']
    simp only [updated, Function.update_self]
    rw [chain, asked, keptEpoch_some some', toldEpoch_some some', toldEpoch_some some]
  · rw [view']
    simp only [updated, Function.update_self, chain]
    exact List.mem_cons_self
  · rw [view']
    show e ∉ v.emptied
    rw [before]
    exact replaced.live

/-- A registration that covers the watch is one of the epoch of the watch: no other is
ever replaced when the body of the watch asks for nothing else. -/
theorem heard_registers (replaced : Replaced s lay fd e mask b epoch) (number : fd < 2 ^ 31) (some : mask ≠ 0)
    (heard : s.Heard fd e mask) (within : Within mask (Nibbles.get s.epoll.fdctl fd)) :
    s.epoll.Registers fd (toldEpoch mask epoch) := by
  obtain ⟨ls, t, lay', path, lasts, laid', clean, lookup, told, waits⟩ := watched_again replaced number some within
  obtain ⟨m, ep, registered, _, takes⟩ := heard ls t path lasts waits clean
  rw [lookup] at registered
  obtain ⟨_, copied, _, user⟩ := replaced.registrations fd m ep registered
  have meets : mask &&& mask ≠ 0 := by
    rwa [BitVec.and_self]
  obtain ⟨whead, fds, took, chained⟩ := takes mask meets
  obtain ⟨whead', fds', took', among⟩ := take_chained laid' mask ep fd e mask
  cases Option.some.inj (took.symm.trans took')
  have current : ep = toldEpoch mask epoch := by
    by_contra stale
    have taken := among.mp chained
    have some : ep ≠ 0 := by
      rintro rfl
      exact absurd user (by decide)
    rw [take_stale some fun same => stale (same.trans told)] at taken
    exact List.not_mem_nil taken
  rw [Epoll.Registers, ← current]
  exact registered.trans (congrArg (fun m => Option.some (m, ep)) copied.symm)

/-! A watch of a new body. -/

/-- `fd_close` returns the old body; its watches are triggered and their slots free or
used again; the record has the one new watch, which is heard of. -/
structure Displaced (s : State) (fd : Nat) (mask : FdEvent) (b other : Nat) (s' : State) : Prop where
  runs : s.step (.watch fd mask b) = some s'
  closes : ∃ t triggered epoch, (s.fds.ensure fd).fdClose s.isOpen fd = some (t, triggered, some (other, epoch))
  recycled : ∃ xs free, Leads (links s.fds.ws) linkClean (s.fds.fdr fd).whead xs ∧
    Leads (links s'.fds.ws) linkClean s'.fds.freeWlink free ∧
    ∀ wix ∈ xs, (∀ e ∈ (slot s.fds.ws wix).ev, e ∈ s'.emptied) ∧ (wix ∈ free ∨ (s'.fds.fdr fd).whead = wix)
  listed : s'.listed.count other + 1 = s.listed.count other
  body : (s'.fds.fdr fd).body = some b
  watch : ∃ wix, Leads (links s'.fds.ws) linkClean (s'.fds.fdr fd).whead [wix] ∧
    (slot s'.fds.ws wix).ev = some s.next ∧ (slot s'.fds.ws wix).mask = mask
  heard : s'.Heard fd s.next mask

/-- The number has a file, which is not closed when the driver leaves the old body: that has
another number or has closed its number already, or is registered somewhere else. -/
def Survives (s : State) (fd other : Nat) : Prop :=
  s.epoll.opened fd = true ∧ ∀ body ∈ s.bodies[other]?, body.baseFd = fd →
    other ∈ s.released ∨ other ∈ s.elsewhere ∨ other ∈ s.listed.erase other

theorem survives_iff (shut : s.isOpen other = false) :
    s.Survives fd other ↔ (s.removeListener other).epoll.opened fd = true := by
  simp only [Survives, removeListener, release, closable]
  cases found : s.bodies[other]? with
  | none => simp
  | some body =>
      have closed : body.isOpen = false := by simpa [isOpen, found] using shut
      by_cases stays : other ∈ s.listed.erase other ∨ other ∈ s.elsewhere ∨ other ∈ s.released
      · simp only [Option.bind_some, closed, Bool.false_eq_true, false_or, if_pos stays, Option.mem_some_iff]
        exact ⟨fun survives => survives.1, fun opened => ⟨opened, fun _ _ _ => by tauto⟩⟩
      · simp only [Option.bind_some, closed, Bool.false_eq_true, false_or, if_neg stays, Option.mem_some_iff]
        by_cases same : fd = body.baseFd
        · refine iff_of_false (fun survives => stays ?_) (by simp [Epoll.closeFile, same])
          have := survives.2 body rfl same.symm
          tauto
        · rw [show (s.epoll.closeFile body.baseFd).opened fd = _ from Function.update_of_ne same ..]
          refine ⟨fun survives => survives.1, fun opened => ⟨opened, ?_⟩⟩
          rintro _ rfl base
          exact absurd base.symm same

/-- A watch puts its descriptor on the update list. -/
theorem watch_queues {v v' : Watches.State} (some : mask ≠ 0) (moved : v.watch ufd b mask = Option.some v') :
    ufd ∈ v'.updates := by
  have installs : ∀ v : Watches.State, ufd ∈ (v.install ufd b mask).updates := by
    intro v
    exact ((Watches.State.install_edited v ufd b mask).updates ufd).mpr (.inl rfl)
  rw [Watches.State.watch, if_neg some] at moved
  split at moved
  · cases Option.some.inj moved
    exact installs v
  · split at moved
    · cases Option.some.inj moved
      exact installs v
    · split at moved
      · cases Option.some.inj moved
        exact installs _
      · contradiction

theorem removeListener_bodies (s : State) (b : Nat) : (s.removeListener b).bodies = s.bodies := by
  rw [removeListener, release_eq]

theorem register_same (moved : s.register ufd b = some s') : s'.bodies = s.bodies := by
  unfold register at moved
  split at moved
  · cases Option.some.inj moved
    rfl
  · split at moved
    · cases Option.some.inj moved
      rfl
    · split at moved
      · cases Option.some.inj moved
        exact removeListener_bodies ..
      · contradiction

theorem watch_replaces (laid : s.Laid lay) (kept : Kept (s.view lay)) (registrations : s.epoll.Kept)
    (balanced : Balanced s.bodyAt s.listed) (number : fd < 2 ^ 31) (made : b < s.bodies.length) (some : mask ≠ 0)
    (body : (s.fds.fdr fd).body = Option.some other) (differs : other ≠ b) (shut : s.isOpen other = false) :
    ∃ s' lay', s.step (.watch fd mask b) = Option.some s' ∧
      Replaced s' lay' fd s.next mask b ((s.fds.fdr fd).epoch + 1) ∧
      s'.epoll = (s.removeListener other).epoll ∧ (s'.Heard fd s.next mask → s.Displaced fd mask b other s') := by
  have busy : ¬((fd : Int) < 0 ∨ mask = 0) := not_or.mpr ⟨by omega, some⟩
  have small := Int.toNat_natCast fd ▸ number
  obtain ⟨s', lay', runs, laid', watched, emptied, listed, epoll, freed, records⟩ :=
    watch_displaces laid small busy body differs shut
  rw [Int.toNat_natCast] at watched emptied freed records
  have moved : s.step (.watch fd mask b) = Option.some s' := by
    rw [step, if_pos ⟨by omega, made⟩]
    exact runs
  have did := watch_watched watched
  have record := congrFun records fd
  rw [Function.update_self] at record
  refine ⟨s', lay', moved, ?_, epoll, fun heard => ?_⟩
  · refine ⟨laid', did.kept kept, ?_, ?_, ?_, ?_, record, watch_queues some watched⟩
    · rw [epoll]
      exact registrations.shuts (release_shuts _ other)
    · exact Nat.lt_of_lt_of_eq (Nat.lt_succ_self _) did.next.symm
    · rw [emptied, List.mem_append, not_or]
      constructor
      · exact fun gone => Nat.lt_irrefl _ (kept.emptied _ gone)
      · intro old
        obtain ⟨w, member, event⟩ := List.mem_map.mp old
        exact Nat.lt_irrefl _ (event ▸ kept.made fd w member)
    · rw [watch, if_neg busy] at runs
      obtain ⟨s₁, registers, rfl⟩ := Option.map_eq_some_iff.mp runs
      exact Nat.lt_of_lt_of_eq made (congrArg List.length (register_same registers)).symm
  · have lists := laid.slots.lists (.chain fd)
    have lists' := laid'.slots.lists (.chain fd)
    -- the one watch
    obtain ⟨wix, single, watched⟩ : ∃ wix, lay'.held (.chain fd) = [wix] ∧
        watchOf s'.fds.ws wix = { ev := s.next, mask } :=
      List.map_eq_singleton_iff.mp (congrArg Watches.FdRec.watches record)
    rw [single] at lists'
    obtain ⟨e, _, event⟩ := lists'.made (by simp) wix (List.mem_singleton.mpr rfl)
    constructor
    · exact moved
    · obtain ⟨ensured, _, _⟩ := view_ensure laid number
      obtain ⟨t, _, closes, _⟩ := view_fdClose ensured ((ensured_fdr s fd).symm ▸ body) shut
      exact ⟨t, _, _, closes⟩
    · refine ⟨_, _, lists.leads, (laid'.slots.lists .free).leads, fun i member => ⟨fun e has => ?_, ?_⟩⟩
      · rw [emptied]
        refine List.mem_append_right _ (List.mem_map.mpr ⟨watchOf s.fds.ws i, List.mem_map_of_mem member, ?_⟩)
        rw [watchOf, has]
        rfl
      · rcases freed i member with free | again
        · exact .inl free
        · rw [single, List.mem_singleton] at again
          rw [again]
          exact .inr lists'.leads.head
    · rw [listed, List.count_cons_of_ne (Ne.symm differs), List.count_erase_self]
      have positive := List.count_pos_iff.mpr (listed_body balanced body)
      omega
    · exact congrArg Watches.FdRec.body record
    · refine ⟨wix, lists'.leads, ?_, congrArg Watch.mask watched⟩
      have same := congrArg Watch.ev watched
      rw [watchOf, event] at same
      exact event.trans (congrArg Option.some same)
    · exact heard

/-- The kernel has what the driver's copy has for the number, and under the epoch that the
record gets when that covers the watch. -/
def Renewable (s : State) (fd : Nat) (mask : FdEvent) : Prop :=
  Nibbles.get s.epoll.fdctl fd ≠ 0 → ∃ ep, s.epoll.Registers fd ep ∧
    (Within mask (Nibbles.get s.epoll.fdctl fd) → ep = toldEpoch mask ((s.fds.fdr fd).epoch + 1))

theorem replaced_heard_iff {s₀ : State} (replaced : Replaced s lay fd e mask b ((s₀.fds.fdr fd).epoch + 1))
    (number : fd < 2 ^ 31) (some : mask ≠ 0) (shuts : s₀.epoll.Shuts s.epoll) :
    s.Heard fd e mask ↔ s.epoll.opened fd = true ∧ s₀.Renewable fd mask := by
  constructor
  · intro heard
    have backed := heard_backed replaced heard
    have steady := shuts.steady backed.opened
    refine ⟨backed.opened, fun told => ?_⟩
    obtain ⟨ep, registered⟩ := backed.registered (steady.nibble.symm ▸ told)
    have registered' : s₀.epoll.Registers fd ep := by
      rw [Epoll.Registers, ← steady.lookup, ← steady.nibble]
      exact registered
    refine ⟨ep, registered', fun within => ?_⟩
    have current := heard_registers replaced number some heard (steady.nibble.symm ▸ within)
    have same := registered.symm.trans current
    exact congrArg Prod.snd (Option.some.inj same)
  · rintro ⟨opened, renewable⟩
    have steady := shuts.steady opened
    refine followed_heard replaced.laid replaced.kept replaced.registrations some replaced.next opened fun _ => ?_
    refine ⟨⟨opened, fun told => ?_⟩, fun within => ?_, fun clean => absurd replaced.queued clean⟩
    · obtain ⟨ep, registered, _⟩ := renewable (steady.nibble ▸ told)
      exact ⟨ep, steady.registers registered⟩
    · obtain ⟨ep, registered, current⟩ := renewable (steady.nibble ▸ within_some within some)
      rw [replaced.record, ← current (steady.nibble ▸ within)]
      exact steady.registers registered

/-- A watch of a new body displaces an old one exactly when that is closed, the number keeps
its file, and the kernel's registration, where it covers the watch already, has the epoch
that the record gets. Of an open body nothing is returned that could be dereferenced, a body
that no driver has any more takes the number with it, and an update with the mask of the
registration leaves it with its old epoch. -/
theorem watch_displaced_iff (path : Reaches step {} ls s) (number : fd < 2 ^ 31) (made : b < s.bodies.length)
    (some : mask ≠ 0) (body : (s.fds.fdr fd).body = Option.some other) (differs : other ≠ b) :
    (∃ s', s.Displaced fd mask b other s') ↔
      s.isOpen other = false ∧ s.Survives fd other ∧ s.Renewable fd mask := by
  obtain ⟨lay, laid, kept, registrations, balanced⟩ := reached_kept path
  cases still : s.isOpen other with
  | true =>
      refine iff_of_false ?_ (fun condition => Bool.true_eq_false_eq_False condition.1)
      rintro ⟨s', displaced⟩
      obtain ⟨t, triggered, epoch, closes⟩ := displaced.closes
      have keeps : (s.fds.ensure fd).fdClose s.isOpen fd = Option.some (s.fds.ensure fd, [], none) := by
        apply Lays.fdClose_keeps
        intro b' body'
        rw [ensured_fdr, body] at body'
        rw [← Option.some.inj body']
        exact still
      rw [keeps] at closes
      cases Option.some.inj closes
  | false =>
      obtain ⟨s', lay', runs, replaced, epoll, displaces⟩ :=
        watch_replaces laid kept registrations balanced number made some body differs still
      have shuts : s.epoll.Shuts s'.epoll := by
        rw [epoll]
        exact release_shuts _ other
      have heard := replaced_heard_iff replaced number some shuts
      rw [epoll, ← survives_iff still] at heard
      constructor
      · rintro ⟨s₁, displaced⟩
        cases Option.some.inj (runs.symm.trans displaced.runs)
        exact ⟨rfl, heard.mp displaced.heard⟩
      · rintro ⟨_, condition⟩
        exact ⟨s', displaces (heard.mpr condition)⟩

/-- The kernel waits for reads under the first body, which another driver has as well. Once
that is closed, a second body of the number watches for writes. -/
theorem watch_displaced_closed :
    let ls : List Label := [.openFile 3, .create 3, .listen 0, .watch 3 1 0, .update, .close 0, .create 3]
    ∃ s, Reaches step {} ls s ∧ ∃ s', s.Displaced 3 2 1 0 s' := by
  intro ls
  have runs : (run step {} ls).any (fun s => decide (s.bodies.length = 2 ∧ (s.fds.fdr 3).body = some 0 ∧
      s.isOpen 0 = false ∧ s.epoll.opened 3 = true ∧ 0 ∈ s.elsewhere ∧ Nibbles.get s.epoll.fdctl 3 = 1 ∧
      s.epoll.Registers 3 2)) = true := by decide +kernel
  obtain ⟨s, ran, facts⟩ := (Option.any_eq_true _ _).mp runs
  obtain ⟨bodies, body, shut, opened, elsewhere, nibble, registered⟩ := of_decide_eq_true facts
  have path := run_iff_reaches.mp ran
  have uncovered : ¬Within 2 1 := by decide
  have survives : s.Survives 3 0 := ⟨opened, fun _ _ _ => .inr (.inl elsewhere)⟩
  have renewable : s.Renewable 3 2 := by
    refine fun _ => ⟨2, registered, ?_⟩
    rw [nibble]
    exact fun within => absurd within uncovered
  refine ⟨s, path, (watch_displaced_iff path (by decide) (by omega) (by decide) body (by decide)).mpr ?_⟩
  exact ⟨shut, survives, renewable⟩

/-- The first body is still open. -/
theorem watch_displaced_open :
    let ls : List Label := [.openFile 3, .create 3, .watch 3 1 0, .update, .create 3]
    ∃ s, Reaches step {} ls s ∧ (s.fds.fdr 3).body = some 0 ∧ s.bodies.length = 2 ∧
      ¬∃ s', s.Displaced 3 2 1 0 s' := by
  intro ls
  have runs : (run step {} ls).map (fun s =>
      (s.bodies.length, (s.fds.fdr 3).body, (s.step (.watch 3 2 1)).isNone)) =
      some (2, some 0, true) := by decide +kernel
  obtain ⟨s, ran, facts⟩ := Option.map_eq_some_iff.mp runs
  simp only [Prod.mk.injEq] at facts
  obtain ⟨bodies, body, undefined⟩ := facts
  refine ⟨s, run_iff_reaches.mp ran, body, bodies, ?_⟩
  rintro ⟨s', displaced⟩
  have none : s.step (.watch 3 2 1) = none := Option.isNone_iff_eq_none.mp undefined
  exact nomatch none.symm.trans displaced.runs

end State
end Cotamer.Fd.Table

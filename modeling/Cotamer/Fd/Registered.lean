import Cotamer.Fd.Watches
import Mathlib.Data.Set.Card

/-! What the notifier has registered, against the watches and the driver's copy. -/
namespace Cotamer.Fd.Watches
open Transition

/-- Inclusion of masks. -/
def Within (a b : FdEvent) : Prop := a ||| b = b

instance (a b : FdEvent) : Decidable (Within a b) := inferInstanceAs (Decidable (_ = _))

variable {a b c : FdEvent}

theorem within_or : Within (a ||| b) c ↔ Within a c ∧ Within b c := by
  unfold Within
  revert a b c
  decide +kernel

theorem within_zero : Within 0 a := BitVec.zero_or

theorem within_refl : Within a a := BitVec.or_self

namespace State

variable {s s' : State} {fd other : Nat} {l : Label} {fdu : FdUpdate} {m : FdEvent} {e : Epoch} {r : FdRec}

theorem watchListMask_within (s : State) (watches : List Watch) (m : FdEvent) :
    Within (s.watchListMask watches) m ↔ ∀ w ∈ watches, s.empty w = false → Within w.mask m := by
  have fold : ∀ start : FdEvent,
      Within (watches.foldl (fun mask w => if s.empty w then mask else mask ||| w.mask) start) m ↔
        Within start m ∧ ∀ w ∈ watches, s.empty w = false → Within w.mask m := by
    induction watches with
    | nil => simp
    | cons w watches ih =>
        intro start
        rw [List.foldl_cons, ih, List.forall_mem_cons]
        cases s.empty w with
        | true => simp
        | false => simp [within_or, and_assoc]
  rw [watchListMask, fold]
  exact and_iff_right within_zero

/-- The driver's copy is what the notifier has registered. -/
structure Copied (s : State) : Prop where
  packed : ∀ fd, Nibbles.get s.fdctl fd = s.kernelMask fd
  kept : ∀ fd m e, s.kernel.lookup fd = some (m, e) → m ≠ 0 ∧ userEpoch ≤ e
  counted : s.nfdctl = s.kernel.keys.length

/-- The notifier reports what the live watches wait for, updates apart. -/
def Covered (s : State) : Prop := ∀ fd, fd ∉ s.updates → Within (s.liveMask fd) (s.kernelMask fd)

/-- The notifier has the epoch of every registered record. -/
def Current (s : State) : Prop := ∀ fd m e, s.kernel.lookup fd = some (m, e) → e = (s.fdrs fd).epoch

theorem kernelMask_some (registered : s.kernel.lookup fd = some (m, e)) : s.kernelMask fd = m := by
  rw [kernelMask, registered]
  rfl

theorem kernelMask_eq_zero (copied : s.Copied) : s.kernelMask fd = 0 ↔ s.kernel.lookup fd = none := by
  cases registered : s.kernel.lookup fd with
  | none => simp [kernelMask, registered]
  | some r =>
      obtain ⟨m, e⟩ := r
      rw [kernelMask_some registered]
      exact ⟨fun zero => absurd zero (copied.kept fd m e registered).1, fun none => by contradiction⟩

theorem epollCtl_self (s : State) (fdu : FdUpdate) :
    (s.epollCtl fdu).lookup fdu.fd = if fdu.mask = 0 then none else some (fdu.mask, fdu.epoch) := by
  unfold epollCtl
  split
  · exact AList.lookup_erase fdu.fd s.kernel
  · exact AList.lookup_insert s.kernel

theorem epollCtl_ne (s : State) (fdu : FdUpdate) (distinct : fd ≠ fdu.fd) :
    (s.epollCtl fdu).lookup fd = s.kernel.lookup fd := by
  unfold epollCtl
  split
  · exact AList.lookup_erase_ne distinct
  · exact AList.lookup_insert_ne distinct

/-- A change of mask adds a registration, removes one or keeps their number. -/
theorem epollCtl_length (copied : s.Copied) (fdu : FdUpdate) (changes : s.kernelMask fdu.fd ≠ fdu.mask) :
    (s.epollCtl fdu).keys.length =
      if s.kernelMask fdu.fd = 0 then s.kernel.keys.length + 1
      else if fdu.mask = 0 then s.kernel.keys.length - 1 else s.kernel.keys.length := by
  by_cases fresh : s.kernelMask fdu.fd = 0
  · have absent : fdu.fd ∉ s.kernel.keys := AList.lookup_eq_none.mp ((kernelMask_eq_zero copied).mp fresh)
    have some : fdu.mask ≠ 0 := fun none => changes (fresh.trans none.symm)
    rw [if_pos fresh, epollCtl, if_neg some, AList.keys_insert, List.length_cons,
      List.erase_of_not_mem absent]
  · have present : fdu.fd ∈ s.kernel.keys := by
      by_contra absent
      exact fresh ((kernelMask_eq_zero copied).mpr (AList.lookup_eq_none.mpr absent))
    rw [if_neg fresh, epollCtl]
    split
    · rw [AList.keys_erase, List.length_erase_of_mem present]
    · rw [AList.keys_insert, List.length_cons, List.length_erase_of_mem present]
      exact Nat.sub_add_cancel (List.length_pos_of_mem present)

/-- What `apply_fd_update` does to the notifier and to the driver's copy of it. -/
structure Applied (s s' : State) (fdu : FdUpdate) : Prop where
  fdrs : s'.fdrs = s.fdrs
  updates : s'.updates = s.updates
  emptied : s'.emptied = s.emptied
  packed : ∀ fd, Nibbles.get s'.fdctl fd = s'.kernelMask fd
  counted : s'.nfdctl = s'.kernel.keys.length
  mask : s'.kernelMask fdu.fd = fdu.mask
  lookup : s'.kernel.lookup fdu.fd = s.kernel.lookup fdu.fd ∧ s.kernelMask fdu.fd = fdu.mask ∨
    fdu.mask = 0 ∧ s'.kernel.lookup fdu.fd = none ∨
    fdu.mask ≠ 0 ∧ s'.kernel.lookup fdu.fd = some (fdu.mask, fdu.epoch)
  others : ∀ fd, fd ≠ fdu.fd → s'.kernel.lookup fd = s.kernel.lookup fd

theorem applyFdUpdate_applied (copied : s.Copied) (fdu : FdUpdate) : Applied s (s.applyFdUpdate fdu) fdu := by
  have old : Nibbles.get (Nibbles.ensure s.fdctl fdu.fd) fdu.fd = s.kernelMask fdu.fd := by
    rw [Nibbles.get_ensure, copied.packed]
  by_cases same : s.kernelMask fdu.fd = fdu.mask
  · have eq : s.applyFdUpdate fdu = { s with fdctl := Nibbles.ensure s.fdctl fdu.fd } := by
      simp only [applyFdUpdate, old, if_pos same]
    rw [eq]
    refine ⟨rfl, rfl, rfl, fun fd => ?_, copied.counted, same, .inl ⟨rfl, same⟩, fun _ _ => rfl⟩
    show Nibbles.get (Nibbles.ensure s.fdctl fdu.fd) fd = s.kernelMask fd
    rw [Nibbles.get_ensure, copied.packed]
  · have eq : s.applyFdUpdate fdu =
        { s with
          kernel := s.epollCtl fdu
          fdctl := Nibbles.flip (Nibbles.ensure s.fdctl fdu.fd) fdu.fd
            (Nibbles.get (Nibbles.ensure s.fdctl fdu.fd) fdu.fd ^^^ fdu.mask)
          nfdctl := if s.kernelMask fdu.fd = 0 then s.nfdctl + 1
            else if fdu.mask = 0 then s.nfdctl - 1 else s.nfdctl } := by
      simp only [applyFdUpdate, old, if_neg same]
    rw [eq]
    have self := epollCtl_self s fdu
    have mask : (((s.epollCtl fdu).lookup fdu.fd).map Prod.fst).getD 0 = fdu.mask := by
      rw [self]
      split
      · rename_i none
        exact none.symm
      · rfl
    refine ⟨rfl, rfl, rfl, fun fd => ?_, ?_, mask, ?_, fun fd distinct => epollCtl_ne s fdu distinct⟩
    · by_cases mine : fd = fdu.fd
      · subst mine
        rw [Nibbles.get_write_self]
        exact mask.symm
      · rw [Nibbles.get_write_ne (Ne.symm mine), copied.packed]
        simp only [kernelMask]
        rw [epollCtl_ne s fdu mine]
    · simp only
      rw [epollCtl_length copied fdu same, copied.counted]
    · by_cases none : fdu.mask = 0
      · rw [if_pos none] at self
        exact .inr (.inl ⟨none, self⟩)
      · rw [if_neg none] at self
        exact .inr (.inr ⟨none, self⟩)

theorem Applied.copied (applied : Applied s s' fdu) (copied : s.Copied)
    (promoted : fdu.mask ≠ 0 → userEpoch ≤ fdu.epoch) : s'.Copied := by
  refine ⟨applied.packed, fun fd m e registered => ?_, applied.counted⟩
  by_cases mine : fd = fdu.fd
  · subst mine
    rcases applied.lookup with ⟨same, _⟩ | ⟨_, none⟩ | ⟨some, new⟩
    · exact copied.kept fdu.fd m e (same ▸ registered)
    · rw [none] at registered
      contradiction
    · cases Option.some.inj (new.symm.trans registered)
      exact ⟨some, promoted some⟩
  · rw [applied.others fd mine] at registered
    exact copied.kept fd m e registered

theorem Applied.live (applied : Applied s s' fdu) (fd : Nat) : s'.liveMask fd = s.liveMask fd := by
  have same : s'.empty = s.empty := by
    funext w
    rw [empty, empty, applied.emptied]
  rw [liveMask, liveMask, watchListMask, watchListMask, same, applied.fdrs]

theorem Applied.covered (applied : Applied s s' fdu)
    (others : ∀ fd, fd ≠ fdu.fd → fd ∉ s.updates → Within (s.liveMask fd) (s.kernelMask fd))
    (mine : fdu.fd ∉ s.updates → Within (s.liveMask fdu.fd) fdu.mask) : s'.Covered := by
  intro fd clean
  rw [applied.updates] at clean
  rw [applied.live]
  by_cases same : fd = fdu.fd
  · subst same
    rw [applied.mask]
    exact mine clean
  · rw [kernelMask, applied.others fd same]
    exact others fd same clean

theorem Copied.still (copied : s.Copied) (fdctl : s'.fdctl = s.fdctl) (nfdctl : s'.nfdctl = s.nfdctl)
    (kernel : s'.kernel = s.kernel) : s'.Copied := by
  constructor
  · simp only [fdctl, kernelMask, kernel]
    exact copied.packed
  · rw [kernel]
    exact copied.kept
  · rw [nfdctl, kernel]
    exact copied.counted

/-- Chains lose watches, or their descriptor is put on the update list. -/
theorem Covered.still (covered : s.Covered) (kernel : s'.kernel = s.kernel)
    (chains : ∀ fd, fd ∉ s'.updates → fd ∉ s.updates ∧ ∀ w ∈ (s'.fdrs fd).watches, s'.empty w = false →
      w ∈ (s.fdrs fd).watches ∧ s.empty w = false) : s'.Covered := by
  intro fd clean
  obtain ⟨before, subset⟩ := chains fd clean
  have all := (watchListMask_within s _ _).mp (covered fd before)
  simp only [kernelMask, kernel]
  apply (watchListMask_within s' _ _).mpr
  intro w member live
  obtain ⟨old, alive⟩ := subset w member live
  exact all w old alive

section queue

variable (s : State) (fd : Nat)

@[simp] theorem queue_fdrs : (s.queue fd).fdrs = s.fdrs := by
  unfold queue
  split <;> rfl

@[simp] theorem queue_kernel : (s.queue fd).kernel = s.kernel := by
  unfold queue
  split <;> rfl

@[simp] theorem queue_fdctl : (s.queue fd).fdctl = s.fdctl := by
  unfold queue
  split <;> rfl

@[simp] theorem queue_nfdctl : (s.queue fd).nfdctl = s.nfdctl := by
  unfold queue
  split <;> rfl

@[simp] theorem queue_emptied : (s.queue fd).emptied = s.emptied := by
  unfold queue
  split <;> rfl

theorem mem_queue : other ∈ (s.queue fd).updates ↔ other = fd ∨ other ∈ s.updates := by
  unfold queue
  split
  · rename_i queued
    constructor
    · exact .inr
    · rintro (rfl | member)
      · exact queued
      · exact member
  · exact List.mem_cons

end queue

/-- One record changes and is put on the update list. -/
structure Edited (s s' : State) (fd : Nat) (r : FdRec) : Prop where
  fdrs : s'.fdrs = Function.update s.fdrs fd r
  kernel : s'.kernel = s.kernel
  fdctl : s'.fdctl = s.fdctl
  nfdctl : s'.nfdctl = s.nfdctl
  updates : ∀ other, other ∈ s'.updates ↔ other = fd ∨ other ∈ s.updates
  emptied : ∀ e ∈ s.emptied, e ∈ s'.emptied

theorem Edited.copied (edited : Edited s s' fd r) (copied : s.Copied) : s'.Copied :=
  copied.still edited.fdctl edited.nfdctl edited.kernel

theorem Edited.covered (edited : Edited s s' fd r) (covered : s.Covered) : s'.Covered := by
  apply covered.still edited.kernel
  intro other clean
  rw [edited.updates, not_or] at clean
  refine ⟨clean.2, fun w member live => ?_⟩
  rw [edited.fdrs, Function.update_of_ne clean.1] at member
  refine ⟨member, ?_⟩
  rw [empty, decide_eq_false_iff_not] at live ⊢
  exact fun gone => live (edited.emptied _ gone)

theorem install_edited (s : State) (fd body : Nat) (mask : FdEvent) :
    Edited s (s.install fd body mask) fd
      { s.fdrs fd with body, watches := (s.fdrs fd).watches ++ [{ ev := s.next, mask }] } := by
  unfold install
  constructor
  · simp [setRec]
  · simp [setRec]
  · simp [setRec]
  · simp [setRec]
  · intro other
    exact mem_queue _ _
  · simp [setRec]

/-- What `fd_close` does when the body of the record is closed. -/
theorem fdClose_some {closed : State} {b : Nat} (did : s.fdClose fd = (closed, some (b, e))) :
    Edited s closed fd { epoch := (s.fdrs fd).epoch + 1 } ∧ (s.fdrs fd).body = some b ∧
      s.isOpen b = false := by
  simp only [fdClose] at did
  split at did
  · cases did
  · rename_i body recorded
    split at did
    · cases did
    · rename_i shut
      cases did
      refine ⟨⟨?_, ?_, ?_, ?_, ?_, ?_⟩, recorded, Bool.not_eq_true _ ▸ shut⟩
      · simp [setRec]
      · simp [setRec]
      · simp [setRec]
      · simp [setRec]
      · intro other
        exact mem_queue _ _
      · intro e gone
        simp [setRec, gone]

theorem fdClose_none {same : State} (did : s.fdClose fd = (same, none)) : same = s := by
  simp only [fdClose] at did
  split at did
  · cases did
    rfl
  · split at did
    · cases did
      rfl
    · cases did

/-- The tables stay as they are, and more events may be empty. -/
structure Still (s s' : State) : Prop where
  fdrs : s'.fdrs = s.fdrs
  kernel : s'.kernel = s.kernel
  fdctl : s'.fdctl = s.fdctl
  nfdctl : s'.nfdctl = s.nfdctl
  updates : s'.updates = s.updates
  emptied : ∀ e ∈ s.emptied, e ∈ s'.emptied

theorem Still.covered (still : Still s s') (covered : s.Covered) : s'.Covered := by
  apply covered.still still.kernel
  intro fd clean
  rw [still.updates] at clean
  refine ⟨clean, fun w member live => ?_⟩
  rw [still.fdrs] at member
  refine ⟨member, ?_⟩
  rw [empty, decide_eq_false_iff_not] at live ⊢
  exact fun gone => live (still.emptied _ gone)

theorem Still.refl (s : State) : Still s s := ⟨rfl, rfl, rfl, rfl, rfl, fun _ => id⟩

/-- No watch finds the record of its descriptor taken by another body while the
notifier has the descriptor registered. -/
def Undisplaced (s : State) : Label → Prop
  | .watch b mask => ∀ body ∈ s.bodies[b]?, mask = 0 ∨ (s.fdrs body.baseFd).body = none ∨
      (s.fdrs body.baseFd).body = some b ∨ s.kernelMask body.baseFd = 0
  | _ => True

instance : ∀ l, Decidable (s.Undisplaced l)
  | .watch b _ => inferInstanceAs (Decidable (∀ body ∈ s.bodies[b]?, _))
  | .create _ | .close _ | .notifyClose _ | .take _ _ _ | .pop | .empty _ | .update => isTrue trivial

/-- What `pop_update` takes off the update list. -/
structure Popped (s s' : State) (fdu : FdUpdate) (r : FdRec) : Prop where
  updates : s.updates = fdu.fd :: s'.updates
  kernel : s'.kernel = s.kernel
  fdctl : s'.fdctl = s.fdctl
  nfdctl : s'.nfdctl = s.nfdctl
  emptied : s'.emptied = s.emptied
  fdrs : s'.fdrs = Function.update s.fdrs fdu.fd r
  mask : fdu.mask = s.liveMask fdu.fd
  watches : r.watches = (s.fdrs fdu.fd).watches
  epoch : fdu.mask ≠ 0 → userEpoch ≤ fdu.epoch ∧ r.epoch = fdu.epoch ∧
    (userEpoch ≤ (s.fdrs fdu.fd).epoch → r.epoch = (s.fdrs fdu.fd).epoch)

/-- What a step can do. -/
inductive Change (s s' : State) (l : Label) : Prop where
  | still (tables : Still s s') (ok : s.Undisplaced l)
  | edited (fd : Nat) (r : FdRec) (edit : Edited s s' fd r) (same : r.epoch = (s.fdrs fd).epoch)
      (ok : s.Undisplaced l)
  | displaced (fd : Nat) (r : FdRec) (edit : Edited s s' fd r) (next : r.epoch = (s.fdrs fd).epoch + 1)
      (ok : s.Undisplaced l ↔ s.kernelMask fd = 0)
  | closed (fd : Nat) (r : FdRec) (middle : State) (e : Epoch) (edit : Edited s middle fd r)
      (applied : Applied middle s' { fd, mask := 0, epoch := e }) (ok : s.Undisplaced l)
  | updated (fdu : FdUpdate) (middle : State) (r : FdRec) (popped : Popped s middle fdu r)
      (applied : Applied middle s' fdu) (ok : s.Undisplaced l)

theorem Edited.trans {middle : State} {r r' : FdRec} (first : Edited s middle fd r)
    (second : Edited middle s' fd r') : Edited s s' fd r' where
  fdrs := by rw [second.fdrs, first.fdrs, Function.update_idem]
  kernel := second.kernel.trans first.kernel
  fdctl := second.fdctl.trans first.fdctl
  nfdctl := second.nfdctl.trans first.nfdctl
  updates other := by
    rw [second.updates, first.updates]
    constructor
    · rintro (mine | mine | old)
      · exact .inl mine
      · exact .inl mine
      · exact .inr old
    · rintro (mine | old)
      · exact .inl mine
      · exact .inr (.inr old)
  emptied e gone := second.emptied e (first.emptied e gone)

theorem watch_change {b : Nat} {body : Body} {mask : FdEvent} (found : s.bodies[b]? = some body)
    (moved : s.watch body.baseFd b mask = some s') : Change s s' (.watch b mask) := by
  unfold watch at moved
  by_cases noMask : mask = 0
  · rw [if_pos noMask] at moved
    cases Option.some.inj moved
    exact .still ⟨rfl, rfl, rfl, rfl, rfl, fun _ => id⟩ fun _ _ => .inl noMask
  · rw [if_neg noMask] at moved
    split at moved
    · rename_i none
      cases Option.some.inj moved
      apply Change.edited body.baseFd _ (install_edited s body.baseFd b mask) rfl
      intro body' found'
      cases found.symm.trans found'
      exact .inr (.inl none)
    · rename_i owner recorded
      split at moved
      · rename_i mine
        subst mine
        cases Option.some.inj moved
        apply Change.edited body.baseFd _ (install_edited s body.baseFd owner mask) rfl
        intro body' found'
        cases found.symm.trans found'
        exact .inr (.inr (.inl recorded))
      · rename_i differs
        split at moved
        · rename_i closed result did
          obtain ⟨b', e⟩ := result
          obtain ⟨edit, _, _⟩ := fdClose_some did
          cases Option.some.inj moved
          apply Change.displaced body.baseFd _ (edit.trans (install_edited closed body.baseFd b mask))
          · simp [edit.fdrs]
          · constructor
            · intro ok
              rcases ok body found with none | none | mine | unregistered
              · exact absurd none noMask
              · rw [recorded] at none
                contradiction
              · rw [recorded] at mine
                exact absurd (Option.some.inj mine) differs
              · exact unregistered
            · intro unregistered body' found'
              cases found.symm.trans found'
              exact .inr (.inr (.inr unregistered))
        · contradiction

theorem notifyClose_change (copied : s.Copied) (fd : Nat) :
    Change s (s.notifyClose fd) (.notifyClose fd) := by
  unfold notifyClose
  cases did : s.fdClose fd with
  | mk closed result =>
      cases result with
      | none =>
          rw [fdClose_none did]
          exact .still (Still.refl s) trivial
      | some pair =>
          obtain ⟨edit, _, _⟩ := fdClose_some did
          exact .closed fd _ closed pair.2 edit (applyFdUpdate_applied (edit.copied copied) _) trivial

theorem takeWatchList_change (s : State) (fd : Nat) (mask : FdEvent) (epoch : Epoch) :
    Change s (s.takeWatchList fd mask epoch) (.take fd mask epoch) := by
  simp only [takeWatchList]
  split
  · exact .still (Still.refl s) trivial
  · split
    · rename_i nothing
      refine .still ⟨?_, rfl, rfl, rfl, rfl, fun _ => id⟩ trivial
      -- nothing was taken, so the chain is what it was
      have all : (s.fdrs fd).watches.filter (fun w => !(decide (mask &&& w.mask ≠ 0) || s.empty w)) =
          (s.fdrs fd).watches := by
        rw [List.filter_eq_self]
        intro w member
        have out := List.filter_eq_nil_iff.mp nothing w member
        rw [Bool.not_eq_true] at out
        rw [out]
        rfl
      simp only [setRec, all]
      exact Function.update_eq_self fd s.fdrs
    · refine .edited fd { s.fdrs fd with
        watches := (s.fdrs fd).watches.filter fun w => !(decide (mask &&& w.mask ≠ 0) || s.empty w) } ?_ rfl trivial
      constructor
      · simp [setRec]
      · simp [setRec]
      · simp [setRec]
      · simp [setRec]
      · intro other
        exact mem_queue _ _
      · simp [setRec]

theorem popUpdate_popped {middle : State} (popped : s.popUpdate = some (fdu, middle)) :
    ∃ r, Popped s middle fdu r := by
  unfold popUpdate at popped
  split at popped
  · contradiction
  · rename_i fd updates queued
    simp only at popped
    split at popped
    · rename_i none
      cases Option.some.inj popped
      exact ⟨_, queued, rfl, rfl, rfl, rfl, rfl, rfl, rfl, fun some => absurd none some⟩
    · split at popped
      · rename_i fresh
        cases Option.some.inj popped
        refine ⟨_, queued, rfl, rfl, rfl, rfl, rfl, rfl, rfl, fun _ => ⟨BitVec.le_refl _, rfl, fun old => ?_⟩⟩
        exact absurd fresh (BitVec.not_lt.mpr old)
      · rename_i old
        cases Option.some.inj popped
        exact ⟨s.fdrs fd, queued, rfl, rfl, rfl, rfl, (Function.update_eq_self fd s.fdrs).symm, rfl, rfl,
          fun _ => ⟨BitVec.not_lt.mp old, rfl, fun _ => rfl⟩⟩

theorem step_change (copied : s.Copied) (moved : s.step l = some s') : Change s s' l := by
  cases l with
  | create fd =>
      simp only [step, Option.ite_none_left_eq_some] at moved
      cases Option.some.inj moved.2
      exact .still ⟨rfl, rfl, rfl, rfl, rfl, fun _ => id⟩ trivial
  | close b =>
      simp only [step] at moved
      split at moved
      · contradiction
      · cases Option.some.inj moved
        exact .still ⟨rfl, rfl, rfl, rfl, rfl, fun _ => id⟩ trivial
  | watch b mask =>
      obtain ⟨body, found, moved⟩ := Option.bind_eq_some_iff.mp moved
      exact watch_change found moved
  | notifyClose fd =>
      cases Option.some.inj moved
      exact notifyClose_change copied fd
  | take fd mask epoch =>
      cases Option.some.inj moved
      exact takeWatchList_change s fd mask epoch
  | pop =>
      cases Option.some.inj moved
      exact .still ⟨rfl, rfl, rfl, rfl, rfl, fun _ => id⟩ trivial
  | empty e =>
      cases Option.some.inj moved
      exact .still ⟨rfl, rfl, rfl, rfl, rfl, fun _ => List.mem_append_left _⟩ trivial
  | update =>
      obtain ⟨⟨fdu, middle⟩, popped, eq⟩ := Option.map_eq_some_iff.mp moved
      cases eq
      obtain ⟨r, taken⟩ := popUpdate_popped popped
      have same := copied.still taken.fdctl taken.nfdctl taken.kernel
      exact .updated fdu middle r taken (applyFdUpdate_applied same fdu) trivial

theorem Popped.copied (popped : Popped s s' fdu r) (copied : s.Copied) : s'.Copied :=
  copied.still popped.fdctl popped.nfdctl popped.kernel

theorem Popped.live (popped : Popped s s' fdu r) (fd : Nat) : s'.liveMask fd = s.liveMask fd := by
  have same : s'.empty = s.empty := by
    funext w
    rw [empty, empty, popped.emptied]
  rw [liveMask, liveMask, watchListMask, watchListMask, same, popped.fdrs]
  by_cases mine : fd = fdu.fd
  · subst mine
    rw [Function.update_self, popped.watches]
  · rw [Function.update_of_ne mine]

theorem step_copied (copied : s.Copied) (moved : s.step l = some s') : s'.Copied := by
  cases step_change copied moved with
  | still tables => exact copied.still tables.fdctl tables.nfdctl tables.kernel
  | edited fd r edit => exact edit.copied copied
  | displaced fd r edit => exact edit.copied copied
  | closed fd r middle e edit applied => exact applied.copied (edit.copied copied) fun some => absurd rfl some
  | updated fdu middle r popped applied =>
      exact applied.copied (popped.copied copied) fun some => (popped.epoch some).1

theorem step_covered (copied : s.Copied) (covered : s.Covered) (moved : s.step l = some s') :
    s'.Covered := by
  cases step_change copied moved with
  | still tables => exact tables.covered covered
  | edited fd r edit => exact edit.covered covered
  | displaced fd r edit => exact edit.covered covered
  | closed fd r middle e edit applied =>
      apply applied.covered (fun fd _ clean => edit.covered covered fd clean)
      intro clean
      exact absurd ((edit.updates fd).mpr (.inl rfl)) clean
  | updated fdu middle r popped applied =>
      apply applied.covered
      · intro fd distinct clean
        have before : fd ∉ s.updates := by
          rw [popped.updates, List.mem_cons, not_or]
          exact ⟨distinct, clean⟩
        rw [popped.live, kernelMask, popped.kernel]
        exact covered fd before
      · intro _
        rw [popped.live, ← popped.mask]
        exact within_refl

/-- A displaced record gets a new epoch, of which the notifier is not told. -/
theorem displaced_current (edit : Edited s s' fd r) (next : r.epoch = (s.fdrs fd).epoch + 1)
    (copied : s.Copied) (current : s.Current) : s'.Current ↔ s.kernelMask fd = 0 := by
  constructor
  · intro current'
    rw [kernelMask_eq_zero copied]
    cases registered : s.kernel.lookup fd with
    | none => rfl
    | some pair =>
        have before := current fd pair.1 pair.2 registered
        have after := current' fd pair.1 pair.2 (edit.kernel ▸ registered)
        rw [edit.fdrs, Function.update_self, next, ← before] at after
        have bump : ∀ e : Epoch, e ≠ e + 1 := by
          intro e same
          simp at same
        exact absurd after (bump pair.2)
  · intro unregistered other m e registered
    rw [edit.kernel] at registered
    by_cases mine : other = fd
    · subst mine
      rw [(kernelMask_eq_zero copied).mp unregistered] at registered
      contradiction
    · rw [edit.fdrs, Function.update_of_ne mine]
      exact current other m e registered

theorem Edited.current (edit : Edited s s' fd r) (same : r.epoch = (s.fdrs fd).epoch)
    (current : s.Current) : s'.Current := by
  intro other m e registered
  rw [edit.kernel] at registered
  rw [edit.fdrs]
  by_cases mine : other = fd
  · subst mine
    rw [Function.update_self, same]
    exact current other m e registered
  · rw [Function.update_of_ne mine]
    exact current other m e registered

/-- A closed descriptor is not registered any more. -/
theorem closed_current {middle : State} (edit : Edited s middle fd r)
    (applied : Applied middle s' { fd, mask := 0, epoch := e }) (copied : s.Copied) (current : s.Current) :
    s'.Current := by
  intro other m e' registered
  by_cases mine : other = fd
  · subst mine
    exfalso
    rcases applied.lookup with ⟨same, unregistered⟩ | ⟨_, none⟩ | ⟨some, _⟩
    · rw [same, (kernelMask_eq_zero (edit.copied copied)).mp unregistered] at registered
      contradiction
    · rw [none] at registered
      contradiction
    · exact absurd rfl some
  · rw [applied.others other mine, edit.kernel] at registered
    rw [applied.fdrs, edit.fdrs, Function.update_of_ne mine]
    exact current other m e' registered

theorem updated_current {middle : State} (popped : Popped s middle fdu r) (applied : Applied middle s' fdu)
    (copied : s.Copied) (current : s.Current) : s'.Current := by
  intro fd m e registered
  rw [applied.fdrs, popped.fdrs]
  by_cases mine : fd = fdu.fd
  · subst mine
    rw [Function.update_self]
    rcases applied.lookup with ⟨same, mask⟩ | ⟨_, none⟩ | ⟨some, new⟩
    · rw [same] at registered
      rw [kernelMask_some registered] at mask
      rw [popped.kernel] at registered
      obtain ⟨some, old⟩ := copied.kept fdu.fd m e registered
      have epoch := current fdu.fd m e registered
      rw [epoch] at old ⊢
      exact ((popped.epoch (mask ▸ some)).2.2 old).symm
    · rw [none] at registered
      contradiction
    · cases Option.some.inj (new.symm.trans registered)
      exact (popped.epoch some).2.1.symm
  · rw [applied.others fd mine, popped.kernel] at registered
    rw [Function.update_of_ne mine]
    exact current fd m e registered

/-- A step keeps the epochs current exactly when it displaces no registered body. -/
theorem step_current (copied : s.Copied) (current : s.Current) (moved : s.step l = some s') :
    s'.Current ↔ s.Undisplaced l := by
  cases step_change copied moved with
  | still tables ok =>
      refine iff_of_true (fun fd m e registered => ?_) ok
      rw [tables.kernel] at registered
      rw [tables.fdrs]
      exact current fd m e registered
  | edited fd r edit same ok => exact iff_of_true (edit.current same current) ok
  | displaced fd r edit next ok => exact (displaced_current edit next copied current).trans ok.symm
  | closed fd r middle e edit applied ok => exact iff_of_true (closed_current edit applied copied current) ok
  | updated fdu middle r popped applied ok => exact iff_of_true (updated_current popped applied copied current) ok

theorem initial_copied : State.Copied {} := by
  refine ⟨fun fd => ?_, fun fd m e registered => ?_, rfl⟩
  · simp [Nibbles.get, kernelMask]
  · rw [AList.lookup_empty] at registered
    contradiction

theorem initial_current : State.Current {} := by
  intro fd m e registered
  rw [AList.lookup_empty] at registered
  contradiction

theorem reached_copied (path : Reaches step {} ls s) : s.Copied ∧ s.Covered := by
  apply path.invariant (P := fun s => s.Copied ∧ s.Covered)
  · rintro s l s' ⟨copied, covered⟩ moved
    exact ⟨step_copied copied moved, step_covered copied covered moved⟩
  · exact ⟨initial_copied, fun fd _ => within_zero⟩

theorem registered_count (copied : s.Copied) :
    {fd | s.kernelMask fd ≠ 0}.ncard = s.kernel.keys.length := by
  have keys : {fd | s.kernelMask fd ≠ 0} = (s.kernel.keys.toFinset : Set Nat) := by
    ext fd
    rw [Set.mem_ofPred_eq, Ne, kernelMask_eq_zero copied, AList.lookup_eq_none, not_not, Finset.mem_coe,
      List.mem_toFinset]
    rfl
  rw [keys, Set.ncard_coe_finset, List.toFinset_card_of_nodup s.kernel.keys_nodup]

/-- The notifier reports what the live watches wait for, for every descriptor that is
not on the update list; the packed copy and the count agree with it; and its epochs
agree with the records as long as no watch displaces a registered body. -/
theorem watches_registered (path : Reaches step {} ls s) :
    (∀ fd, fd ∉ s.updates → Within (s.liveMask fd) (s.kernelMask fd)) ∧
      (s.updates = [] → ∀ fd, Within (s.liveMask fd) (s.kernelMask fd)) ∧
      (∀ fd, Nibbles.get s.fdctl fd = s.kernelMask fd) ∧
      s.nfdctl = {fd | s.kernelMask fd ≠ 0}.ncard ∧
      (Always step Current {} ls ↔ Meets step Undisplaced {} ls) := by
  obtain ⟨copied, covered⟩ := reached_copied path
  refine ⟨covered, fun drained fd => covered fd (by rw [drained]; exact List.not_mem_nil), copied.packed, ?_, ?_⟩
  · rw [registered_count copied, copied.counted]
  · exact always_iff_meets (fun copied _ _ moved => step_copied copied moved)
      (fun copied current moved => step_current copied current moved) path initial_copied initial_current

/-- A descriptor is watched, reported, watched again, closed and used by another body. -/
theorem watches_registered_reused :
    let ls : List Label := [.create 3, .watch 0 1, .update, .take 3 1 2, .pop, .watch 0 4, .update,
      .close 0, .notifyClose 3, .update, .create 3, .watch 1 3, .update]
    ∃ s, Reaches step {} ls s ∧ s.kernelMask 3 = 3 ∧ s.nfdctl = 1 ∧
      (s.updates = [] → ∀ fd, Within (s.liveMask fd) (s.kernelMask fd)) ∧
      (Always step Current {} ls ↔ Meets step Undisplaced {} ls) := by
  intro ls
  have path : Reaches step {} ls _ := run_iff_reaches.mp rfl
  obtain ⟨_, drained, _, _, exactly⟩ := watches_registered path
  exact ⟨_, path, by decide, by decide, drained, exactly⟩

/-- A new body on the number of a closed one asks for what the old one did: the
notifier keeps the epoch of the old one. -/
theorem displaced_keeps_old_epoch :
    ∃ s, Reaches step {} [.create 3, .watch 0 1, .update, .close 0, .create 3, .watch 1 1, .update] s ∧
      s.updates = [] ∧ s.kernel.lookup 3 = some (1, 2) ∧ (s.fdrs 3).epoch = 3 :=
  ⟨_, run_iff_reaches.mp rfl, by decide, by decide, by decide⟩

end State
end Cotamer.Fd.Watches

import Cotamer.Fd.Watches

/-! The numbers that have a file, what epoll has registered for these files, and the
driver's copy of it. A file has one number and can be polled: epoll drops its registration
when the number is closed, and has no other reason to fail than that it does not know the
file, or knows it already. -/
namespace Cotamer.Fd
open Watches (FdEvent Epoch FdUpdate userEpoch)

structure Epoll where
  fdctl : List (BitVec 64) := []
  nfdctl : Nat := 0
  opened : Nat → Bool := fun _ => false
  kernel : AList fun _ : Nat => FdEvent × Epoch := ∅

namespace Epoll

/-- `epoll_ctl` with the operation that `fd_batch::add` chooses, if it succeeds. -/
def ctl (k : Epoll) (fdu : FdUpdate) (oldMask : FdEvent) : Option (AList fun _ : Nat => FdEvent × Epoch) :=
  let known := (k.kernel.lookup fdu.fd).isSome
  let told := k.kernel.insert fdu.fd (fdu.mask, fdu.epoch)
  if k.opened fdu.fd = false then none                                               -- EBADF
  else if fdu.mask = 0 then if known then some (k.kernel.erase fdu.fd) else none     -- EPOLL_CTL_DEL
  else if oldMask ≠ 0 then if known then some told else none                         -- EPOLL_CTL_MOD
  else if known then none else some told                                             -- EPOLL_CTL_ADD

/-- `apply_fd_update`, and whether it returns: when `epoll_ctl` fails it throws. -/
def applyFdUpdate (k : Epoll) (fdu : FdUpdate) : Epoll × Bool :=
  let fdctl := Nibbles.ensure k.fdctl fdu.fd
  let oldMask := Nibbles.get fdctl fdu.fd
  if oldMask = fdu.mask then ({ k with fdctl }, true)
  else
    match k.ctl fdu oldMask with
    | none => ({ k with fdctl }, false)
    | some kernel =>
      let nfdctl := if oldMask = 0 then k.nfdctl + 1 else if fdu.mask = 0 then k.nfdctl - 1 else k.nfdctl
      ({ k with kernel, fdctl := Nibbles.flip fdctl fdu.fd (oldMask ^^^ fdu.mask), nfdctl }, true)

/-- A new file gets the number. -/
def openFile (k : Epoll) (fd : Nat) : Epoll := { k with opened := Function.update k.opened fd true }

/-- `::close`. -/
def closeFile (k : Epoll) (fd : Nat) : Epoll :=
  { k with opened := Function.update k.opened fd false, kernel := k.kernel.erase fd }

variable {k k' : Epoll} {fd n : Nat} {ep : Epoch} {fdu : FdUpdate}

/-- A registration is one of a file, and the driver's copy has its mask. -/
def Kept (k : Epoll) : Prop :=
  ∀ fd m ep, k.kernel.lookup fd = some (m, ep) →
    k.opened fd = true ∧ Nibbles.get k.fdctl fd = m ∧ m ≠ 0 ∧ userEpoch ≤ ep

/-- What the driver's copy has for the number, the kernel has, under the epoch. -/
def Registers (k : Epoll) (fd : Nat) (ep : Epoch) : Prop :=
  k.kernel.lookup fd = some (Nibbles.get k.fdctl fd, ep)

instance (k : Epoll) (fd : Nat) (ep : Epoch) : Decidable (k.Registers fd ep) :=
  inferInstanceAs (Decidable ((_ : Option (FdEvent × Epoch)) = _))

/-- The number has a file, and the kernel has what the driver's copy has. -/
structure Backed (k : Epoll) (fd : Nat) : Prop where
  opened : k.opened fd = true
  registered : Nibbles.get k.fdctl fd ≠ 0 → ∃ ep, k.Registers fd ep

/-- The registration of the number is left alone. -/
structure Steady (k k' : Epoll) (fd : Nat) : Prop where
  lookup : k'.kernel.lookup fd = k.kernel.lookup fd
  nibble : Nibbles.get k'.fdctl fd = Nibbles.get k.fdctl fd

theorem Steady.refl (k : Epoll) (fd : Nat) : Steady k k fd := ⟨rfl, rfl⟩

theorem Steady.trans {k'' : Epoll} (first : Steady k k' fd) (second : Steady k' k'' fd) : Steady k k'' fd :=
  ⟨second.lookup.trans first.lookup, second.nibble.trans first.nibble⟩

theorem Steady.registers (steady : Steady k k' fd) (registers : k.Registers fd ep) : k'.Registers fd ep := by
  rw [Registers, steady.lookup, steady.nibble]
  exact registers

theorem Steady.backed (steady : Steady k k' fd) (opened : k'.opened fd = true) (backed : k.Backed fd) :
    k'.Backed fd where
  opened := opened
  registered some := by
    obtain ⟨ep, registers⟩ := backed.registered (steady.nibble ▸ some)
    exact ⟨ep, steady.registers registers⟩

theorem openFile_steady (k : Epoll) (n fd : Nat) : Steady k (k.openFile n) fd := ⟨rfl, rfl⟩

/-- A number that still has a file is another one. -/
theorem closeFile_steady (still : (k.closeFile n).opened fd = true) : Steady k (k.closeFile n) fd := by
  have other : fd ≠ n := by
    rintro rfl
    simp [closeFile] at still
  exact ⟨AList.lookup_erase_ne other, rfl⟩

/-- One number is closed, or none. -/
def Shuts (k k' : Epoll) : Prop := k' = k ∨ ∃ n, k' = k.closeFile n

theorem Shuts.refl (k : Epoll) : Shuts k k := .inl rfl

theorem Shuts.steady (shuts : Shuts k k') (still : k'.opened fd = true) : Steady k k' fd := by
  obtain rfl | ⟨n, rfl⟩ := shuts
  · exact .refl k' fd
  · exact closeFile_steady still

theorem ctl_ne {kernel : AList fun _ : Nat => FdEvent × Epoch} {oldMask : FdEvent} (other : fd ≠ fdu.fd)
    (done : k.ctl fdu oldMask = some kernel) : kernel.lookup fd = k.kernel.lookup fd := by
  have erased : (k.kernel.erase fdu.fd).lookup fd = k.kernel.lookup fd := AList.lookup_erase_ne other
  have inserted : (k.kernel.insert fdu.fd (fdu.mask, fdu.epoch)).lookup fd = k.kernel.lookup fd :=
    AList.lookup_insert_ne other
  simp only [ctl] at done
  split_ifs at done <;> cases Option.some.inj done <;> assumption

theorem ctl_self {kernel : AList fun _ : Nat => FdEvent × Epoch} {oldMask : FdEvent}
    (done : k.ctl fdu oldMask = some kernel) : k.opened fdu.fd = true ∧
      kernel.lookup fdu.fd = if fdu.mask = 0 then none else some (fdu.mask, fdu.epoch) := by
  have erased : (k.kernel.erase fdu.fd).lookup fdu.fd = none := AList.lookup_erase ..
  have inserted : (k.kernel.insert fdu.fd (fdu.mask, fdu.epoch)).lookup fdu.fd = some (fdu.mask, fdu.epoch) :=
    AList.lookup_insert ..
  simp only [ctl] at done
  split_ifs at done with shut none <;> cases Option.some.inj done <;>
    refine ⟨Bool.not_eq_false _ ▸ shut, ?_⟩ <;> simp only [none, if_true, if_false] <;> assumption

theorem applyFdUpdate_opened (k : Epoll) (fdu : FdUpdate) : (k.applyFdUpdate fdu).1.opened = k.opened := by
  simp only [applyFdUpdate]
  split
  · rfl
  · split <;> rfl

theorem applyFdUpdate_steady (k : Epoll) (other : fd ≠ fdu.fd) : Steady k (k.applyFdUpdate fdu).1 fd := by
  simp only [applyFdUpdate]
  split
  · exact ⟨rfl, Nibbles.get_ensure ..⟩
  · split
    · exact ⟨rfl, Nibbles.get_ensure ..⟩
    · rename_i kernel done
      exact ⟨ctl_ne other done, Nibbles.get_write_ne other.symm _⟩

/-- An update finds the mask in the driver's copy, fails, or replaces the registration. -/
theorem applyFdUpdate_cases (k : Epoll) (fdu : FdUpdate) :
    Nibbles.get k.fdctl fdu.fd = fdu.mask ∧ Steady k (k.applyFdUpdate fdu).1 fdu.fd ∨
    k.ctl fdu (Nibbles.get k.fdctl fdu.fd) = none ∧ Steady k (k.applyFdUpdate fdu).1 fdu.fd ∨
    k.ctl fdu (Nibbles.get k.fdctl fdu.fd) ≠ none ∧ k.opened fdu.fd = true ∧
      Nibbles.get k.fdctl fdu.fd ≠ fdu.mask ∧ Nibbles.get (k.applyFdUpdate fdu).1.fdctl fdu.fd = fdu.mask ∧
      (k.applyFdUpdate fdu).1.kernel.lookup fdu.fd =
        if fdu.mask = 0 then none else some (fdu.mask, fdu.epoch) := by
  simp only [applyFdUpdate, Nibbles.get_ensure]
  by_cases same : Nibbles.get k.fdctl fdu.fd = fdu.mask
  · rw [if_pos same]
    exact .inl ⟨same, rfl, Nibbles.get_ensure ..⟩
  · rw [if_neg same]
    cases done : k.ctl fdu (Nibbles.get k.fdctl fdu.fd) with
    | none => exact .inr (.inl ⟨rfl, rfl, Nibbles.get_ensure ..⟩)
    | some kernel =>
        obtain ⟨opened, lookup⟩ := ctl_self done
        have written := Nibbles.get_write_self k.fdctl fdu.fd fdu.mask
        rw [Nibbles.get_ensure] at written
        exact .inr (.inr ⟨Option.some_ne_none _, opened, same, written, lookup⟩)

theorem ctl_backed (kept : k.Kept) (backed : k.Backed fdu.fd) (changes : Nibbles.get k.fdctl fdu.fd ≠ fdu.mask) :
    k.ctl fdu (Nibbles.get k.fdctl fdu.fd) ≠ none := by
  have opened : ¬k.opened fdu.fd = false := Bool.not_eq_false _ ▸ backed.opened
  simp only [ctl, if_neg opened]
  by_cases fresh : Nibbles.get k.fdctl fdu.fd = 0
  · have unknown : k.kernel.lookup fdu.fd = none := by
      cases known : k.kernel.lookup fdu.fd with
      | none => rfl
      | some registration =>
          obtain ⟨_, copied, some, _⟩ := kept fdu.fd registration.1 registration.2 known
          exact absurd (copied.symm.trans fresh) some
    rw [if_neg (fun none => changes (fresh.trans none.symm)), if_neg (not_not.mpr fresh), unknown]
    exact Option.some_ne_none _
  · obtain ⟨ep, known⟩ := backed.registered fresh
    rw [Registers] at known
    simp only [known, Option.isSome_some, if_true, if_pos fresh]
    split <;> exact Option.some_ne_none _

/-- An update that finds its mask in the driver's copy. -/
theorem applyFdUpdate_found (fdu : FdUpdate) (same : Nibbles.get k.fdctl fdu.fd = fdu.mask) :
    Steady k (k.applyFdUpdate fdu).1 fdu.fd := by
  rcases applyFdUpdate_cases k fdu with ⟨_, steady⟩ | ⟨_, steady⟩ | ⟨_, _, changes, _⟩
  · exact steady
  · exact steady
  · exact absurd same changes

/-- An update that can be made. -/
theorem applyFdUpdate_self (kept : k.Kept) (backed : k.Backed fdu.fd) :
    Nibbles.get (k.applyFdUpdate fdu).1.fdctl fdu.fd = fdu.mask ∧
      (k.applyFdUpdate fdu).1.kernel.lookup fdu.fd =
        if Nibbles.get k.fdctl fdu.fd = fdu.mask then k.kernel.lookup fdu.fd
        else if fdu.mask = 0 then none else some (fdu.mask, fdu.epoch) := by
  rcases applyFdUpdate_cases k fdu with ⟨same, steady⟩ | ⟨failed, steady⟩ | ⟨_, _, changes, nibble, lookup⟩
  · rw [if_pos same]
    exact ⟨steady.nibble.trans same, steady.lookup⟩
  · by_cases same : Nibbles.get k.fdctl fdu.fd = fdu.mask
    · rw [if_pos same]
      exact ⟨steady.nibble.trans same, steady.lookup⟩
    · exact absurd failed (ctl_backed kept backed same)
  · rw [if_neg changes]
    exact ⟨nibble, lookup⟩

/-- The registration of a file that is gone does not come back by an update. -/
theorem applyFdUpdate_lost (fdu : FdUpdate) (unknown : k.kernel.lookup fdu.fd = none)
    (lost : k.opened fdu.fd = true → Nibbles.get k.fdctl fdu.fd ≠ 0) :
    (k.applyFdUpdate fdu).1.kernel.lookup fdu.fd = none := by
  have fails : k.ctl fdu (Nibbles.get k.fdctl fdu.fd) = none := by
    cases opened : k.opened fdu.fd with
    | false => exact if_pos opened
    | true =>
        have some := lost opened
        simpa [ctl, unknown, opened] using fun _ => some
  rcases applyFdUpdate_cases k fdu with ⟨_, steady⟩ | ⟨_, steady⟩ | ⟨done, _⟩
  · exact steady.lookup.trans unknown
  · exact steady.lookup.trans unknown
  · exact absurd fails done

theorem Kept.closeFile (kept : k.Kept) (n : Nat) : (k.closeFile n).Kept := by
  intro fd m ep registered
  by_cases same : fd = n
  · subst same
    rw [Epoll.closeFile, AList.lookup_erase] at registered
    contradiction
  · rw [Epoll.closeFile, AList.lookup_erase_ne same] at registered
    obtain ⟨opened, rest⟩ := kept fd m ep registered
    exact ⟨(Function.update_of_ne same ..).trans opened, rest⟩

theorem Kept.shuts (kept : k.Kept) (shuts : Shuts k k') : k'.Kept := by
  obtain rfl | ⟨n, rfl⟩ := shuts
  · exact kept
  · exact kept.closeFile n

theorem Kept.openFile (kept : k.Kept) (n : Nat) : (k.openFile n).Kept := by
  intro fd m ep registered
  obtain ⟨opened, rest⟩ := kept fd m ep registered
  refine ⟨?_, rest⟩
  by_cases same : fd = n
  · subst same
    exact Function.update_self ..
  · exact (Function.update_of_ne same ..).trans opened

theorem Kept.applyFdUpdate (kept : k.Kept) (promoted : fdu.mask ≠ 0 → userEpoch ≤ fdu.epoch) :
    (k.applyFdUpdate fdu).1.Kept := by
  intro fd m ep registered
  rw [applyFdUpdate_opened]
  have steadily : Steady k (k.applyFdUpdate fdu).1 fd → k.opened fd = true ∧
      Nibbles.get (k.applyFdUpdate fdu).1.fdctl fd = m ∧ m ≠ 0 ∧ userEpoch ≤ ep := by
    intro steady
    obtain ⟨opened, copied, rest⟩ := kept fd m ep (steady.lookup ▸ registered)
    exact ⟨opened, steady.nibble.trans copied, rest⟩
  by_cases mine : fd = fdu.fd
  · subst mine
    rcases applyFdUpdate_cases k fdu with ⟨_, steady⟩ | ⟨_, steady⟩ | ⟨_, opened, _, nibble, lookup⟩
    · exact steadily steady
    · exact steadily steady
    · rw [lookup] at registered
      split at registered
      · contradiction
      · rename_i some
        cases Option.some.inj registered
        exact ⟨opened, nibble, some, promoted some⟩
  · exact steadily (applyFdUpdate_steady k mine)

end Epoll
end Cotamer.Fd

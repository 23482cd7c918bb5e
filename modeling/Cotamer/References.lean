import Mathlib.Algebra.BigOperators.Group.Finset.Basic
import Mathlib.Algebra.Order.BigOperators.Group.Finset

/-! Reference counts. A counter is right when it is the sum of what its holders
have; there may be infinitely many possible holders, but only finitely many have
a reference. -/
namespace Cotamer.References
open Finset

variable {H : Type} {held held' : H → Nat} {r : Nat}

def Counts (held : H → Nat) (r : Nat) : Prop :=
  ∃ F : Finset H, (∀ h, h ∉ F → held h = 0) ∧ ∑ h ∈ F, held h = r

theorem Counts.congr (counts : Counts held r) (same : ∀ h, held' h = held h) : Counts held' r := by
  rwa [show held' = held from funext same]

theorem counts_zero : Counts (fun _ : H => 0) 0 := ⟨∅, fun _ _ => rfl, rfl⟩

theorem Counts.holder (counts : Counts held r) (h : H) : held h ≤ r := by
  obtain ⟨F, outside, sum⟩ := counts
  by_cases member : h ∈ F
  · exact sum ▸ single_le_sum (fun _ _ => Nat.zero_le _) member
  · exact (outside h member).trans_le (Nat.zero_le r)

/-- The counter is zero exactly when nobody has a reference. -/
theorem Counts.eq_zero (counts : Counts held r) : r = 0 ↔ ∀ h, held h = 0 := by
  constructor
  · rintro rfl h
    exact Nat.le_zero.mp (counts.holder h)
  · intro none
    obtain ⟨F, _, sum⟩ := counts
    exact sum.symm.trans (sum_eq_zero fun h _ => none h)

variable [DecidableEq H]

/-- The holders that matter may be taken to include any given one. -/
theorem Counts.focus (counts : Counts held r) (h : H) : ∃ F : Finset H, h ∉ F ∧
    (∀ x, x ≠ h → x ∉ F → held x = 0) ∧ held h + ∑ x ∈ F, held x = r := by
  obtain ⟨F, outside, sum⟩ := counts
  refine ⟨F.erase h, notMem_erase h F, fun x ne absent => ?_, ?_⟩
  · exact outside x fun member => absent (mem_erase.mpr ⟨ne, member⟩)
  · by_cases member : h ∈ F
    · rwa [add_sum_erase F held member]
    · rwa [erase_eq_of_notMem member, outside h member, Nat.zero_add]

theorem Counts.of_focus (h : H) (F : Finset H) (apart : h ∉ F)
    (outside : ∀ x, x ≠ h → x ∉ F → held x = 0) (sum : held h + ∑ x ∈ F, held x = r) :
    Counts held r := by
  refine ⟨insert h F, fun x absent => ?_, ?_⟩
  · rw [mem_insert, not_or] at absent
    exact outside x absent.1 absent.2
  · rwa [sum_insert apart]

/-- The counter moves with what one holder has. -/
theorem Counts.change (counts : Counts held r) (h : H) (others : ∀ x, x ≠ h → held' x = held x)
    (moved : r' + held h = r + held' h) : Counts held' r' := by
  obtain ⟨F, apart, outside, sum⟩ := counts.focus h
  have rest : ∑ x ∈ F, held' x = ∑ x ∈ F, held x := by
    apply sum_congr rfl
    intro x inside
    apply others
    rintro rfl
    exact apart inside
  apply Counts.of_focus h F apart
  · intro x ne absent
    exact (others x ne).trans (outside x ne absent)
  · omega

/-- One holder takes `k` more references, and the counter goes up by `k`. -/
theorem Counts.gain (counts : Counts held r) (h : H) (others : ∀ x, x ≠ h → held' x = held x)
    (more : held' h = held h + k) : Counts held' (r + k) :=
  counts.change h others (by omega)

/-- One holder gives up `k` references, and the counter goes down by `k`. -/
theorem Counts.lose (counts : Counts held r) (h : H) (others : ∀ x, x ≠ h → held' x = held x)
    (less : held' h + k = held h) : Counts held' (r - k) := by
  have bound := counts.holder h
  exact counts.change h others (by omega)

/-- One holder hands `k` references to another. -/
theorem Counts.move (counts : Counts held r) (h h' : H)
    (others : ∀ x, x ≠ h → x ≠ h' → held' x = held x) (apart : h ≠ h')
    (less : held' h + k = held h) (more : held' h' = held h' + k) : Counts held' r := by
  have bound : k ≤ r := (by omega : k ≤ held h).trans (counts.holder h)
  let middle : H → Nat := fun x => if x = h' then held x else held' x
  have lost : Counts middle (r - k) := by
    apply counts.lose h
    · intro x ne
      by_cases same : x = h'
      · simp [middle, same]
      · simpa [middle, same] using others x ne same
    · simpa [middle, apart] using less
  have gained : Counts held' (r - k + k) := by
    apply lost.gain h'
    · intro x ne
      simp [middle, ne]
    · simpa [middle] using more
  rwa [Nat.sub_add_cancel bound] at gained

end Cotamer.References

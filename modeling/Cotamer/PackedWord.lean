import Mathlib.Data.Nat.Bitwise
import Mathlib.Tactic.Ring

/-! Machine words that pack a small flag field below a counter. A word built
by `pack` holds `low < 2 ^ b` in its lowest `b` bits and `high` above them; the
lemmas read and update the two fields with the masks and sums C code uses. -/
namespace Cotamer.PackedWord

/-- `high` above a field of `b` low bits. -/
def pack (w b high low : Nat) : BitVec w := BitVec.ofNat w (2 ^ b * high + low)

variable {w b high low : Nat}

private theorem nat_and_low (high : Nat) (small : low < 2 ^ b) (mask : k < 2 ^ b) :
    (2 ^ b * high + low) &&& k = low &&& k := by
  have bound : ((2 ^ b * high + low) &&& k) < 2 ^ b := lt_of_le_of_lt Nat.and_le_right mask
  rw [← Nat.mod_eq_of_lt bound, Nat.and_mod_two_pow, Nat.mul_add_mod, Nat.mod_eq_of_lt small,
    Nat.mod_eq_of_lt mask]

/-- A mask of the low field reads that field alone. -/
theorem pack_and (small : low < 2 ^ b) (mask : k < 2 ^ b) :
    pack w b high low &&& BitVec.ofNat w k = BitVec.ofNat w (low &&& k) := by
  rw [← nat_and_low high small mask]
  apply BitVec.eq_of_toNat_eq
  simp only [pack, BitVec.toNat_and, BitVec.toNat_ofNat, Nat.and_mod_two_pow]

theorem and_not_eq_sub (x k : BitVec w) : x &&& ~~~k = x - (x &&& k) := by
  have disjoint : (x &&& k) &&& (x &&& ~~~k) = 0#w := by
    ext i
    simp only [BitVec.getElem_and, BitVec.getElem_not, BitVec.getElem_zero]
    cases x[i] <;> cases k[i] <;> rfl
  have parts : (x &&& k) + (x &&& ~~~k) = x := by
    rw [BitVec.add_eq_or_of_and_eq_zero _ _ disjoint]
    ext i
    simp only [BitVec.getElem_or, BitVec.getElem_and, BitVec.getElem_not]
    cases x[i] <;> cases k[i] <;> rfl
  rw [BitVec.eq_sub_iff_add_eq, BitVec.add_comm]
  exact parts

theorem pack_add (high low more : Nat) :
    pack w b high low + BitVec.ofNat w more = pack w b high (low + more) := by
  simp only [pack, ← BitVec.ofNat_add, Nat.add_assoc]

/-- Clearing a mask of the low field leaves the counter and the other bits. -/
theorem pack_and_not (small : low < 2 ^ b) (mask : k < 2 ^ b) :
    pack w b high low &&& ~~~BitVec.ofNat w k = pack w b high (low - (low &&& k)) := by
  rw [and_not_eq_sub, pack_and small mask, BitVec.sub_eq_iff_eq_add, pack_add,
    Nat.sub_add_cancel Nat.and_le_left]

end Cotamer.PackedWord

import Mathlib.Data.List.Basic

/-! A table of four-bit fields, sixteen to a 64-bit word. The table grows on demand;
fields past its end are zero. -/
namespace Cotamer.Nibbles

variable {ws : List (BitVec 64)} {i j : Nat}

/-- Where a field is in its word. -/
def shift (i : Nat) : Nat := i % 16 * 4

/-- `resize`, to have room for a field. -/
def ensure (ws : List (BitVec 64)) (i : Nat) : List (BitVec 64) :=
  ws ++ List.replicate (i / 16 + 1 - ws.length) 0

def get (ws : List (BitVec 64)) (i : Nat) : BitVec 4 :=
  (ws.getD (i / 16) 0 >>> shift i).setWidth 4

/-- Flips bits of one field. -/
def flip (ws : List (BitVec 64)) (i : Nat) (x : BitVec 4) : List (BitVec 64) :=
  ws.set (i / 16) (ws.getD (i / 16) 0 ^^^ (x.setWidth 64 <<< shift i))

theorem flipped_self (w : BitVec 64) (x : BitVec 4) (i : Nat) :
    ((w ^^^ (x.setWidth 64 <<< shift i)) >>> shift i).setWidth 4 =
      (w >>> shift i).setWidth 4 ^^^ x := by
  have room : shift i ≤ 60 := by
    unfold shift
    omega
  ext k small
  simp only [BitVec.getElem_setWidth, BitVec.getLsbD_ushiftRight, BitVec.getLsbD_xor,
    BitVec.getLsbD_shiftLeft, BitVec.getElem_xor, BitVec.getLsbD_setWidth]
  have inside : shift i + k < 64 := by omega
  have above : ¬shift i + k < shift i := by omega
  simp [inside, show k < 64 from by omega, BitVec.getLsbD_eq_getElem small]

theorem flipped_ne (w : BitVec 64) (x : BitVec 4) (other : i % 16 ≠ j % 16) :
    ((w ^^^ (x.setWidth 64 <<< shift i)) >>> shift j).setWidth 4 = (w >>> shift j).setWidth 4 := by
  ext k small
  simp only [BitVec.getElem_setWidth, BitVec.getLsbD_ushiftRight, BitVec.getLsbD_xor,
    BitVec.getLsbD_shiftLeft, BitVec.getLsbD_setWidth]
  by_cases below : shift j + k < shift i
  · simp [below]
  · have above : 4 ≤ shift j + k - shift i := by
      unfold shift at below ⊢
      omega
    simp [BitVec.getLsbD_of_ge x _ above]

theorem ensure_getD (ws : List (BitVec 64)) (i k : Nat) : (ensure ws i).getD k 0 = ws.getD k 0 := by
  simp only [ensure, List.getD_eq_getElem?_getD, List.getElem?_append]
  split
  · rfl
  · rename_i past
    rw [List.getElem?_eq_none (Nat.le_of_not_lt past), List.getElem?_replicate]
    split <;> rfl

theorem get_ensure (ws : List (BitVec 64)) (i j : Nat) : get (ensure ws i) j = get ws j := by
  rw [get, ensure_getD]
  rfl

theorem length_ensure (ws : List (BitVec 64)) (i : Nat) : i / 16 < (ensure ws i).length := by
  simp only [ensure, List.length_append, List.length_replicate]
  omega

theorem getD_set_self (inside : i < ws.length) (w : BitVec 64) : (ws.set i w).getD i 0 = w := by
  simp [List.getD_eq_getElem?_getD, List.getElem?_set_self inside]

theorem getD_set_ne (other : i ≠ j) (w : BitVec 64) : (ws.set i w).getD j 0 = ws.getD j 0 := by
  simp [List.getD_eq_getElem?_getD, List.getElem?_set_ne other]

theorem get_flip_self (inside : i / 16 < ws.length) (x : BitVec 4) :
    get (flip ws i x) i = get ws i ^^^ x := by
  rw [get, flip, getD_set_self inside, flipped_self]
  rfl

theorem get_flip_ne (inside : i / 16 < ws.length) (other : i ≠ j) (x : BitVec 4) :
    get (flip ws i x) j = get ws j := by
  by_cases word : i / 16 = j / 16
  · rw [get, flip, word, getD_set_self (word ▸ inside), flipped_ne _ _ (by omega)]
    rfl
  · rw [get, flip, getD_set_ne word]
    rfl

/-- Flipping the bits in which a field differs from a value writes the value. -/
theorem get_write_self (ws : List (BitVec 64)) (i : Nat) (x : BitVec 4) :
    get (flip (ensure ws i) i (get (ensure ws i) i ^^^ x)) i = x := by
  rw [get_flip_self (length_ensure ws i), ← BitVec.xor_assoc, BitVec.xor_self, BitVec.zero_xor]

theorem get_write_ne (other : i ≠ j) (x : BitVec 4) :
    get (flip (ensure ws i) i x) j = get ws j := by
  rw [get_flip_ne (length_ensure ws i) other, get_ensure]

end Cotamer.Nibbles

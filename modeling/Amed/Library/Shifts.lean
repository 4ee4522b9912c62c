import Mathlib.Tactic.Ring

/-!
# Shifts inside a word

A shift whose amount is negative, or not below the width of the word, has no value. A rotation
made of two opposite shifts has one where both amounts are inside the word.
-/

namespace Amed.Shifts

variable {w : Nat}

/-- The amounts by which a word of `w` bits may be shifted. -/
def Inside (w : Nat) (n : Int) : Prop := 0 ≤ n ∧ n < w

instance (w : Nat) (n : Int) : Decidable (Inside w n) := inferInstanceAs (Decidable (_ ∧ _))

def shiftLeft (x : BitVec w) (n : Int) : Option (BitVec w) :=
  if Inside w n then some (x <<< n.toNat) else none

def shiftRight (x : BitVec w) (n : Int) : Option (BitVec w) :=
  if Inside w n then some (x >>> n.toNat) else none

theorem shiftLeft_of_lt (x : BitVec w) {n : Nat} (h : n < w) :
    shiftLeft x n = some (x <<< n) :=
  if_pos ⟨Int.natCast_nonneg n, Int.ofNat_lt.mpr h⟩

theorem shiftRight_of_lt (x : BitVec w) {n : Nat} (h : n < w) :
    shiftRight x n = some (x >>> n) :=
  if_pos ⟨Int.natCast_nonneg n, Int.ofNat_lt.mpr h⟩

/-- No word is shifted by its own width. -/
theorem shiftLeft_width (x : BitVec w) : shiftLeft x w = none :=
  if_neg fun h => Int.lt_irrefl _ h.2

/-- The ones of a word moved down to the lowest `count` bits. -/
theorem allOnes_ushiftRight {count : Nat} (h : count ≤ w) :
    BitVec.allOnes w >>> (w - count) = (BitVec.allOnes count).setWidth w := by
  apply BitVec.eq_of_getLsbD_eq
  intro i hi
  rw [BitVec.getLsbD_ushiftRight, BitVec.getLsbD_allOnes, BitVec.getLsbD_setWidth,
    BitVec.getLsbD_allOnes, decide_eq_true hi, Bool.true_and, decide_eq_decide]
  omega

/-- Two opposite shifts that make up the width rotate the word. -/
theorem or_shifts_eq_rotateRight (x : BitVec w) {r : Nat} (h : r < w) :
    x >>> r ||| x <<< (w - r) = x.rotateRight r := by
  rw [BitVec.rotateRight_def, Nat.mod_eq_of_lt h]

theorem rotateRight_zero (x : BitVec w) : x.rotateRight 0 = x := by
  rw [BitVec.rotateRight_def, Nat.zero_mod, Nat.sub_zero, BitVec.ushiftRight_zero,
    BitVec.shiftLeft_eq_zero (Nat.le_refl w), BitVec.or_zero]

/-- A word of `e` bits loses nothing by a cut to `e` bits. -/
theorem setWidth_setWidth {x : BitVec w} {e : Nat} (hx : x.toNat < 2 ^ e) :
    (x.setWidth e).setWidth w = x := by
  apply BitVec.eq_of_toNat_eq
  rw [BitVec.toNat_setWidth, BitVec.toNat_setWidth, Nat.mod_eq_of_lt hx, Nat.mod_eq_of_lt x.isLt]

/-- Two opposite shifts that make up `e`, cut to `e` bits, rotate the lowest `e` bits of the
word. -/
theorem or_shifts_and_eq_rotateRight {x : BitVec w} {e r : Nat} (hx : x.toNat < 2 ^ e)
    (hr : r < e) :
    (x >>> r ||| x <<< (e - r)) &&& (BitVec.allOnes e).setWidth w =
      ((x.setWidth e).rotateRight r).setWidth w := by
  apply BitVec.eq_of_getLsbD_eq
  intro i hi
  rw [BitVec.getLsbD_and, BitVec.getLsbD_or, BitVec.getLsbD_ushiftRight,
    BitVec.getLsbD_shiftLeft, BitVec.getLsbD_setWidth, BitVec.getLsbD_allOnes,
    BitVec.getLsbD_setWidth, BitVec.getLsbD_rotateRight_of_lt hr, BitVec.getLsbD_setWidth,
    BitVec.getLsbD_setWidth, decide_eq_true hi, Bool.true_and, Bool.true_and, Bool.true_and]
  by_cases hlow : i < e - r
  · -- a bit that the right shift brings down
    simp [hlow, (by omega : i < e), (by omega : r + i < e)]
  · -- a bit that comes in from the left, or one above the rotated ones
    have hhigh : x.getLsbD (r + i) = false :=
      Nat.testBit_lt_two_pow (Nat.lt_of_lt_of_le hx (Nat.pow_le_pow_right Nat.two_pos (by omega)))
    by_cases hi' : i < e
    · simp [hlow, hhigh, hi', (by omega : i - (e - r) < e)]
    · simp [hlow, hi']

end Amed.Shifts

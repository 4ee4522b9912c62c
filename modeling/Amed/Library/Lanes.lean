import Mathlib.Tactic.Ring

/-!
# Lanes

A vector that holds one element in every lane, and the element read back from it.
-/

namespace Amed.Lanes

open BitVec

variable {w m n : Nat}

/-- A vector of `n` bits with the element in every lane. -/
def fill (n : Nat) (element : BitVec w) : BitVec n := (element.replicate (n / w)).setWidth n

theorem toNat_append_add (x : BitVec m) (y : BitVec n) :
    (x ++ y).toNat = x.toNat * 2 ^ n + y.toNat := by
  rw [toNat_append, ← Nat.shiftLeft_add_eq_or_of_lt y.isLt, Nat.shiftLeft_eq]

theorem toNat_replicate_succ (x : BitVec w) (n : Nat) :
    (x.replicate (n + 1)).toNat = x.toNat * 2 ^ (w * n) + (x.replicate n).toNat := by
  rw [replicate_succ, toNat_cast, toNat_append_add]

/-- The lowest lane is the element. -/
theorem setWidth_replicate (x : BitVec w) (hn : 0 < n) : (x.replicate n).setWidth w = x := by
  apply eq_of_getLsbD_eq
  intro i hi
  have hlt : i < w * n := lt_of_lt_of_le hi (Nat.le_mul_of_pos_right w hn)
  rw [getLsbD_setWidth, getLsbD_replicate, Nat.mod_eq_of_lt hi]
  simp [hi, hlt]

theorem setWidth_fill (x : BitVec w) (hw : 0 < w) (hle : w ≤ n) : (fill n x).setWidth w = x := by
  rw [fill, setWidth_setWidth_of_le _ hle, setWidth_replicate x (Nat.div_pos hle hw)]

/-- Filling a vector with its own lowest lane changes nothing where it was filled before. -/
theorem fill_setWidth_fill (x : BitVec w) (hw : 0 < w) (hle : w ≤ n) :
    fill n ((fill n x).setWidth w) = fill n x := by
  rw [setWidth_fill x hw hle]

/-- The number of a filled vector. -/
theorem toNat_fill (x : BitVec w) (hle : w * (n / w) ≤ n) :
    (fill n x).toNat = (x.replicate (n / w)).toNat := by
  rw [fill, toNat_setWidth]
  exact Nat.mod_eq_of_lt
    ((x.replicate (n / w)).isLt.trans_le (Nat.pow_le_pow_right (by decide) hle))

end Amed.Lanes

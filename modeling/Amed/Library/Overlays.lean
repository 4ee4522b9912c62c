import Amed.Library.Bytes
import Mathlib.Tactic.Ring

/-!
# Members that overlay each other

A member of a union read in parts: the members that lie inside it.
-/

namespace Amed.Bytes

theorem leNat_append (xs ys : List UInt8) :
    leNat (xs ++ ys) = leNat xs + 256 ^ xs.length * leNat ys := by
  induction xs with
  | nil => simp
  | cons x xs ih =>
      rw [List.cons_append, leNat_cons, leNat_cons, ih, List.length_cons, Nat.pow_succ]
      ring

namespace Store

/-- A member is its low part and its high part. -/
theorem read_add (p : Store) (offset m n : Nat) :
    p.read ⟨offset, m + n⟩ = p.read ⟨offset, m⟩ + 256 ^ m * p.read ⟨offset + m, n⟩ := by
  rw [read, slice_append, leNat_append, slice_length]
  rfl

/-- The low part of a member. -/
theorem read_low (p : Store) (offset m n : Nat) :
    p.read ⟨offset, m⟩ = p.read ⟨offset, m + n⟩ % 256 ^ m := by
  rw [read_add, Nat.add_mul_mod_self_left]
  exact (Nat.mod_eq_of_lt (p.read_lt ⟨offset, m⟩)).symm

/-- The high part of a member. -/
theorem read_high (p : Store) (offset m n : Nat) :
    p.read ⟨offset + m, n⟩ = p.read ⟨offset, m + n⟩ / 256 ^ m := by
  rw [read_add, Nat.add_mul_div_left _ _ (Nat.pow_pos (by decide)),
    Nat.div_eq_of_lt (p.read_lt ⟨offset, m⟩), Nat.zero_add]

end Store

end Amed.Bytes

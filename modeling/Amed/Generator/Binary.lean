import Mathlib.Data.Nat.Size
import Amed.Library.BitFields

/-!
# Binary utilities of the generator

Masks of bit ranges, binary patterns and bit counts.
-/

namespace Amed.Generator

open BitFields

/-- `get_mask_from_range`. -/
def getMaskFromRange (low high : Nat) : Nat :=
  (List.range (high + 1 - low)).foldl (fun mask i => mask ||| 1 <<< (low + i)) 0

/-- `get_mask_from_range( 0, size - 1 )`, whose range is empty for a size of 0. -/
def getMaskOfSize (size : Nat) : Nat := if size = 0 then 0 else getMaskFromRange 0 (size - 1)

/-- A character of a binary pattern; `any` stands for every character that is no digit. -/
inductive PatternBit
  | zero | one | any
  deriving DecidableEq, Repr

/-- `/^[01]+$/` -/
def isFixed (bits : List PatternBit) : Bool := !bits.isEmpty && !bits.contains .any

/-- `get_bin_value`: the most significant bit first, an open bit counts as 0. -/
def getBinValue (bits : List PatternBit) : Nat :=
  bits.foldl (fun value bit => 2 * value + if bit = .one then 1 else 0) 0

/-- `get_mask_from_bin`. -/
def getMaskFromBin (bits : List PatternBit) : Nat :=
  bits.foldl (fun mask bit => 2 * mask + if bit = .any then 0 else 1) 0

/-- `get_bit_count` of a value without a second argument: the length of its binary form. -/
def getBitLength (value : Nat) : Nat := if value = 0 then 1 else value.size

/-- A bit of a mask that is put together by `|` comes from one of its parts. -/
theorem testBit_foldl_or (g : Nat → Nat) (n start i : Nat) :
    ((List.range n).foldl (fun mask j => mask ||| g j) start).testBit i = true ↔
      start.testBit i = true ∨ ∃ j < n, (g j).testBit i = true := by
  induction n with
  | zero => simp
  | succ n ih =>
      simp only [List.range_succ, List.foldl_append, List.foldl_cons, List.foldl_nil, Nat.testBit_or,
        Bool.or_eq_true, ih, Nat.lt_succ_iff_lt_or_eq]
      constructor
      · rintro ((h | ⟨j, hj, h⟩) | h)
        · exact Or.inl h
        · exact Or.inr ⟨j, Or.inl hj, h⟩
        · exact Or.inr ⟨n, Or.inr rfl, h⟩
      · rintro (h | ⟨j, hj | rfl, h⟩)
        · exact Or.inl (Or.inl h)
        · exact Or.inl (Or.inr ⟨j, hj, h⟩)
        · exact Or.inr h

/-- The mask of a range is that of the field with its position and width. -/
theorem getMaskFromRange_eq (f : Field) (h : 0 < f.width) :
    getMaskFromRange f.pos (f.pos + f.width - 1) = f.mask := by
  apply Nat.eq_of_testBit_eq
  intro i
  rw [Bool.eq_iff_iff, getMaskFromRange, testBit_foldl_or, Field.testBit_mask]
  simp only [Nat.zero_testBit, Bool.false_eq_true, false_or, Bool.and_eq_true, decide_eq_true_eq,
    Nat.one_shiftLeft, Nat.testBit_two_pow]
  constructor
  · rintro ⟨j, hj, hij⟩
    omega
  · rintro ⟨hlow, hhigh⟩
    exact ⟨i - f.pos, by omega, by omega⟩

theorem getMaskOfSize_eq (size : Nat) : getMaskOfSize size = 2 ^ size - 1 := by
  unfold getMaskOfSize
  split
  · rename_i h
    rw [h]
    rfl
  · rename_i h
    have hmask := getMaskFromRange_eq ⟨0, size⟩ (Nat.pos_of_ne_zero h)
    simpa [Field.mask] using hmask

end Amed.Generator

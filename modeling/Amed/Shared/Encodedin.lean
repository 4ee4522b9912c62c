import Amed.Library.Gather
import Amed.Library.Loop

/-!
# Encoded values of the ARM decoders

`get_masked_value` and `read_encodedin_value`: an encoded value is read piece by piece, each
piece the bits of the opcode under a mask. Both ARM decoders have the same two functions.

## Implementation notes

A row of the mask table is read up to its first empty piece. A shift of `result` by a whole
word only happens while it is 0, where every machine leaves 0.
-/

namespace Amed

open BitFields

/-- `amed_db_encodedin`. -/
structure DbEncodedin where
  mask : BitVec 32
  size : Nat
  deriving DecidableEq, Repr

/-- The variables of `get_masked_value`. -/
structure Masked where
  value : BitVec 32
  mask : BitVec 32
  result : BitVec 32
  pos : Nat

/-- The body of the loop of `get_masked_value`. -/
def Masked.shift (s : Masked) : Masked where
  value := s.value >>> 1
  mask := s.mask >>> 1
  result := if s.mask.getLsbD 0 then s.result ||| (1 &&& s.value) <<< s.pos else s.result
  pos := if s.mask.getLsbD 0 then s.pos + 1 else s.pos

/-- One pass of the loop of `get_masked_value`. -/
def maskedStep (s : Masked) : Option Masked :=
  if s.mask ≠ 0 ∧ s.value ≠ 0 then some s.shift else none

/-- `get_masked_value`. -/
def getMaskedValue (value mask : BitVec 32) : BitVec 32 :=
  (Loop.run maskedStep 32 ⟨value &&& mask, mask, 0, 0⟩).result

/-- The loop of `read_encodedin_value`. -/
def readPieces (opcode : BitVec 32) : List DbEncodedin → BitVec 32 → Nat → BitVec 32 × Nat
  | [], result, gsize => (result, gsize)
  | piece :: pieces, result, gsize =>
      if piece.size = 0 then (result, gsize)
      else
        readPieces opcode pieces (result <<< piece.size ||| getMaskedValue opcode piece.mask)
          (gsize + piece.size)

/-- `read_encodedin_value`: the value and its size. -/
def readEncodedinValue (pieces : List DbEncodedin) (opcode : BitVec 32) : BitVec 32 × Nat :=
  readPieces opcode pieces 0 0

/-! ## The loop of `get_masked_value` -/

theorem toNat_ushiftRight_one (x : BitVec 32) : (x >>> 1).toNat = x.toNat / 2 := by
  rw [BitVec.toNat_ushiftRight, Nat.shiftRight_eq_div_pow, Nat.pow_one]

theorem two_pow_mul_mod_two_le (pos v : Nat) : 2 ^ pos * (v % 2) ≤ 2 ^ pos := by
  have := Nat.mul_le_mul_left (2 ^ pos) (Nat.le_of_lt_succ (Nat.mod_lt v Nat.two_pos))
  rwa [Nat.mul_one] at this

/-- A bit put on top of a shorter value. -/
theorem or_bit_shiftLeft {x : BitVec 32} {pos : Nat} (hx : x.toNat < 2 ^ pos) (hpos : pos < 32)
    (value : BitVec 32) :
    (x ||| (1 &&& value) <<< pos).toNat = x.toNat + 2 ^ pos * (value.toNat % 2) := by
  have hbit : (1 &&& value).toNat = value.toNat % 2 := by
    rw [BitVec.toNat_and, Nat.and_comm]
    exact Nat.and_one_is_mod _
  have hpow : 2 ^ (pos + 1) ≤ 2 ^ 32 := Nat.pow_le_pow_right Nat.two_pos hpos
  have hsmall : 2 ^ pos * (value.toNat % 2) < 2 ^ 32 := by
    have := two_pow_mul_mod_two_le pos value.toNat
    rw [Nat.pow_succ] at hpow
    omega
  rw [BitVec.toNat_or, BitVec.toNat_shiftLeft, hbit, Nat.shiftLeft_eq, Nat.mul_comm,
    Nat.mod_eq_of_lt hsmall, Nat.or_comm, ← Nat.two_pow_add_eq_or_of_lt hx, Nat.add_comm]

/-- What the loop adds to the result: the remaining value, gathered, from `pos` on. -/
theorem masked_result (n : Nat) (s : Masked) (hmask : s.mask.toNat < 2 ^ n)
    (hpos : s.pos + n ≤ 32) (hresult : s.result.toNat < 2 ^ s.pos) :
    (Loop.run maskedStep n s).result.toNat =
      s.result.toNat + 2 ^ s.pos * gather n s.mask.toNat s.value.toNat := by
  induction n generalizing s with
  | zero => simp [gather]
  | succ n ih =>
      by_cases hgo : s.mask ≠ 0 ∧ s.value ≠ 0
      · have hstep : maskedStep s = some s.shift := if_pos hgo
        have hhalf : s.shift.mask.toNat < 2 ^ n := by
          show (s.mask >>> 1).toNat < 2 ^ n
          rw [toNat_ushiftRight_one]
          omega
        have hlow : s.mask.getLsbD 0 = decide (s.mask.toNat % 2 = 1) := by
          rw [BitVec.getLsbD, Nat.testBit_zero]
        rw [Loop.run_of_some hstep, gather]
        rcases Nat.mod_two_eq_zero_or_one s.mask.toNat with hm | hm
        · have hbit : ¬s.mask.getLsbD 0 = true := by rw [hlow, hm]; decide
          have hp : s.shift.pos = s.pos := if_neg hbit
          have hr : s.shift.result = s.result := if_neg hbit
          rw [ih s.shift hhalf (by omega) (by rw [hr, hp]; exact hresult), hr, hp,
            if_neg (by omega)]
          rw [Masked.shift, toNat_ushiftRight_one, toNat_ushiftRight_one]
        · have hbit : s.mask.getLsbD 0 = true := by rw [hlow, hm]; decide
          have hp : s.shift.pos = s.pos + 1 := if_pos hbit
          have hr : s.shift.result.toNat = s.result.toNat + 2 ^ s.pos * (s.value.toNat % 2) := by
            rw [← or_bit_shiftLeft hresult (by omega) s.value]
            exact congrArg BitVec.toNat (if_pos hbit)
          have hlt : s.shift.result.toNat < 2 ^ s.shift.pos := by
            have := two_pow_mul_mod_two_le s.pos s.value.toNat
            rw [hr, hp, Nat.pow_succ]
            omega
          rw [ih s.shift hhalf (by omega) hlt, hr, hp, if_pos hm, Nat.pow_succ]
          rw [Masked.shift, toNat_ushiftRight_one, toNat_ushiftRight_one]
          rw [Nat.mul_add, ← Nat.mul_assoc, Nat.add_assoc]
      · have hstop : maskedStep s = none := if_neg hgo
        rw [Loop.run_of_none hstop]
        rcases not_and_or.mp hgo with h | h
        · rw [not_not.mp h]
          simp [gather_zero_left]
        · rw [not_not.mp h]
          simp [gather_zero_right]

/-- `get_masked_value` pushes the bits under the mask together. -/
theorem toNat_getMaskedValue (value mask : BitVec 32) :
    (getMaskedValue value mask).toNat = gather 32 mask.toNat value.toNat := by
  rw [getMaskedValue, masked_result 32 _ mask.isLt (by simp) (by simp)]
  simp [gather_and]

/-- One pass of the loop if only the mask were tested. -/
def maskedStepAll (s : Masked) : Option Masked := if s.mask ≠ 0 then some s.shift else none

theorem maskedStepAll_of_mask {s : Masked} (h : s.mask ≠ 0) : maskedStepAll s = some s.shift :=
  if_pos h

theorem maskedStepAll_of_no_mask {s : Masked} (h : ¬s.mask ≠ 0) : maskedStepAll s = none :=
  if_neg h

/-- Once the value is used up nothing is added to the result. -/
theorem maskedStepAll_result_of_zero (n : Nat) {s : Masked} (h : s.value = 0) :
    (Loop.run maskedStepAll n s).result = s.result := by
  induction n generalizing s with
  | zero => rfl
  | succ n ih =>
      by_cases hmask : s.mask ≠ 0
      · have hvalue : s.shift.value = 0 := by simp [Masked.shift, h]
        have hresult : s.shift.result = s.result := by simp [Masked.shift, h]
        rw [Loop.run_of_some (maskedStepAll_of_mask hmask), ih hvalue, hresult]
      · rw [Loop.run_of_none (maskedStepAll_of_no_mask hmask)]

/-- The test of the value ends the loop early, and with the same result. -/
theorem maskedStep_result (n : Nat) (s : Masked) :
    (Loop.run maskedStep n s).result = (Loop.run maskedStepAll n s).result := by
  induction n generalizing s with
  | zero => rfl
  | succ n ih =>
      by_cases hvalue : s.value = 0
      · have hstop : maskedStep s = none := if_neg fun h => h.2 hvalue
        rw [Loop.run_of_none hstop, maskedStepAll_result_of_zero _ hvalue]
      · by_cases hmask : s.mask ≠ 0
        · have hstep : maskedStep s = some s.shift := if_pos ⟨hmask, hvalue⟩
          rw [Loop.run_of_some hstep, Loop.run_of_some (maskedStepAll_of_mask hmask), ih]
        · have hstop : maskedStep s = none := if_neg fun h => hmask h.1
          rw [Loop.run_of_none hstop, Loop.run_of_none (maskedStepAll_of_no_mask hmask)]

/-- The loop has ended by itself after as many passes as the mask has bits. -/
theorem maskedStep_exit (n : Nat) (s : Masked) (h : s.mask.toNat < 2 ^ n) :
    maskedStep (Loop.run maskedStep n s) = none := by
  refine Loop.run_exit (P := fun n s => s.mask.toNat < 2 ^ n) ?_ ?_ h
  · intro s hs
    have hmask : s.mask = 0 := BitVec.eq_of_toNat_eq (by simpa using hs)
    exact if_neg fun hgo => hgo.1 hmask
  · intro n s s' hs hstep
    obtain ⟨-, hstep⟩ := Option.ite_none_right_eq_some.mp hstep
    obtain rfl := Option.some.inj hstep
    show (s.mask >>> 1).toNat < 2 ^ n
    rw [toNat_ushiftRight_one]
    omega

/-- `result` is the parallel bit extract of `value` under `mask`. -/
structure ExtractsBits (value mask result : BitVec 32) : Prop where
  bit : ∀ j (h : j < (ones 32 mask.toNat).length),
    result.getLsbD j = value.getLsbD ((ones 32 mask.toNat)[j])
  rest : ∀ j, (ones 32 mask.toNat).length ≤ j → result.getLsbD j = false

/-- `get_masked_value` extracts the bits under the mask, and the test of the value in its loop
leaves none of them out. -/
theorem getMaskedValue_extracts (value mask : BitVec 32) :
    ExtractsBits value mask (getMaskedValue value mask) ∧
      maskedStep (Loop.run maskedStep 32 ⟨value &&& mask, mask, 0, 0⟩) = none ∧
      getMaskedValue value mask =
        (Loop.run maskedStepAll 32 ⟨value &&& mask, mask, 0, 0⟩).result := by
  have hbits (j : Nat) : (getMaskedValue value mask).getLsbD j =
      ((ones 32 mask.toNat)[j]?).elim false value.toNat.testBit := by
    rw [BitVec.getLsbD, toNat_getMaskedValue, testBit_gather]
  refine ⟨⟨fun j h => ?_, fun j h => ?_⟩, maskedStep_exit 32 _ mask.isLt, maskedStep_result 32 _⟩
  · rw [hbits, List.getElem?_eq_getElem h]
    rfl
  · rw [hbits, List.getElem?_eq_none h]
    rfl

/-! ## The loop of `read_encodedin_value` -/

/-- A piece that reads fields one behind another. -/
structure ReadsFields (piece : DbEncodedin) (fs : List Field) : Prop where
  size_pos : 0 < piece.size
  size : piece.size = totalWidth fs
  reads : ∀ w, gather 32 piece.mask.toNat w = concat fs w

/-- Pieces up to the empty one read the fields of all of them, one behind another. -/
theorem readPieces_eq {pieces : List DbEncodedin} {groups : List (List Field)}
    (h : List.Forall₂ ReadsFields pieces groups) (rest : List DbEncodedin) (opcode : BitVec 32)
    (fs : List Field) (hwidth : totalWidth fs + totalWidth groups.flatten ≤ 32)
    (result : BitVec 32) (hresult : result.toNat = concat fs opcode.toNat) :
    (readPieces opcode (pieces ++ ⟨0, 0⟩ :: rest) result (totalWidth fs)).1.toNat =
        concat (fs ++ groups.flatten) opcode.toNat ∧
      (readPieces opcode (pieces ++ ⟨0, 0⟩ :: rest) result (totalWidth fs)).2 =
        totalWidth (fs ++ groups.flatten) := by
  induction h generalizing fs result with
  | nil => simp [readPieces, hresult]
  | @cons piece gs pieces groups hpiece _ ih =>
      have hflat : totalWidth fs + (totalWidth gs + totalWidth groups.flatten) ≤ 32 := by
        rwa [List.flatten_cons, totalWidth_append] at hwidth
      have hsize : piece.size = totalWidth gs := hpiece.size
      have hvalue : (result <<< piece.size ||| getMaskedValue opcode piece.mask).toNat =
          concat (fs ++ gs) opcode.toNat := by
        have hlt := concat_lt gs opcode.toNat
        have hfs := concat_lt fs opcode.toNat
        have hsmall : concat fs opcode.toNat * 2 ^ totalWidth gs < 2 ^ 32 := by
          have := Nat.mul_lt_mul_of_pos_right hfs (Nat.two_pow_pos (totalWidth gs))
          rw [← Nat.pow_add] at this
          exact Nat.lt_of_lt_of_le this (Nat.pow_le_pow_right Nat.two_pos (by omega))
        rw [BitVec.toNat_or, BitVec.toNat_shiftLeft, toNat_getMaskedValue, hpiece.reads, hsize,
          hresult, Nat.shiftLeft_eq, Nat.mod_eq_of_lt hsmall, Nat.mul_comm,
          ← Nat.two_pow_add_eq_or_of_lt hlt, concat_append, Nat.mul_comm]
      have hnext := ih (fs ++ gs) (by rw [totalWidth_append]; omega) _ hvalue
      have hpos := hpiece.size_pos
      rw [List.cons_append, readPieces, if_neg (by omega), hsize, ← totalWidth_append, ← hsize,
        List.flatten_cons, ← List.append_assoc]
      exact hnext

end Amed

import Amed.Library.Numerals
import Amed.Shared.Datatype
import Amed.X86.Printer

/-!
# Printed immediates

`print_imm_value` writes a sign and a numeral, each width with its own conversion. A 16-bit number
is passed as an `int`, so that one with its highest bit set is written with eight digits.
-/

namespace Amed.X86

open Bytes Printing

/-- The width of the integer datatypes that immediates have. -/
def integerWidth : Datatype → Option Nat
  | .s8 | .u8 | .i8 => some 8
  | .s16 | .u16 | .i16 => some 16
  | .s32 | .u32 | .i32 => some 32
  | .s64 | .u64 | .i64 => some 64
  | _ => none

/-- A number cut down to a datatype. -/
def truncate (datatype : Datatype) (w : Nat) (i : Int) : Int :=
  if isDatatypeSigned datatype then toSigned w (fromSigned w i) else fromSigned w i

/-- The number of a numeral behind its sign. -/
def signedNumber (sign : List Char) (n : Nat) : Int := if sign = [] then n else -n

/-- A sign and a numeral of the width stand for the value as the datatype holds it, and for the
value itself where it is one of the datatype. -/
structure ReadsBack (datatype : Datatype) (w : Nat) (value : Int) (sign numeral : List Char) :
    Prop where
  optional : sign = [] ∨ sign = ['-']
  reads : ∃ n, readNumeral numeral = some n ∧ n < 2 ^ w ∧
    truncate datatype w (signedNumber sign n) = truncate datatype w value ∧
      (truncate datatype w value = value → signedNumber sign n = value)

/-- Wherever the printer stands, it comes to the end of a text that reads back. -/
def PrintsFaithfully (datatype : Datatype) (value : Int) : Prop :=
  ∀ w, integerWidth datatype = some w → ∀ p : Printer, ∃ p' sign numeral,
    runAll (printImmValue value datatype) p = some p' ∧
      p'.pc = p.pc + (sign ++ numeral).length ∧
        readText p'.memory p'.pc = readText p.memory p.pc ++ (sign ++ numeral) ∧
          ReadsBack datatype w value sign numeral

/-! ## Numbers of a width -/

theorem cast_fromSigned (w : Nat) (i : Int) : (fromSigned w i : Int) = i % 2 ^ w := by
  have hpos : (0 : Int) < 2 ^ w := Int.pow_pos (by decide)
  exact Int.toNat_of_nonneg (Int.emod_nonneg i (Int.ne_of_gt hpos))

theorem fromSigned_cast (w : Nat) (i : Int) : fromSigned w (fromSigned w i) = fromSigned w i := by
  rw [fromSigned, cast_fromSigned, Int.emod_emod]
  rfl

/-- A number that is negated, cut down and negated again. -/
theorem fromSigned_neg (w : Nat) (i : Int) :
    fromSigned w (-(fromSigned w (-i) : Int)) = fromSigned w i := by
  have hdiv : -((-i) % 2 ^ w) = i + 2 ^ w * ((-i) / 2 ^ w) := by
    have hsplit := Int.mul_ediv_add_emod (-i) (2 ^ w)
    omega
  rw [fromSigned, cast_fromSigned, hdiv, Int.add_mul_emod_self_left]
  rfl

theorem truncate_congr (datatype : Datatype) {w : Nat} {i j : Int}
    (h : fromSigned w i = fromSigned w j) : truncate datatype w i = truncate datatype w j := by
  rw [truncate, truncate, h]

/-- A value of an unsigned or an untyped datatype. -/
theorem fromSigned_of_truncate_unsigned {datatype : Datatype} {w : Nat} {value : Int}
    (hsigned : isDatatypeSigned datatype = false) (h : truncate datatype w value = value) :
    (fromSigned w value : Int) = value := by
  rw [truncate, hsigned] at h
  exact h

theorem fromSigned_of_nonneg {w : Nat} {value : Int} (hvalue : 0 ≤ value)
    (h : toSigned w (fromSigned w value) = value) : (fromSigned w value : Int) = value := by
  have hlt := fromSigned_lt w value
  have hcast : ((2 ^ w : Nat) : Int) = 2 ^ w := by push_cast; rfl
  unfold toSigned at h
  split at h
  · exact h
  · omega

theorem fromSigned_of_neg {w : Nat} (hw : 0 < w) {value : Int} (hvalue : value < 0)
    (h : toSigned w (fromSigned w value) = value) : (fromSigned w (-value) : Int) = -value := by
  have hlow := (toSigned_bounds hw (fromSigned_lt w value)).1
  rw [h] at hlow
  have hhalf : (2 : Int) ^ (w - 1) < 2 ^ w := Int.pow_lt_pow_of_lt (by decide) (by omega)
  rw [cast_fromSigned]
  exact Int.emod_eq_of_lt (by omega) (by omega)

/-! ## The conversions -/

/-- The conversion writes the number that it is given, cut down to the width. -/
theorem readNumeral_formatImm {datatype : Datatype} {w : Nat} {printed : Int}
    (hw : integerWidth datatype = some w) (hhalf : w = 16 → fromSigned 16 printed < 2 ^ 15) :
    readNumeral (formatImm datatype printed).text = some (fromSigned w printed) := by
  cases datatype with
  | s8 | u8 | i8 =>
      cases hw
      exact readNumeral_decimal _
  | s16 | u16 | i16 =>
      cases hw
      have hpositive : toSigned 16 (fromSigned 16 printed) = fromSigned 16 printed :=
        if_pos (hhalf rfl)
      have hnumber : fromSigned 32 (toSigned 16 (fromSigned 16 printed)) =
          fromSigned 16 printed := by
        have hlt := fromSigned_lt 16 printed
        rw [hpositive, fromSigned]
        omega
      rw [← hnumber]
      exact readNumeral_hex 4 _
  | s32 | u32 | i32 =>
      cases hw
      exact readNumeral_hex 8 _
  | s64 | u64 | i64 =>
      cases hw
      exact readNumeral_hex 16 _
  | _ => cases hw

theorem integerWidth_pos {datatype : Datatype} {w : Nat} (hw : integerWidth datatype = some w) :
    0 < w := by
  cases datatype <;> cases hw <;> decide

/-- A minus is written before the negative values of signed datatypes. -/
theorem printsMinus_iff {datatype : Datatype} {w : Nat} (hw : integerWidth datatype = some w)
    (value : Int) :
    printsMinus datatype value = true ↔ isDatatypeSigned datatype = true ∧ value < 0 := by
  cases datatype with
  | s8 | s16 | s32 | s64 => simp [printsMinus, isDatatypeSigned]
  | u8 | u16 | u32 | u64 | i8 | i16 | i32 | i64 => simp [printsMinus, isDatatypeSigned]
  | _ => cases hw

/-- The sign and the number stand for the value. -/
theorem signedNumber_printed {datatype : Datatype} {w : Nat}
    (hw : integerWidth datatype = some w) (value : Int) :
    let number := signedNumber (textOf (printMinus datatype value))
      (fromSigned w (printedValue datatype value))
    truncate datatype w number = truncate datatype w value ∧
      (truncate datatype w value = value → number = value) := by
  have hminus := printsMinus_iff hw value
  cases hprints : printsMinus datatype value with
  | true =>
      obtain ⟨hsigned, hneg⟩ := hminus.mp hprints
      have htext : textOf (printMinus datatype value) = ['-'] := by rw [printMinus, hprints]; rfl
      have hprinted : printedValue datatype value = -value := by rw [printedValue, hprints]; rfl
      rw [htext, hprinted]
      refine ⟨truncate_congr datatype (fromSigned_neg w value), fun hvalue => ?_⟩
      rw [truncate, if_pos hsigned] at hvalue
      have hnumber := fromSigned_of_neg (integerWidth_pos hw) hneg hvalue
      change -(fromSigned w (-value) : Int) = value
      omega
  | false =>
      have htext : textOf (printMinus datatype value) = [] := by rw [printMinus, hprints]; rfl
      have hprinted : printedValue datatype value = value := by rw [printedValue, hprints]; rfl
      rw [htext, hprinted]
      refine ⟨truncate_congr datatype (fromSigned_cast w value), fun hvalue => ?_⟩
      change (fromSigned w value : Int) = value
      cases hsigned : isDatatypeSigned datatype with
      | false => exact fromSigned_of_truncate_unsigned hsigned hvalue
      | true =>
          have hnonneg : 0 ≤ value := by
            by_contra hneg
            rw [hminus.mpr ⟨hsigned, by omega⟩] at hprints
            cases hprints
          rw [truncate, if_pos hsigned] at hvalue
          exact fromSigned_of_nonneg hnonneg hvalue

/-- Every immediate prints faithfully, apart from 16-bit ones that are printed as a number with its
highest bit set. -/
theorem printsFaithfully_iff (datatype : Datatype) (value : BitVec 64) :
    PrintsFaithfully datatype value.toInt ↔ HalfPrints datatype value.toInt := by
  generalize value.toInt = value
  constructor
  · intro h
    cases hw : integerWidth datatype with
    | none =>
        intro hhalf
        rcases hhalf with rfl | rfl | rfl <;> cases hw
    | some w =>
        obtain ⟨p', _, _, hrun, -⟩ := h w hw ⟨0, fun _ => ' '⟩
        have hsome : (runAll (printImmValue value datatype) ⟨0, fun _ => ' '⟩).isSome = true := by
          rw [hrun]
          rfl
        exact printImmValue_fits.mp (runAll_isSome.mp hsome)
  · intro h w hw p
    have hsome := (runAll_isSome (p := p)).mpr (printImmValue_fits.mpr h)
    obtain ⟨p', hrun⟩ := Option.isSome_iff_exists.mp hsome
    obtain ⟨hpc, htext⟩ := runAll_text hrun
    have hops : textOf (printImmValue value datatype) = textOf (printMinus datatype value) ++
        (formatImm datatype (printedValue datatype value)).text := by
      rw [printImmValue, textOf_append, textOf_cons]
      exact congrArg _ (List.append_nil _)
    rw [hops] at hpc htext
    obtain ⟨hnumber, hexact⟩ := signedNumber_printed hw value
    refine ⟨p', _, _, hrun, hpc, htext, ?_, _, readNumeral_formatImm hw ?_, fromSigned_lt w _,
      hnumber, hexact⟩
    · rw [printMinus]
      split
      · exact .inr rfl
      · exact .inl rfl
    · rintro rfl
      apply h
      cases datatype with
      | s16 => exact .inl rfl
      | u16 => exact .inr (.inl rfl)
      | i16 => exact .inr (.inr rfl)
      | _ => cases hw

/-- An unsigned 16-bit immediate with its highest bit set: its numeral does not fit. -/
theorem not_printsFaithfully_half : ¬ PrintsFaithfully .u16 (0x8000 : BitVec 64).toInt := by
  intro h
  obtain ⟨p', _, _, hrun, -⟩ := h 16 rfl ⟨0, fun _ => ' '⟩
  have hnone : runAll (printImmValue (0x8000 : BitVec 64).toInt .u16) ⟨0, fun _ => ' '⟩ = none := by
    decide +kernel
  rw [hnone] at hrun
  cases hrun

end Amed.X86

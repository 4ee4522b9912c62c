import Amed.Shared.Arm
import Amed.Shared.Printer

/-!
# What the ARM printers share

The two ARM printers have the same functions for an immediate, an index and the loop over the
arguments.

## Implementation notes

The text of a floating-point number is a parameter: the conversion `%f` writes no null character.
-/

namespace Amed.Arm

open Bytes Printing

/-- The conversion `%f` of the bits of a double. -/
structure FloatText where
  text : Nat → List Char
  no_null : ∀ bits, Char.ofNat 0 ∉ text bits

/-- The names of the shared enumerations, and the conversion of floating-point numbers. -/
structure Names extends toShared : Amed.Names where
  float : FloatText

/-! ## Parts -/

/-- `print_index`, with the number of characters for the index. -/
def printIndex (max index : Nat) : List Op :=
  [.put '[', .format max (decimal (index % 2 ^ 8)), .put ']']

/-- The conversion of `print_imm` for an integer. -/
def formatImm (datatype : Datatype) (value : Int) : Op :=
  match datatype with
  | .s8 | .u8 | .i8 => .format 8 (decimal (fromSigned 8 value))
  | .s16 | .u16 | .i16 => .format 8 (decimal (fromSigned 16 value))
  | .s32 | .u32 | .i32 => .format 16 ("0x".toList ++ hex 8 (fromSigned 32 value))
  | _ => .format 32 ("0x".toList ++ hex 16 (fromSigned 64 value))

/-- `print_imm` of a value, given by its bits. -/
def printImm (float : FloatText) (bits : Nat) (datatype : Datatype) : List Op :=
  match datatype with
  | .f16 | .f32 | .f64 => [.format 19 (float.text bits)]
  | _ =>
      let value := toSigned 64 bits
      printMinus datatype value ++ [formatImm datatype (printedValue datatype value)]

/-- The loop over the arguments of an instruction. -/
def printArgs (f : Formatter) (insn : Insn) (printArg : Argument → List Op) : List Op :=
  (List.range insn.argumentCount).flatMap fun i => f.separator i ++ printArg (insn.arguments i)

/-- The loop over the registers of a list. -/
def printRegisters (count : Nat) (printRegister : Nat → List Op) : List Op :=
  (List.range count).flatMap fun i =>
    printRegister i ++ if i + 1 ≠ count then [.put ',', .put ' '] else []

/-! ## When they fit -/

/-- A floating-point number has at most 18 characters. -/
def ImmPrints (float : FloatText) (bits : Nat) (datatype : Datatype) : Prop :=
  datatype = .f16 ∨ datatype = .f32 ∨ datatype = .f64 → (float.text bits).length < 19

/-- `format_imm` formats an integer, for which the working buffer has room in every format. -/
theorem formatImm_fits (datatype : Datatype) (value : Int) : (formatImm datatype value).Fits := by
  have hbyte : (decimal (fromSigned 8 value)).length < 8 :=
    Nat.lt_succ_of_le ((decimal_length_le (by decide)).mpr
      ((fromSigned_lt 8 value).trans (by decide)))
  have hhalf : (decimal (fromSigned 16 value)).length < 8 :=
    Nat.lt_succ_of_le ((decimal_length_le (by decide)).mpr
      ((fromSigned_lt 16 value).trans (by decide)))
  have hword : ("0x".toList ++ hex 8 (fromSigned 32 value)).length < 16 := by
    have hlength := (@hex_length_le 8 (fromSigned 32 value) 8 (by decide)).mpr
      ⟨Nat.le_refl 8, fromSigned_lt 32 value⟩
    rw [List.length_append]
    exact Nat.lt_of_le_of_lt (Nat.add_le_add_left hlength 2) (by decide)
  have hquad : ("0x".toList ++ hex 16 (fromSigned 64 value)).length < 32 := by
    have hlength := (@hex_length_le 16 (fromSigned 64 value) 16 (by decide)).mpr
      ⟨Nat.le_refl 16, fromSigned_lt 64 value⟩
    rw [List.length_append]
    exact Nat.lt_of_le_of_lt (Nat.add_le_add_left hlength 2) (by decide)
  cases datatype with
  | s8 | u8 | i8 => exact hbyte
  | s16 | u16 | i16 => exact hhalf
  | s32 | u32 | i32 => exact hword
  | _ => exact hquad

/-- A floating-point immediate fits where its text does, and any other immediate fits. -/
theorem printImm_fits {float : FloatText} {bits : Nat} {datatype : Datatype} :
    AllFit (printImm float bits datatype) ↔ ImmPrints float bits datatype := by
  have hinteger (datatype : Datatype) (value : Int) :
      AllFit (printMinus datatype value ++ [formatImm datatype (printedValue datatype value)]) :=
    allFit_append.mpr ⟨printMinus_fits _ _, allFit_cons.mpr ⟨formatImm_fits _ _, allFit_nil⟩⟩
  cases datatype with
  | f16 | f32 | f64 => simp [printImm, ImmPrints, allFit_cons]
  | _ => exact iff_of_true (hinteger _ _) (by simp [ImmPrints])

/-- An index fits in the working buffer with its digits and a null character. -/
theorem printIndex_fits {max index : Nat} (h : 1 < max) :
    AllFit (printIndex max index) ↔ index % 2 ^ 8 < 10 ^ (max - 1) := by
  have hlength := @decimal_length_le (index % 2 ^ 8) (max - 1) (by omega)
  rw [printIndex, allFit_cons, allFit_cons, allFit_cons, format_fits, ← hlength]
  simp only [put_fits, allFit_nil, and_true, true_and]
  omega

/-- The arguments fit where each of them does; the separators between them always do. -/
theorem printArgs_fits {f : Formatter} {insn : Insn} {printArg : Argument → List Op} :
    AllFit (printArgs f insn printArg) ↔
      ∀ i < insn.argumentCount, AllFit (printArg (insn.arguments i)) := by
  rw [printArgs, allFit_flatMap]
  simp only [List.mem_range, allFit_append, f.separator_fits, true_and]

/-- A register list fits where each of its registers does. -/
theorem printRegisters_fits {count : Nat} {printRegister : Nat → List Op} :
    AllFit (printRegisters count printRegister) ↔ ∀ i < count, AllFit (printRegister i) := by
  have hcomma (i : Nat) : AllFit (if i + 1 ≠ count then [.put ',', .put ' '] else []) := by
    split <;> simp [allFit_cons]
  rw [printRegisters, allFit_flatMap]
  simp only [List.mem_range, allFit_append, hcomma, and_true]

/-! ## No null character is printed -/

/-- The bracketed index is made of digits and brackets. -/
theorem printIndex_clean (max index : Nat) : Clean (printIndex max index) := by
  refine put_clean (by decide) (clean_cons.mpr ⟨decimal_no_null _, ?_⟩)
  exact put_clean (by decide) clean_nil

/-- No text of an immediate has a null character in it. -/
theorem printImm_clean (float : FloatText) (bits : Nat) (datatype : Datatype) :
    Clean (printImm float bits datatype) := by
  have hhex (width n : Nat) : Char.ofNat 0 ∉ "0x".toList ++ hex width n := by
    rw [List.mem_append, not_or]
    exact ⟨by decide, hex_no_null width n⟩
  have hinteger (datatype : Datatype) (value : Int) :
      Clean (printMinus datatype value ++ [formatImm datatype (printedValue datatype value)]) := by
    refine clean_append.mpr ⟨printMinus_clean _ _, clean_singleton.mpr ?_⟩
    rw [formatImm.eq_def]
    split
    case h_7 | h_8 | h_9 | h_10 => exact hhex _ _
    all_goals exact decimal_no_null _
  cases datatype with
  | f16 | f32 | f64 => exact format_clean (float.no_null bits)
  | _ => exact hinteger _ _

/-- An instruction has no null character in it if none of its arguments has one. -/
theorem printArgs_clean {f : Formatter} {insn : Insn} {printArg : Argument → List Op}
    (h : ∀ a, Clean (printArg a)) : Clean (printArgs f insn printArg) :=
  clean_flatMap fun i _ => clean_append.mpr ⟨f.separator_clean i, h _⟩

theorem printRegisters_clean {count : Nat} {printRegister : Nat → List Op}
    (h : ∀ i, Clean (printRegister i)) : Clean (printRegisters count printRegister) :=
  clean_flatMap fun i _ => clean_append.mpr ⟨h i,
    clean_ite (put_clean (by decide) (put_clean (by decide) clean_nil)) clean_nil⟩

end Amed.Arm

import Amed.Library.Bytes
import Amed.Shared.Printer

/-!
# The x86 printer

`source/x86/printer.c`: the text of an instruction, with its prefixes, its mnemonic and the
arguments that are not suppressed.

## Implementation notes

A print function is the list of what it does with the pointer of the printer; the functions that
return false have printed what comes before. The negation of the smallest 64-bit value is its
positive counterpart, which prints the same bits.
-/

namespace Amed.X86

open Bytes Printing

/-- The names of the x86 enumerations. -/
structure Names extends Amed.Names where
  mnemonic : List (EnumName 19)
  register : List (EnumName 7)
  comparisonPredicate : List (EnumName 9)

/-! ## Parts -/

/-- The letters of the selectors from the highest one down; a selector above 3 stops them. -/
def swizzleLetters (a : Argument) : Nat → List Op
  | 0 => [.put '\x7d']
  | i + 1 =>
      match a.get (Cell.regSelector i) with
      | 0 => .put 'A' :: swizzleLetters a i
      | 1 => .put 'B' :: swizzleLetters a i
      | 2 => .put 'C' :: swizzleLetters a i
      | 3 => .put 'D' :: swizzleLetters a i
      | _ => []

def printRegSwizzle (a : Argument) : List Op := .put '\x7b' :: swizzleLetters a 4

def sizeName : Nat → Option (List Char)
  | 8 => some "BYTE".toList
  | 16 => some "WORD".toList
  | 32 => some "DWORD".toList
  | 64 => some "QWORD".toList
  | 128 => some "OWORD".toList
  | 256 => some "YWORD".toList
  | 512 => some "ZWORD".toList
  | _ => none

/-- `print_size` and the blank behind it. -/
def printSize (size : Nat) : List Op :=
  match sizeName size with
  | none => []
  | some text => [.format 10 text, .put ' ']

/-- The conversion of `print_imm_value`. -/
def formatImm (datatype : Datatype) (value : Int) : Op :=
  match datatype with
  | .s8 | .u8 | .i8 => .format 4 (decimal (fromSigned 8 value))
  | .s16 | .u16 | .i16 =>
      .format 8 ("0x".toList ++ hex 4 (fromSigned 32 (toSigned 16 (fromSigned 16 value))))
  | .s32 | .u32 | .i32 => .format 12 ("0x".toList ++ hex 8 (fromSigned 32 value))
  | _ => .format 20 ("0x".toList ++ hex 16 (fromSigned 64 value))

def printImmValue (value : Int) (datatype : Datatype) : List Op :=
  printMinus datatype value ++ [formatImm datatype (printedValue datatype value)]

def printBroadcasting (a : Argument) : List Op :=
  [.format 10 ("\x7b".toList ++ decimal (a.get Cell.memBroadcastingFrom) ++ "to".toList ++
    decimal (a.get Cell.memBroadcastingTo) ++ "\x7d".toList)]

def roundingName : Nat → List Char
  | 0 => "??".toList
  | 1 => "RN".toList
  | 2 => "RD".toList
  | 3 => "RU".toList
  | _ => "RZ".toList

/-- `print_rounding`; the last rounding is 4. -/
def printRounding (sae : Bool) (value : Nat) : List Op :=
  if 4 < value then []
  else
    [.put '\x7b', .format 4 (roundingName value)] ++
      (if sae then [.format 8 "-SAE".toList] else []) ++ [.put '\x7d']

def printSae (value : Bool) : List Op := if value then [.format 6 "\x7bSAE\x7d".toList] else []

def printEvh (value : Bool) : List Op := if value then [.format 6 "\x7bEH\x7d".toList] else []

def prefixName : PrefixFunctionality → Option (List Char)
  | .none => none
  | .rep => some "REP".toList
  | .repz => some "REPZ".toList
  | .repnz => some "REPNZ".toList
  | .xacquire => some "XACQUIRE".toList
  | .xrelease => some "XRELEASE".toList
  | .bnd => some "BND".toList

def printPrefixes (insn : Insn) : List Op :=
  (match prefixName insn.x86.prefixFunctionality with
    | none => []
    | some text => [.format 12 (text ++ " ".toList)]) ++
  (if insn.attributes.isAtomic then [.format 8 "LOCK ".toList] else [])

section Printer

variable (names : Names)

def printRegValue (value : Nat) : List Op := [.name names.register value]

/-! ## Arguments -/

def printArgReg (a : Argument) : List Op :=
  printRegValue names (a.get Cell.regValue) ++
    if a.attributes.zeroing then [.format 4 "\x7bZ\x7d".toList]
    else if a.attributes.merging then [.format 4 "\x7bM\x7d".toList]
    else if a.printer.printIndex then printRegSwizzle a
    else []

/-- The index register of a memory argument with its scale. -/
def printIndex (a : Argument) : List Op :=
  (if a.get Cell.memBase ≠ 0 then [.put '+'] else []) ++
    printRegValue names (a.get Cell.memRegoff) ++
      if a.printer.printShifter then [.put '*', .format 2 (decimal a.shifter.amount)] else []

/-- The displacement of a memory argument. -/
def printDisp (a : Argument) : List Op :=
  let disp := toSigned 64 (a.get Cell.memImmoffValue)
  (if (a.get Cell.memBase ≠ 0 ∨ a.get Cell.memRegoff ≠ 0) ∧ 0 ≤ disp then [.put '+'] else []) ++
    printImmValue disp (.ofCode (a.get Cell.memImmoffDatatype))

def printArgMem (a : Argument) : List Op :=
  (if a.printer.printSize then printSize a.size else []) ++
  (if a.printer.printSegment && a.get Cell.memSegment ≠ 0 then
    printRegValue names (a.get Cell.memSegment) ++ [.put ':']
  else []) ++
  [.put '['] ++
  (if a.get Cell.memBase ≠ 0 then printRegValue names (a.get Cell.memBase) else []) ++
  (if a.get Cell.memRegoff ≠ 0 then printIndex names a else []) ++
  (if a.get Cell.memImmoffDatatype ≠ 0 then printDisp a else []) ++
  [.put ']'] ++
  if a.get Cell.memVdatatype ≠ 0 then
    [.named names.datatype a.datatype.code 10 "\x7b".toList "\x7d".toList]
  else if a.printer.printBroadcasting && a.get Cell.memBroadcastingFrom ≠ 0 then
    printBroadcasting a
  else []

def printArgImm (a : Argument) : List Op :=
  printImmValue (toSigned 64 (a.get Cell.imm)) a.datatype

def printArgPtr (a : Argument) : List Op :=
  [.format 16 (hex 4 (a.get Cell.ptrSegment) ++ ":".toList ++
    hex 4 (a.get Cell.ptrOffsetValue % 2 ^ 32))]

def printArgEnum {n : Nat} (table : List (EnumName n)) (a : Argument) : List Op :=
  if a.attributes.isRepresentable then [.name table (a.get Cell.token)] else printArgImm a

/-- The cases of `amed_x86_print_insn`. A label has none. -/
def printArg (insn : Insn) (a : Argument) : List Op :=
  match a.type with
  | .register => printArgReg names a
  | .memory | .address => printArgMem names a
  | .immediate => printArgImm a
  | .ptr => printArgPtr a
  | .rounding => printRounding insn.attributes.isSuppressingAllExceptions (a.get Cell.token)
  | .sae => printSae (a.get Cell.token ≠ 0)
  | .evh => printEvh (a.get Cell.token ≠ 0)
  | .condition => printArgEnum names.comparisonPredicate a
  | _ => []

/-- One pass of the loop over the arguments. -/
def printPass (f : Formatter) (insn : Insn) (i : Nat) : List Op :=
  if (insn.arguments i).attributes.isSuppressed then []
  else f.separator i ++ printArg names insn (insn.arguments i)

/-- The loop over the arguments. -/
def printArgs (f : Formatter) (insn : Insn) : List Op :=
  (List.range insn.argumentCount).flatMap (printPass names f insn)

/-- What is printed before the arguments. -/
def printHead (insn : Insn) : List Op :=
  printPrefixes insn ++ [.name names.mnemonic insn.mnemonic]

def insnOps (f : Formatter) (insn : Insn) : List Op :=
  printHead names insn ++
    if insn.argumentCount = 0 then [] else .put f.afterMnem :: printArgs names f insn

/-- `amed_x86_print_insn`. -/
def printInsn (f : Formatter) (insn : Insn) (m : Memory) : Option (Int × Memory) :=
  print f.lowerCase (insnOps names f insn) m

end Printer

/-! ## When the pieces fit -/

/-- A 16-bit immediate is printed as a signed number of 32 bits, which has to have no sign. -/
def HalfPrints (datatype : Datatype) (value : Int) : Prop :=
  datatype = .s16 ∨ datatype = .u16 ∨ datatype = .i16 →
    fromSigned 16 (printedValue datatype value) < 2 ^ 15

/-- The numbers of a memory argument have names and fit. -/
structure MemPrints (names : Names) (a : Argument) : Prop where
  segment : a.printer.printSegment = true → a.get Cell.memSegment ≠ 0 →
    a.get Cell.memSegment < names.register.length
  base : a.get Cell.memBase ≠ 0 → a.get Cell.memBase < names.register.length
  regoff : a.get Cell.memRegoff ≠ 0 → a.get Cell.memRegoff < names.register.length
  amount : a.get Cell.memRegoff ≠ 0 → a.printer.printShifter = true → a.shifter.amount < 10
  disp : a.get Cell.memImmoffDatatype ≠ 0 →
    HalfPrints (.ofCode (a.get Cell.memImmoffDatatype)) (toSigned 64 (a.get Cell.memImmoffValue))
  vdatatype : a.get Cell.memVdatatype ≠ 0 → a.datatype.code < names.datatype.length
  broadcasting : a.get Cell.memVdatatype = 0 → a.printer.printBroadcasting = true →
    a.get Cell.memBroadcastingFrom ≠ 0 →
      a.get Cell.memBroadcastingFrom < 100 ∨ a.get Cell.memBroadcastingTo < 100

/-- What an argument has to be like for every text of it to fit. -/
def ArgumentPrints (names : Names) (a : Argument) : Prop :=
  match a.type with
  | .register => a.get Cell.regValue < names.register.length
  | .memory | .address => MemPrints names a
  | .immediate => HalfPrints a.datatype (toSigned 64 (a.get Cell.imm))
  | .condition =>
      if a.attributes.isRepresentable then
        a.get Cell.token < names.comparisonPredicate.length
      else HalfPrints a.datatype (toSigned 64 (a.get Cell.imm))
  | _ => True

structure InsnPrints (names : Names) (insn : Insn) : Prop where
  mnemonic : insn.mnemonic < names.mnemonic.length
  arguments : ∀ i < insn.argumentCount, (insn.arguments i).attributes.isSuppressed = false →
    ArgumentPrints names (insn.arguments i)

/-- A 16-bit number as one of 32 bits: short where it has no sign, and else with eight digits. -/
theorem half_fits {n : Nat} (h : n < 2 ^ 16) :
    ("0x".toList ++ hex 4 (fromSigned 32 (toSigned 16 n))).length < 8 ↔ n < 2 ^ 15 := by
  have hhead : "0x".toList.length = 2 := rfl
  have hlength := @hex_length_le 4 (fromSigned 32 (toSigned 16 n)) 5 (by decide)
  rw [List.length_append, hhead]
  have hvalue : fromSigned 32 (toSigned 16 n) < 16 ^ 5 ↔ n < 2 ^ 15 := by
    rw [fromSigned, toSigned]
    split <;> omega
  rw [← hvalue]
  omega

theorem formatImm_fits {datatype : Datatype} {value : Int} :
    (formatImm datatype (printedValue datatype value)).Fits ↔ HalfPrints datatype value := by
  generalize hprinted : printedValue datatype value = printed
  have hbyte : (decimal (fromSigned 8 printed)).length < 4 := by
    have hlt := fromSigned_lt 8 printed
    exact Nat.lt_succ_of_le ((decimal_length_le (by decide)).mpr (by omega))
  have hhalf := half_fits (fromSigned_lt 16 printed)
  have hword : ("0x".toList ++ hex 8 (fromSigned 32 printed)).length < 12 := by
    have hlength := (@hex_length_le 8 (fromSigned 32 printed) 8 (by decide)).mpr
      ⟨Nat.le_refl 8, fromSigned_lt 32 printed⟩
    rw [List.length_append]
    exact Nat.lt_succ_of_le (Nat.add_le_add (Nat.le_succ 2) hlength)
  have hquad : ("0x".toList ++ hex 16 (fromSigned 64 printed)).length < 20 := by
    have hlength := (@hex_length_le 16 (fromSigned 64 printed) 16 (by decide)).mpr
      ⟨Nat.le_refl 16, fromSigned_lt 64 printed⟩
    rw [List.length_append]
    exact Nat.lt_succ_of_le (Nat.add_le_add (Nat.le_succ 2) hlength)
  rw [HalfPrints, hprinted]
  cases datatype with
  | s8 | u8 | i8 => simpa [formatImm] using hbyte
  | s16 | u16 | i16 => simpa [formatImm] using hhalf
  | s32 | u32 | i32 => simpa [formatImm] using hword
  | _ => simpa [formatImm] using hquad

theorem printImmValue_fits {datatype : Datatype} {value : Int} :
    AllFit (printImmValue value datatype) ↔ HalfPrints datatype value := by
  rw [printImmValue, allFit_append, allFit_cons, formatImm_fits]
  simp [printMinus_fits]

theorem printSize_fits (size : Nat) : AllFit (printSize size) := by
  rw [printSize, sizeName.eq_def]
  split
  · exact allFit_nil
  · rename_i text h
    have hshort : text.length < 10 := by
      revert h
      split <;> simp
      all_goals
        rintro rfl
        decide
    simp [allFit_cons, hshort]

theorem printRegSwizzle_fits (a : Argument) : AllFit (printRegSwizzle a) := by
  have hletters : ∀ i, AllFit (swizzleLetters a i) := by
    intro i
    induction i with
    | zero => simp [swizzleLetters, allFit_cons]
    | succ i ih =>
        rw [swizzleLetters]
        split <;> simp [allFit_cons, ih]
  simp [printRegSwizzle, allFit_cons, hletters]

theorem printBroadcasting_fits {a : Argument} :
    AllFit (printBroadcasting a) ↔
      a.get Cell.memBroadcastingFrom < 100 ∨ a.get Cell.memBroadcastingTo < 100 := by
  have hfrom : a.get Cell.memBroadcastingFrom < 10 ^ 3 := (a.get_lt _).trans (by decide)
  have hto : a.get Cell.memBroadcastingTo < 10 ^ 3 := (a.get_lt _).trans (by decide)
  have hthree {n : Nat} (h : n < 10 ^ 3) : (decimal n).length ≤ 3 :=
    (decimal_length_le (by decide)).mpr h
  have htwo (n : Nat) : (decimal n).length ≤ 2 ↔ n < 10 ^ 2 := decimal_length_le (by decide)
  have hfrom' := hthree hfrom
  have hto' := hthree hto
  have htext : ("\x7b".toList ++ decimal (a.get Cell.memBroadcastingFrom) ++ "to".toList ++
      decimal (a.get Cell.memBroadcastingTo) ++ "\x7d".toList).length =
      4 + (decimal (a.get Cell.memBroadcastingFrom)).length +
        (decimal (a.get Cell.memBroadcastingTo)).length := by
    simp only [List.length_append]
    have hopen : "\x7b".toList.length = 1 := rfl
    have hmiddle : "to".toList.length = 2 := rfl
    have hclose : "\x7d".toList.length = 1 := rfl
    omega
  rw [printBroadcasting, allFit_cons, format_fits, htext]
  have hfromTwo := htwo (a.get Cell.memBroadcastingFrom)
  have htoTwo := htwo (a.get Cell.memBroadcastingTo)
  simp only [allFit_nil, and_true]
  omega

end Amed.X86

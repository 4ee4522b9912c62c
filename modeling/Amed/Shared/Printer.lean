import Amed.Library.Printing
import Amed.Shared.Types

/-!
# What the printers share

The formatter, the tables of names of the shared enumerations, and the parts of an immediate that
all printers print alike.

## Implementation notes

The tables of names are parameters: only the length that each enumeration gives for its names is
used, which the generator computes, and that no name is empty. A value that has no name fails the
assertion of its table.
-/

namespace Amed

open Bytes Printing

/-- `amed_formatter`. -/
structure Formatter where
  useTabAfterMnem : Bool
  useTabBetweenArguments : Bool
  lowerCase : Bool

/-- The names of the shared enumerations. -/
structure Names where
  datatype : List (EnumName 6)
  condition : List (EnumName 5)
  shift : List (EnumName 5)
  endian : List (EnumName 5)
  barrier : List (EnumName 6)
  cspace : List (EnumName 5)
  pspace : List (EnumName 5)

/-- A selector of a swizzled register. -/
def Cell.regSelector (i : Nat) : Cell := ⟨4 + i, 1⟩

/-- The datatype a payload byte stands for. -/
def Datatype.ofCode : Nat → Datatype
  | 0 => .none | 1 => .f16 | 2 => .bf16 | 3 => .f32 | 4 => .f64 | 5 => .f80 | 6 => .bcd80
  | 7 => .i8 | 8 => .i16 | 9 => .i32 | 10 => .i64 | 11 => .i128 | 12 => .i256
  | 13 => .s8 | 14 => .s16 | 15 => .s32 | 16 => .s64
  | 17 => .u8 | 18 => .u16 | 19 => .u32 | 20 => .u64 | 21 => .u128 | 22 => .u256
  | 23 => .p8 | 24 => .p64 | 25 => .ix | 26 => .sx | 27 => .ux
  | code => .other code

/-- The sign is printed before a negative value of a signed datatype. -/
def printsMinus (datatype : Datatype) (value : Int) : Bool :=
  match datatype with
  | .s8 | .s16 | .s32 | .s64 => value < 0
  | _ => false

/-- The value that is printed behind the sign. -/
def printedValue (datatype : Datatype) (value : Int) : Int :=
  if printsMinus datatype value then -value else value

def printMinus (datatype : Datatype) (value : Int) : List Op :=
  if printsMinus datatype value then [.put '-'] else []

/-- The character after the mnemonic. -/
def Formatter.afterMnem (f : Formatter) : Char := if f.useTabAfterMnem then '\t' else ' '

theorem Formatter.afterMnem_ne_null (f : Formatter) : f.afterMnem ≠ Char.ofNat 0 := by
  rw [afterMnem]
  split <;> decide

/-- The comma and the character between two arguments. -/
def Formatter.between (f : Formatter) : List Char :=
  [',', if f.useTabBetweenArguments then '\t' else ' ']

/-- The separator before every argument but the one with index 0. -/
def Formatter.separator (f : Formatter) (i : Nat) : List Op :=
  if i = 0 then [] else f.between.map .put

/-- A sign is one character, so it always fits. -/
theorem printMinus_fits (datatype : Datatype) (value : Int) :
    AllFit (printMinus datatype value) := by
  rw [printMinus]
  split
  · exact allFit_cons.mpr ⟨trivial, allFit_nil⟩
  · exact allFit_nil

theorem printMinus_clean (datatype : Datatype) (value : Int) :
    Clean (printMinus datatype value) := by
  rw [printMinus]
  split <;> simp [Clean, textOf, Op.text]

/-- The separators are put character by character, without a working buffer. -/
theorem Formatter.separator_fits (f : Formatter) (i : Nat) : AllFit (f.separator i) := by
  rw [separator]
  split
  · exact allFit_nil
  · exact allFit_cons.mpr ⟨trivial, allFit_cons.mpr ⟨trivial, allFit_nil⟩⟩

theorem Formatter.separator_clean (f : Formatter) (i : Nat) : Clean (f.separator i) := by
  rw [separator, between]
  split
  · exact clean_nil
  · split <;> simp [Clean, textOf, Op.text]

end Amed

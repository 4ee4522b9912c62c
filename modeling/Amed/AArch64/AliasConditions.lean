import Amed.AArch64.Outcome

/-!
# The conditions of aliases

The functions that `is_alias_condition_ok` calls on the fields of immediates, and its cases for
bit fields.
-/

namespace Amed.AArch64

/-- `MoveWidePreferred`. The remainder is that of C. -/
def moveWidePreferred (sf n : Bool) (imms immr : Nat) : Bool :=
  let s : Int := imms
  let r : Int := immr
  let width : Int := if sf then 64 else 32
  if if sf then !n else n || imms.testBit 5 then false
  else if imms < 16 then (-r).tmod 16 ≤ 15 - s
  else if width - 15 ≤ s then r.tmod 16 ≤ s - (width - 15)
  else false

/-- `BFXPreferred`. -/
def bfxPreferred (sf uns : Bool) (imms immr : Nat) : Bool :=
  if imms < immr then false
  else if imms % 32 = 31 && imms.testBit 5 = sf then false
  else if immr = 0 then
    if sf then !(uns && (imms = 7 || imms = 15 || imms = 31))
    else !(imms = 7 || imms = 15)
  else true

/-- The value of an 8-bit immediate that `SVEMoveMaskPreferred` looks for. -/
def byteImmediate (imm : BitVec 64) : Bool :=
  let sameWords := imm.extractLsb' 0 32 = imm.extractLsb' 32 32
  let sameHalfs := imm.extractLsb' 0 16 = imm.extractLsb' 16 16
  let word := imm.extractLsb' 0 32
  let half := imm.extractLsb' 0 16
  -- 'ffffffffffffffxy' or '00000000000000xy'
  (imm &&& 0xFFFFFFFFFFFFFF00 = 0 || imm &&& 0xFFFFFFFFFFFFFF00 = 0xFFFFFFFFFFFFFF00) ||
    -- 'ffffffxyffffffxy' or '000000xy000000xy'
    sameWords && (word &&& 0xFFFFFF00 = 0 || word &&& 0xFFFFFF00 = 0xFFFFFF00) ||
    -- 'ffxyffxyffxyffxy' or '00xy00xy00xy00xy'
    sameWords && sameHalfs && (half &&& 0xFF00 = 0 || half &&& 0xFF00 = 0xFF00) ||
    -- 'xyxyxyxyxyxyxyxy'
    sameWords && sameHalfs && imm.extractLsb' 0 8 = imm.extractLsb' 8 8

/-- The value of a shifted immediate that it looks for. -/
def halfImmediate (imm : BitVec 64) : Bool :=
  let sameWords := imm.extractLsb' 0 32 = imm.extractLsb' 32 32
  let sameHalfs := imm.extractLsb' 0 16 = imm.extractLsb' 16 16
  let word := imm.extractLsb' 0 32
  -- 'ffffffffffffxy00' or '000000000000xy00'
  (imm &&& 0xFFFFFFFFFFFF0000 = 0 || imm &&& 0xFFFFFFFFFFFF0000 = 0xFFFFFFFFFFFF0000) ||
    -- 'ffffxy00ffffxy00' or '0000xy000000xy00'
    sameWords && (word &&& 0xFFFFFF00 = 0 || word &&& 0xFFFFFF00 = 0xFFFFFF00) ||
    -- 'xy00xy00xy00xy00'
    sameWords && sameHalfs

/-- `SVEMoveMaskPreferred`. -/
def sveMoveMaskPreferred (imm13 : BitVec 32) : Bool :=
  match decodeLogimm imm13 0 with
  | none => false
  | some imm => !(if imm.extractLsb' 0 8 ≠ 0 then byteImmediate imm else halfImmediate imm)

/-! ## The generated conditions -/

/-- The fields of the immediates and the bit fields. -/
def fieldSf (opcode : BitVec 32) : Bool := opcode.toNat.testBit 31
def fieldOpc (opcode : BitVec 32) : Nat := opcode.toNat / 2 ^ 29 % 2 ^ 2
def fieldN (opcode : BitVec 32) : Bool := opcode.toNat.testBit 22
def fieldImmr (opcode : BitVec 32) : Nat := opcode.toNat / 2 ^ 16 % 2 ^ 6
def fieldImms (opcode : BitVec 32) : Nat := opcode.toNat / 2 ^ 10 % 2 ^ 6

/-- `is_alias_condition_ok`, with the cases of the immediates and the bit fields; `other` are the
remaining ones. -/
def isAliasConditionOk (other : Nat → BitVec 32 → Bool) (index : Nat) (opcode : BitVec 32) : Bool :=
  match index with
  | 3 => fieldImms opcode < fieldImmr opcode
  | 4 => fieldImmr opcode ≤ fieldImms opcode
  | 8 => fieldImms opcode + 1 = fieldImmr opcode
  | 12 => !moveWidePreferred (fieldSf opcode) (fieldN opcode) (fieldImms opcode) (fieldImmr opcode)
  | 14 =>
      bfxPreferred (fieldSf opcode) (fieldOpc opcode / 2 ≠ 0) (fieldImms opcode) (fieldImmr opcode)
  | 21 => sveMoveMaskPreferred (BitVec.ofNat 32 (opcode.toNat / 2 ^ 5 % 2 ^ 13))
  | index => other index opcode

end Amed.AArch64

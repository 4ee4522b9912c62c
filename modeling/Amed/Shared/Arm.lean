import Amed.Shared.Datatype
import Amed.Shared.Encodedin

/-!
# What the two ARM decoders share

Enumerators as the decoders compute with them, the helpers of `utils/binary.h`, the modified
immediates of `armimm.c` and the tables of encoded values.

## Implementation notes

A double is its bit pattern. The table of `decode_vfp_imm` is written as the expansion its
comments spell out. A table that calls another one ends there, as the search does.
-/

namespace Amed

namespace Condition

def none : Nat := 0
def eq : Nat := 1
def al : Nat := 15
def nv : Nat := 16

end Condition

/-- The number of a shift. -/
def Shift.code : Shift → Nat
  | .none => 0 | .asr => 1 | .lsl => 2 | .lsr => 3 | .msl => 4 | .ror => 5 | .rrx => 6 | .mul => 7
  | .sxtb => 8 | .sxth => 9 | .sxtw => 10 | .sxtx => 11
  | .uxtb => 12 | .uxth => 13 | .uxtw => 14 | .uxtx => 15
  | .other code => code

/-- The shift a byte stands for. -/
def Shift.ofCode : Nat → Shift
  | 0 => .none | 1 => .asr | 2 => .lsl | 3 => .lsr | 4 => .msl | 5 => .ror | 6 => .rrx | 7 => .mul
  | 8 => .sxtb | 9 => .sxth | 10 => .sxtw | 11 => .sxtx
  | 12 => .uxtb | 13 => .uxth | 14 => .uxtw | 15 => .uxtx
  | code => .other code

/-- `amed_db_bitdiff`. -/
structure DbBitdiff where
  opcode : BitVec 32
  mask : BitVec 32
  deriving DecidableEq, Repr

/-- The test on a template's bit differences; index 0 is the row that stands for none. -/
def bitdiffsHold (index : Nat) (bitdiff : DbBitdiff) (opcode : BitVec 32) : Bool :=
  index = 0 || opcode &&& bitdiff.mask = bitdiff.opcode

/-! ## Attribute bits -/

/-- The attribute bits that decoding a template only ever sets. -/
def InsnAttributes.flags : List (InsnAttributes → Bool) :=
  [isUndefined, isDeprecated, isUnpredictable, isUgly, isAlias, isVector, isPredicated, isAtomic,
    isAcquiring, isReleasing, isSuppressingAllExceptions, isConstructive, isDestructive, mayBranch,
    mayLoad, mayStore]

/-- Every such bit that is set stays set. -/
def InsnAttributes.Keeps (a b : InsnAttributes) : Prop :=
  ∀ flag ∈ flags, flag a = true → flag b = true

theorem InsnAttributes.Keeps.refl (a : InsnAttributes) : a.Keeps a := fun _ _ h => h

/-- Attributes that survive two steps survive both. -/
theorem InsnAttributes.Keeps.trans {a b c : InsnAttributes} (h : a.Keeps b) (h' : b.Keeps c) :
    a.Keeps c := fun flag hflag ha => h' flag hflag (h flag hflag ha)

/-! ## Tables -/

/-- `amed_db_tv`. `value` is every member of its union of numbers. -/
structure DbTv where
  encoding : BitVec 32
  value : BitVec 32
  amount : Nat
  isRepresentable : Bool
  deriving DecidableEq, Repr

/-- The rows of a table; `call` is a row that calls another table. -/
inductive DbTable
  | terminal
  | row (tv : DbTv) (rows : DbTable)
  | call (table : DbTable)
  deriving DecidableEq, Repr

/-- `lookup_tv`. -/
def lookupTv : DbTable → BitVec 32 → Option DbTv
  | .terminal, _ => none
  | .row tv rows, encoding => if tv.encoding = encoding then some tv else lookupTv rows encoding
  | .call table, encoding => lookupTv table encoding

/-! ## Binary helpers -/

/-- `replicate64` of 1. -/
def replicate64 (count : Nat) : BitVec 64 := BitVec.allOnes 64 >>> (64 - count)

/-- `ror`. -/
def ror (value : BitVec 32) (rotation : Nat) : BitVec 32 :=
  value >>> rotation ||| value <<< (32 - rotation)

/-- `ror64`. -/
def ror64 (value : BitVec 64) (rotation datasize : Nat) : BitVec 64 :=
  if rotation = 0 then value
  else (value >>> rotation ||| value <<< (datasize - rotation)) &&& replicate64 datasize

/-- `sign_extend64`. -/
def signExtend64 (value : BitVec 64) (i : Nat) : BitVec 64 :=
  if value.getLsbD i then value ||| BitVec.allOnes 64 <<< i else value

/-- `get_hi_bit_pos`, and 0 where there is no bit. -/
def getHiBitPos (value : Nat) : Nat := Nat.log2 value

/-! ## Modified immediates -/

/-- `decode_vfp_imm`: the double with the sign `a`, the exponent of `bcd` and the fraction `efgh`;
false where more than a byte is encoded. -/
def decodeVfpImm (encodedin : BitVec 32) : Bool × BitVec 64 :=
  let byte := encodedin.toNat % 256
  let a := byte / 128
  let b := byte / 64 % 2
  let cd := byte / 16 % 4
  let efgh := byte % 16
  let exponent := if b = 1 then 1020 + cd else 1024 + cd
  (encodedin.toNat ≤ 0xff, BitVec.ofNat 64 (a * 2 ^ 63 + exponent * 2 ^ 52 + efgh * 2 ^ 48))

/-- The number of a list of bytes, the low one first. -/
def bytesValue (bytes : List Nat) : Nat := Bytes.leNat (bytes.map UInt8.ofNat)

/-- The pattern and the datatype of `decode_advsimd_imm`, before the value is cut to it. -/
def advsimdPattern (cmode : Nat) (op : Bool) (imm8 : Nat) : Nat × Datatype :=
  let saturated (bit : Nat) : Nat := if imm8.testBit bit then 0xff else 0
  match cmode with
  | 0 | 1 => (bytesValue [imm8, 0, 0, 0, imm8, 0, 0, 0], .i32)
  | 2 | 3 => (bytesValue [0, imm8, 0, 0, 0, imm8, 0, 0], .i32)
  | 4 | 5 => (bytesValue [0, 0, imm8, 0, 0, 0, imm8, 0], .i32)
  | 6 | 7 => (bytesValue [0, 0, 0, imm8, 0, 0, 0, imm8], .i32)
  | 8 | 9 => (bytesValue [imm8, 0, imm8, 0, imm8, 0, imm8, 0], .i16)
  | 10 | 11 => (bytesValue [0, imm8, 0, imm8, 0, imm8, 0, imm8], .i16)
  | 12 => (bytesValue [0xff, imm8, 0, 0, 0xff, imm8, 0, 0], .i32)
  | 13 => (bytesValue [0xff, 0xff, imm8, 0, 0xff, 0xff, imm8, 0], .i32)
  | 14 =>
      if op then (bytesValue ((List.range 8).map saturated), .i64)
      else (bytesValue (List.replicate 8 imm8), .i8)
  | 15 =>
      let a := imm8 &&& 0x80
      let b := imm8.testBit 6
      if op then
        let bbcdefgh := imm8 &&& 0x3f ||| if b then 0xc0 else 0
        (bytesValue [0, 0, 0, 0, 0, 0, bbcdefgh, a ||| if b then 0x3f else 0x40], .f64)
      else
        let defgh000 := (imm8 &&& 0x1f) * 8
        let aBbbbbbc := (a ||| if b then 0x3e else 0x40) ||| if imm8.testBit 5 then 1 else 0
        (bytesValue [0, 0, defgh000, aBbbbbbc, 0, 0, defgh000, aBbbbbbc], .f32)
  | _ => (0, .none)

/-- `decode_advsimd_imm`; it never fails. -/
def decodeAdvsimdImm (encodedin : BitVec 32) : BitVec 64 × Datatype :=
  let (pattern, dt) :=
    advsimdPattern (encodedin.toNat / 256 % 16) (encodedin.getLsbD 12) (encodedin.toNat % 256)
  let value :=
    match dt with
    | .i8 => pattern % 2 ^ 8
    | .i16 => pattern % 2 ^ 16
    | .i32 | .f32 => pattern % 2 ^ 32
    | _ => pattern
  (BitVec.ofNat 64 value, dt)

end Amed

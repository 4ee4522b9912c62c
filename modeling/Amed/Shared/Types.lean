import Amed.Library.Bytes

/-!
# The shared instruction record

The types of `amed.h` that every decoder fills: the context, the instruction
with its attribute bits, and the argument with its union payload.

## Implementation notes

The payload union of an argument is a byte store with one cell per member, at
the offsets natural alignment gives them, so that members overlap as in C.
`attributes` unions are records of flags; assigning 0 to the whole word is
assigning the record with every flag false.
-/

namespace Amed

open Bytes

inductive Architecture
  | none | x86 | aarch32 | aarch64
  deriving DecidableEq, Repr, Inhabited

inductive MachineMode
  | none | mode16 | mode64 | mode32 | thumb
  deriving DecidableEq, Repr, Inhabited

/-- `amed_datatype`; `other` is a byte that names no enumerator, which only
memory that was never written can hold. -/
inductive Datatype
  | none | f16 | bf16 | f32 | f64 | f80 | bcd80
  | i8 | i16 | i32 | i64 | i128 | i256
  | s8 | s16 | s32 | s64
  | u8 | u16 | u32 | u64 | u128 | u256
  | p8 | p64 | ix | sx | ux
  | other (code : Nat)
  deriving DecidableEq, Repr, Inhabited

/-- The enumerator's number, as it is stored in a payload byte. -/
def Datatype.code : Datatype → Nat
  | .none => 0 | .f16 => 1 | .bf16 => 2 | .f32 => 3 | .f64 => 4 | .f80 => 5 | .bcd80 => 6
  | .i8 => 7 | .i16 => 8 | .i32 => 9 | .i64 => 10 | .i128 => 11 | .i256 => 12
  | .s8 => 13 | .s16 => 14 | .s32 => 15 | .s64 => 16
  | .u8 => 17 | .u16 => 18 | .u32 => 19 | .u64 => 20 | .u128 => 21 | .u256 => 22
  | .p8 => 23 | .p64 => 24 | .ix => 25 | .sx => 26 | .ux => 27
  | .other code => code

/-- `amed_argument_type`. -/
inductive ArgumentType
  | none | register | sysregEncoding | memory | address | ptr | immediate | label | list
  | endian | aif | condition | cspace | pspace | barrier | pattern | atOp | dcOp | icOp
  | tlbiOp | prfOp | syncOp | ctxOp | btiOp | pstatefield | sae | evh | rounding
  | other (code : Nat)
  deriving DecidableEq, Repr, Inhabited

/-- Enumerators of `amed_shift`. -/
inductive Shift
  | none | asr | lsl | lsr | msl | ror | rrx | mul
  | sxtb | sxth | sxtw | sxtx | uxtb | uxth | uxtw | uxtx
  | other (code : Nat)
  deriving DecidableEq, Repr, Inhabited

/-- `AMED_CATEGORY_BRANCH`. -/
def Category.branch : Nat := 7

/-- The attribute bits of `amed_argument`. -/
structure ArgumentAttributes where
  isSuppressed : Bool := false
  isVector : Bool := false
  isRepresentable : Bool := false
  read : Bool := false
  write : Bool := false
  conditionalReading : Bool := false
  conditionalWriting : Bool := false
  hasShifter : Bool := false
  writeBack : Bool := false
  zeroing : Bool := false
  merging : Bool := false
  hasIndex : Bool := false
  isAdding : Bool := false
  isPostIndexed : Bool := false
  isPreIndexed : Bool := false
  deriving DecidableEq, Repr, Inhabited

/-- The printer hints of `amed_argument`. -/
structure PrinterAttributes where
  printDatatype : Bool := false
  printShifter : Bool := false
  printIndex : Bool := false
  printSegment : Bool := false
  printBroadcasting : Bool := false
  printSize : Bool := false
  printAmountAsVl : Bool := false
  deriving DecidableEq, Repr, Inhabited

/-- `amed_argument_shifter`; `amount` and `reg` are one 16-bit word. -/
structure Shifter where
  type : Shift
  isVisible : Bool
  hasAmount : Bool
  hasRegister : Bool
  amount : Nat
  deriving DecidableEq, Repr, Inhabited

structure Argument where
  type : ArgumentType
  datatype : Datatype
  numberOfElements : Nat
  size : Nat
  attributes : ArgumentAttributes
  printer : PrinterAttributes
  payload : Store
  shifter : Shifter
  deriving Inhabited

/-! Members of the payload union. -/
namespace Cell

def regValue : Cell := ⟨0, 2⟩
def regIndex : Cell := ⟨4, 4⟩
def imm : Cell := ⟨0, 8⟩
def immByte : Cell := ⟨0, 1⟩
def immHalf : Cell := ⟨0, 2⟩
def immWord : Cell := ⟨0, 4⟩
def token : Cell := ⟨8, 4⟩
def memVdatatype : Cell := ⟨0, 1⟩
def memBroadcastingFrom : Cell := ⟨1, 1⟩
def memBroadcastingTo : Cell := ⟨2, 1⟩
def memAddressSize : Cell := ⟨4, 2⟩
def memAlignement : Cell := ⟨6, 2⟩
def memSegment : Cell := ⟨8, 2⟩
def memBase : Cell := ⟨10, 2⟩
def memRegoff : Cell := ⟨12, 2⟩
def memImmoffDatatype : Cell := ⟨16, 1⟩
def memImmoffValue : Cell := ⟨24, 8⟩
def listRegister (i : Nat) : Cell := ⟨2 * i, 2⟩
def listCount : Cell := ⟨64, 1⟩
def listIndex : Cell := ⟨65, 1⟩
def ptrSegment : Cell := ⟨0, 2⟩
def ptrOffsetDatatype : Cell := ⟨8, 1⟩
def ptrOffsetValue : Cell := ⟨16, 8⟩
def sysregOp0 : Cell := ⟨0, 1⟩
def sysregOp1 : Cell := ⟨1, 1⟩
def sysregOp2 : Cell := ⟨2, 1⟩
def sysregCn : Cell := ⟨3, 1⟩
def sysregCm : Cell := ⟨4, 1⟩
def aifValue : Cell := ⟨0, 1⟩

end Cell

/-- Write a member of the argument's payload. -/
def Argument.put (a : Argument) (c : Cell) (v : Nat) : Argument :=
  { a with payload := a.payload.write c v }

def Argument.get (a : Argument) (c : Cell) : Nat := a.payload.read c

theorem Argument.get_lt (a : Argument) (c : Cell) : a.get c < 256 ^ c.width := a.payload.read_lt c

@[simp] theorem Argument.get_put (a : Argument) (c : Cell) (v : Nat) :
    (a.put c v).get c = v % 256 ^ c.width := by
  simp [Argument.get, Argument.put]

@[simp] theorem Argument.put_type (a : Argument) (c : Cell) (v : Nat) :
    (a.put c v).type = a.type := rfl

theorem Argument.get_put_apart (a : Argument) {c d : Cell} (v : Nat) (h : d.Apart c) :
    (a.put c v).get d = a.get d :=
  Store.read_write_apart _ _ h

theorem Cell.listRegister_apart {i j : Nat} (h : i ≠ j) :
    (listRegister i).Apart (listRegister j) := by
  simp only [listRegister, Bytes.Cell.Apart]
  omega

/-- `amed_x86_bytecode_type`. -/
inductive BytecodeType
  | none | opcode | map | modrm | sib | disp | absSeg | imm | prefixByte | rex | xop
  | vex2 | vex3 | evex | mvex
  deriving DecidableEq, Repr, Inhabited

/-- One recorded bytecode. `bytes` are the value bytes in memory order, `length` of them. -/
structure Bytecode where
  type : BytecodeType
  bytes : List UInt8
  deriving DecidableEq, Repr, Inhabited

/-- `amed_x86_prefix_functionality`. -/
inductive PrefixFunctionality
  | none | rep | repz | repnz | xacquire | xrelease | bnd
  deriving DecidableEq, Repr, Inhabited

/-- `AMED_X86_MAX_BYTECODE_COUNT`. -/
def maxBytecodeCount : Nat := 15

/-- The bytecode array of `amed_x86_specific` and its fill count. -/
structure BytecodeLog where
  bytecodes : Nat → Bytecode
  bytecodeCount : Nat
  deriving Inhabited

/-- `add_bytecode` on the array: a full array is left as it is. -/
def BytecodeLog.add (log : BytecodeLog) (bytecode : Bytecode) : BytecodeLog :=
  if maxBytecodeCount ≤ log.bytecodeCount then log
  else
    { bytecodes := fun j => if j = log.bytecodeCount then bytecode else log.bytecodes j
      bytecodeCount := log.bytecodeCount + 1 }

/-- The recorded bytecodes: the entries below the count. -/
def BytecodeLog.entries (log : BytecodeLog) : List Bytecode :=
  (List.range log.bytecodeCount).map log.bytecodes

@[simp] theorem BytecodeLog.entries_length (log : BytecodeLog) :
    log.entries.length = log.bytecodeCount := by
  simp [entries]

theorem BytecodeLog.add_of_full {log : BytecodeLog} (h : maxBytecodeCount ≤ log.bytecodeCount)
    (bytecode : Bytecode) : log.add bytecode = log :=
  if_pos h

theorem BytecodeLog.entries_add {log : BytecodeLog} (h : log.bytecodeCount ≤ maxBytecodeCount)
    (bytecode : Bytecode) :
    (log.add bytecode).entries = (log.entries ++ [bytecode]).take maxBytecodeCount ∧
      (log.add bytecode).bytecodeCount ≤ maxBytecodeCount := by
  by_cases hfull : maxBytecodeCount ≤ log.bytecodeCount
  · rw [add_of_full hfull]
    refine ⟨?_, h⟩
    rw [List.take_append_of_le_length (by simpa using hfull),
      List.take_of_length_le (by simpa using h)]
  · have hadd : log.add bytecode =
        { bytecodes := fun j => if j = log.bytecodeCount then bytecode else log.bytecodes j
          bytecodeCount := log.bytecodeCount + 1 } := if_neg hfull
    rw [hadd]
    refine ⟨?_, by simp only; omega⟩
    rw [List.take_of_length_le (by rw [List.length_append, entries_length]; simp; omega)]
    simp only [entries, List.range_succ, List.map_append, List.map_cons, List.map_nil, if_true]
    congr 1
    apply List.map_congr_left
    intro j hj
    exact if_neg (Nat.ne_of_lt (List.mem_range.mp hj))

/-- The record keeps the first bytecodes it is offered. -/
theorem BytecodeLog.entries_foldl_add {log : BytecodeLog}
    (h : log.bytecodeCount ≤ maxBytecodeCount) (fs : List Bytecode) :
    (fs.foldl add log).entries = (log.entries ++ fs).take maxBytecodeCount := by
  induction fs generalizing log with
  | nil => rw [List.append_nil, List.take_of_length_le (by simpa using h)]; rfl
  | cons f fs ih =>
      obtain ⟨hadd, hle⟩ := entries_add h f
      rw [List.foldl_cons, ih hle, hadd, List.append_cons log.entries f fs]
      generalize log.entries ++ [f] = xs
      rw [List.take_append, List.take_append, List.take_take, Nat.min_self, List.length_take]
      congr 2
      omega

/-- A full record stays as it is. -/
theorem BytecodeLog.foldl_add_of_full {log : BytecodeLog}
    (h : maxBytecodeCount ≤ log.bytecodeCount) (fs : List Bytecode) : fs.foldl add log = log := by
  induction fs with
  | nil => rfl
  | cons f fs ih => rw [List.foldl_cons, add_of_full h, ih]

/-- `amed_x86_specific`. -/
structure X86Specific where
  log : BytecodeLog
  iflags : List UInt8
  prefixFunctionality : PrefixFunctionality
  deriving Inhabited

/-- `amed_aarch32_specific`. -/
structure AArch32Specific where
  condition : Nat
  pstate : List UInt8
  itOp : Nat
  itInsnCount : Nat
  showQualifier : Bool
  deriving Inhabited

/-- `amed_aarch64_specific`. -/
structure AArch64Specific where
  condition : Nat
  pstate : List UInt8
  deriving Inhabited

/-- The attribute bits of `amed_insn`. -/
structure InsnAttributes where
  isUndefined : Bool := false
  isDeprecated : Bool := false
  isUnpredictable : Bool := false
  isUgly : Bool := false
  isAlias : Bool := false
  isVector : Bool := false
  isPredicated : Bool := false
  isAtomic : Bool := false
  isAcquiring : Bool := false
  isReleasing : Bool := false
  isSuppressingAllExceptions : Bool := false
  isConstructive : Bool := false
  isDestructive : Bool := false
  mayBranch : Bool := false
  mayLoad : Bool := false
  mayStore : Bool := false
  isRunningConditionally : Bool := false
  deriving DecidableEq, Repr, Inhabited

/-- The number of argument slots `amed_insn` declares. -/
def maxArguments : Nat := 8

/-- `amed_insn`. `overrun` is set once a slot behind the declared ones is
written: in C that write lands in the members that follow the array. -/
structure Insn where
  iform : Nat
  mnemonic : Nat
  page : Nat
  iclass : Nat
  cclass : Nat
  encoding : Nat
  archVariant : Nat
  length : Nat
  attributes : InsnAttributes
  categories : List Nat
  argumentCount : Nat
  arguments : Nat → Argument
  overrun : Bool
  exceptions : List Nat
  extensions : List Nat
  x86 : X86Specific
  aarch32 : AArch32Specific
  aarch64 : AArch64Specific
  deriving Inhabited

/-- Store an argument in its slot. -/
def Insn.setArgument (insn : Insn) (i : Nat) (a : Argument) : Insn :=
  { insn with
    arguments := fun j => if j = i then a else insn.arguments j
    overrun := insn.overrun || decide (maxArguments ≤ i) }

@[simp] theorem Insn.setArgument_same (insn : Insn) (i : Nat) (a : Argument) :
    (insn.setArgument i a).arguments i = a := by
  simp [Insn.setArgument]

theorem Insn.setArgument_other (insn : Insn) {i j : Nat} (a : Argument) (h : j ≠ i) :
    (insn.setArgument i a).arguments j = insn.arguments j := by
  simp [Insn.setArgument, h]

/-- `amed_it_block`. -/
structure ItBlock where
  count : Nat
  index : Nat
  isIn : Bool
  isOut : Bool
  conditions : Nat → Nat
  deriving Inhabited

/-- `amed_context`. `address` gives the bytes from the decode position on. -/
structure Context where
  architecture : Architecture
  machineMode : MachineMode
  address : Nat → UInt8
  features : BitVec 32
  length : Int
  vectorSize : Nat
  decodeAliases : Bool
  itblock : ItBlock
  deriving Inhabited

end Amed

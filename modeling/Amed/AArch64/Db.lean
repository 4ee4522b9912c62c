import Amed.Shared.Arm
import Amed.Generator.DecisionTree

/-!
# The AArch64 database

The generated tables of the AArch64 decoder and the state it decodes in.

## Implementation notes

The generated arrays are fields of `Db`, so every statement is about every content of them. A
node is the struct its type byte announces; a pointer to a node of several types is the sum of
the types its union names. `sp` and `signpos` are one bit, `scale` and `arg0` one word,
`aliascond` and `aliases` one index. A list in an array ends where its terminator stands.
-/

namespace Amed.AArch64

/-! Enumerators of `amed_aarch64_register`. -/
namespace Register

def none : Nat := 0
def w0 : Nat := 1
def x0 : Nat := 34
def b0 : Nat := 68
def h0 : Nat := 100
def s0 : Nat := 132
def d0 : Nat := 164
def q0 : Nat := 196
def v0 : Nat := 228
def v31 : Nat := 259
def p0 : Nat := 260
def z0 : Nat := 276
def z31 : Nat := 307

end Register

/-! Enumerators of `amed_aarch64_mnemonic` that decoding an operand depends on. -/
namespace Mnemonic

def bfc : Nat := 376
def bfi : Nat := 377
def bfxil : Nat := 378
def sbfiz : Nat := 405
def sbfx : Nat := 406
def ubfiz : Nat := 462
def ubfx : Nat := 463

end Mnemonic

/-- The symbols the decoder tells apart. -/
inductive Symbol
  | none | gpr32 | gpr64 | simd8 | simd16 | simd32 | simd64 | simd128 | vecreg | prdreg | svereg
  | wideImmInverted | wideImmAlias | advimm | vfpimm | aimm
  | shiftLeft | fbitsRight | shiftRight | lsb | width
  | other
  deriving DecidableEq, Repr, Inhabited

/-- `amed_aarch64_vdt`. -/
inductive Vdt
  | none | b16 | d1 | q1 | d2 | h2 | s2 | b4 | h4 | s4 | b8 | h8 | b | d | h | q | s
  deriving DecidableEq, Repr, Inhabited

/-- The node types of `decode_arg_enum`. -/
inductive EnumType
  | atOp | dcOp | icOp | tlbiOp | syncOp | ctxOp | prfOp | btiOp | pstatefield | barrier | cond
  | cspace | pattern
  deriving DecidableEq, Repr, Inhabited

/-- `amed_db_any`. -/
structure DbAny where
  symbol : Symbol := .none
  datatype : Datatype := .none
  read : Bool := false
  write : Bool := false
  hasEncodedin : Bool := false
  sp : Bool := false
  pair : Bool := false
  even : Bool := false
  zeroing : Bool := false
  merging : Bool := false
  encodedin : Nat := 0
  table : Option DbTable := none
  value : BitVec 32 := 0
  scale : BitVec 32 := 0
  deriving Repr, Inhabited

/-- The bit of `sp`, as immediates name it. -/
def DbAny.signpos (node : DbAny) : Bool := node.sp

/-- The word of `scale`, as shifted immediates name it. -/
def DbAny.arg0 (node : DbAny) : BitVec 32 := node.scale

/-- `amed_db_ereg`. -/
structure DbEreg where
  reg : DbAny
  vdt : Vdt := .none
  idx : DbAny := {}
  deriving Repr, Inhabited

/-- `amed_db_shifter`. -/
structure DbShifter where
  hasEncodedin : Bool
  encodedin : Nat
  table : DbTable
  shift : DbAny
  amount : Option DbAny
  deriving Repr

/-- `amed_db_opsh`: an operand with its shifter. -/
structure DbOpsh (α : Type) where
  op : α
  shifter : DbShifter
  deriving Repr

/-- The base of a memory operand or a list. -/
inductive DbBase
  | base (node : DbAny)
  | vbase (node : DbEreg)
  | ebase (node : DbEreg)
  deriving Repr

/-- The offset of a memory operand. -/
inductive DbOffset
  | regoff (node : DbAny)
  | vregoff (node : DbEreg)
  | regoffsh (node : DbOpsh DbAny)
  | vregoffsh (node : DbOpsh DbEreg)
  | immoff (node : DbAny)
  | immoffsh (node : DbOpsh DbAny)
  deriving Repr

/-- The nodes of `decode_anynymous_immreg`. -/
inductive DbImmReg
  | base (node : DbBase)
  | offset (node : DbOffset)
  deriving Repr

/-- `amed_db_list`. -/
structure DbList where
  base : DbBase
  count : DbAny
  deriving Repr

/-- `amed_db_size`. -/
structure DbSize where
  size : BitVec 16
  esize : BitVec 16
  deriving Repr

/-- `amed_db_mem`. -/
structure DbMem where
  datatype : Datatype
  read : Bool
  write : Bool
  postIndexed : Bool
  preIndexed : Bool
  base : DbBase
  regoff : Option DbOffset
  size : Option DbSize
  deriving Repr

/-- The nodes of `decode_node`; `other` is a type it does not decode, as `SZ`. -/
inductive DbNode
  | enum (type : EnumType) (node : DbAny)
  | invcond (node : DbAny)
  | sysreg (node : DbAny)
  | reg (node : DbAny)
  | regsh (node : DbOpsh DbAny)
  | vreg (node : DbEreg)
  | ereg (node : DbEreg)
  | preg (node : DbAny)
  | vlist (node : DbList)
  | elist (node : DbList)
  | patternsh (node : DbOpsh DbAny)
  | fpimm (node : DbAny)
  | imm (node : DbAny)
  | immsh (node : DbOpsh DbAny)
  | label (node : DbAny)
  | mem (node : DbMem)
  | other
  deriving Repr

/-- `amed_db_reginfo`. -/
structure DbReginfo where
  symbol : Symbol
  size : Nat
  isEven : Bool
  isLast : Bool
  deriving Repr

/-- `amed_db_template`. Of `cond` only the comparison with `COND` is read. -/
structure DbTemplate where
  iform : Nat
  arguments : Nat := 0
  bitdiffs : Nat := 0
  asmonly : Bool := false
  isCond : Bool := false
  archVariant : Nat := 0
  extensions : List Nat := [0, 0, 0, 0]
  deriving Repr

/-- `amed_db_encoding`. -/
structure DbEncoding where
  opcode : BitVec 32
  mask : BitVec 32
  iclass : Nat := 0
  cclass : Nat := 0
  firstTemplate : Nat
  templateCount : Nat
  aliascond : Nat := 0
  hasAlias : Bool := false
  datasize : Nat := 0
  categories : List Nat := [0, 0, 0, 0]
  exceptions : List Nat := [0, 0, 0, 0]
  iflags : Nat := 0
  page : Bool := false
  deriving Repr

/-- The index of `aliascond`, as encodings with aliases name it. -/
def DbEncoding.aliases (e : DbEncoding) : Nat := e.aliascond

/-- The generated AArch64 tables. `a64` is the tree of `aarch64_lookup_a64` and `aliascond` the
generated `is_alias_condition_ok`. -/
structure Db where
  encodings : Nat → DbEncoding
  templates : Nat → DbTemplate
  bitdiffs : Nat → DbBitdiff
  encodedins : Nat → List DbEncodedin
  arguments : Nat → List DbNode
  aliases : Nat → List Nat
  reginfo : Nat → DbReginfo
  iform2mnem : Nat → Nat
  iflags : Nat → List UInt8
  aliascond : Nat → BitVec 32 → Bool
  a64 : Generator.Tree

/-- `aarch64_lookup_a64`. -/
def Db.lookupA64 (db : Db) (opcode : BitVec 32) : Nat := (db.a64.walk (opcode.setWidth 64)).getD 0

/-- `aarch64_internal`. The pointers to the encoding and the template are their indices. -/
structure Internal where
  insn : Insn
  context : Context
  encoding : Nat
  ptemplate : Nat
  opcode : BitVec 32
  datasize : Nat
  lsb : BitVec 32
  dstReg : Nat
  hasReg : Bool

/-- What the argument decoders work on: the state and one argument. -/
structure Operand where
  internal : Internal
  argument : Argument

end Amed.AArch64

import Amed.Shared.Arm
import Amed.Generator.DecisionTree

/-!
# The AArch32 database

The generated tables of the AArch32 decoder and the state it decodes in.

## Implementation notes

As in the AArch64 database the generated arrays are fields of `Db`, and a node is the struct its
type byte announces. `pair` and `signpos` are one bit, `scale` and `arg0` one word, `aliascond`
and `aliases` one index.
-/

namespace Amed.AArch32

/-! Enumerators of `amed_aarch32_register`. -/
namespace Register

def none : Nat := 0
def r0 : Nat := 1
def sp : Nat := 14
def pc : Nat := 16
def s0 : Nat := 17
def d0 : Nat := 49
def q0 : Nat := 81
def q16 : Nat := 97

end Register

/-! Enumerators of `amed_aarch32_mnemonic` that decoding an operand depends on. -/
namespace Mnemonic

def bfc : Nat := 11
def bfi : Nat := 12
def sbfx : Nat := 141
def ubfx : Nat := 248

end Mnemonic

/-- `AMED_AARCH32_IFORM_IT`. -/
def iformIt : Nat := 65

/-- The symbols the decoder tells apart. -/
inductive Symbol
  | none | gpr32 | simd32 | simd64 | simd128
  | width | lsb | aimm | timm | vfpimm | advimm | shiftLeft | fbitsRight | shiftRight
  | plabel | nlabel | plabela | nlabela | labelj | label
  | wback16
  | other
  deriving DecidableEq, Repr, Inhabited

/-- The node types of `decode_arg_enum`. -/
inductive EnumType
  | cspace | pspace | cond | endian | syncOp | barrier | bnkdreg | specreg
  deriving DecidableEq, Repr, Inhabited

/-- The conditions a template may state on the condition it runs under. -/
inductive TemplateCondition
  | uncond | cond | unpCond | noNv | noNvUnpCond | mustAl | mustNv | mustCond
  deriving DecidableEq, Repr, Inhabited

/-- `AMED_MEM_ACCESS_*`. -/
inductive MemAccess
  | none | acquire | release | lorelease | loacquire | atomic | atomicRelease | atomicAcquire
  | unprivileged
  deriving DecidableEq, Repr, Inhabited

/-- `amed_db_any`. -/
structure DbAny where
  symbol : Symbol := .none
  datatype : Datatype := .none
  read : Bool := false
  write : Bool := false
  hasEncodedin : Bool := false
  dtRequired : Bool := false
  pair : Bool := false
  even : Bool := false
  dpc : Bool := false
  upc : Bool := false
  nopc : Bool := false
  nosp : Bool := false
  iwb : Bool := false
  erb : Bool := false
  encodedin : Nat := 0
  table : Option DbTable := none
  value : BitVec 32 := 0
  scale : BitVec 32 := 0
  deriving Repr, Inhabited

/-- The bit of `pair`, as immediates name it. -/
def DbAny.signpos (node : DbAny) : Bool := node.pair

/-- The word of `scale`, as shifted immediates name it. -/
def DbAny.arg0 (node : DbAny) : BitVec 32 := node.scale

/-- `amed_db_ereg`. -/
structure DbEreg where
  reg : DbAny
  idx : DbAny
  deriving Repr

/-- `amed_db_wreg`. -/
structure DbWreg where
  reg : DbAny
  wback : DbAny
  deriving Repr

/-- The amount of a shifter: a number or a register. -/
inductive DbAmount
  | amount (node : DbAny)
  | rs (node : DbAny)
  deriving Repr

/-- `amed_db_shifter`. -/
structure DbShifter where
  shift : DbAny
  amount : Option DbAmount
  deriving Repr

/-- `amed_db_opsh`: an operand with its shifter. -/
structure DbOpsh where
  op : DbAny
  shifter : DbShifter
  deriving Repr

/-- The nodes of `decode_anynymous_immreg`. -/
inductive DbImmReg
  | base (node : DbAny)
  | vbase (node : DbAny)
  | ebase (node : DbEreg)
  | regoff (node : DbAny)
  | regoffsh (node : DbOpsh)
  | immoff (node : DbAny)
  | immoffsh (node : DbOpsh)
  deriving Repr

/-- `amed_db_list` as `FSLIST` and `FDLIST` use it. -/
structure DbFlist where
  base : DbAny
  count : DbAny
  deriving Repr

/-- `amed_db_list` as `VLIST` and `ELIST` use it. -/
structure DbVlist where
  base : DbImmReg
  count : DbAny
  inc : DbAny
  deriving Repr

/-- `amed_db_mem`. `size` is the first word of its size node. -/
structure DbMem where
  read : Bool := false
  write : Bool := false
  postIndexed : Bool := false
  preIndexed : Bool := false
  base : DbImmReg
  align : Option DbAny := none
  add : Option DbAny := none
  regoff : Option DbImmReg := none
  size : Option (BitVec 16) := none
  ldacc : MemAccess := .none
  stacc : MemAccess := .none
  deriving Repr

/-- The nodes of `decode_node`, one constructor for the types it decodes alike: `xyz` is `SZ` and
`XYZ`, which it has nothing to decode for, `imm` is `IMM` and `FPIMM`, `label` is `LABEL` and `ADDR`,
`mem` is `LM` and `MEM`. `other` is a type it does not decode. -/
inductive DbNode
  | xyz
  | enum (type : EnumType) (node : DbAny)
  | sysreg (type : EnumType) (node : DbAny)
  | reg (node : DbAny)
  | vreg (node : DbAny)
  | ereg (node : DbEreg)
  | wreg (node : DbWreg)
  | regsh (node : DbOpsh)
  | glist (node : DbAny)
  | slist (node : DbAny)
  | fslist (node : DbFlist)
  | fdlist (node : DbFlist)
  | vlist (node : DbVlist)
  | imm (node : DbAny)
  | label (node : DbAny)
  | mem (node : DbMem)
  | iflags (node : DbAny)
  | other
  deriving Repr

/-- `amed_db_reginfo`. -/
structure DbReginfo where
  datatype : Datatype
  size : Nat
  isEven : Bool
  isLast : Bool
  deriving Repr

/-- `amed_db_template`. -/
structure DbTemplate where
  iform : Nat
  arguments : Nat := 0
  bitdiffs : Nat := 0
  showqlf : Bool := false
  asmonly : Bool := false
  fit : Bool := false
  init : Bool := false
  outit : Bool := false
  cond : TemplateCondition := .uncond
  archVariant : Nat := 0
  extensions : List Nat := [0, 0, 0, 0]
  deriving Repr

/-- `amed_db_encoding`. -/
structure DbEncoding where
  opcode : BitVec 32
  mask : BitVec 32
  iclass : Nat := 0
  cclass : Nat := 0
  firstTemplate : Nat
  templateCount : Nat
  aliascond : Nat := 0
  hasAlias : Bool := false
  categories : List Nat := [0, 0, 0, 0]
  exceptions : List Nat := [0, 0, 0, 0]
  iflags : Nat := 0
  page : Bool := false
  deriving Repr

/-- The index of `aliascond`, as encodings with aliases name it. -/
def DbEncoding.aliases (e : DbEncoding) : Nat := e.aliascond

/-- The instruction sets of the three lookups. -/
inductive Isa
  | a32 | t32 | t16
  deriving DecidableEq, Repr

/-- The generated AArch32 tables. `trees` are the trees of `aarch32_lookup_a32`, `_t32` and `_t16`.
`aliascond` is the generated `is_alias_condition_ok`; it reads the opcode and `InITBlock`. -/
structure Db where
  encodings : Nat → DbEncoding
  templates : Nat → DbTemplate
  bitdiffs : Nat → DbBitdiff
  encodedins : Nat → List DbEncodedin
  arguments : Nat → List DbNode
  aliases : Nat → List Nat
  reginfo : Nat → DbReginfo
  iform2mnem : Nat → Nat
  iflags : Nat → List UInt8
  aliascond : Nat → BitVec 32 → Bool → Bool
  trees : Isa → Generator.Tree

/-- `aarch32_lookup_a32`, `aarch32_lookup_t32` and `aarch32_lookup_t16`. -/
def Db.lookup (db : Db) (isa : Isa) (opcode : BitVec 32) : Nat :=
  ((db.trees isa).walk (opcode.setWidth 64)).getD 0

/-- `aarch32_internal`. The pointers to the encoding and the template are their indices. -/
structure Internal where
  insn : Insn
  context : Context
  encoding : Nat
  ptemplate : Nat
  opcode : BitVec 32
  lsb : BitVec 32
  dstReg : Nat
  isArm : Bool
  hasReg : Bool

/-- `is_insn_in_it_block`. -/
def isInsnInItBlock (s : Internal) : Bool := s.context.itblock.isIn

/-- What the argument decoders work on: the state and one argument. -/
structure Operand where
  internal : Internal
  argument : Argument

end Amed.AArch32

import Amed.Shared.Datatype

/-!
# The x86 tables

The node, template and encoding records of `x86/db.h`, and the generated
tables as one record `Db`.

## Implementation notes

The generated arrays and the generated `x86_lookup` are fields of `Db`, so every
result holds for any content of the tables. A list of argument nodes is the array
slice from the template's index up to its terminating `NULL`. Union members that
share storage (`encodedin` and `value` of a node) share one field here.
-/

namespace Amed.X86

/-- `amed_x86_symbol`, less the symbols no decoding function tests. -/
inductive Symbol
  | none
  | axa | cxa | dxa | bxa | spa | bpa | sia | dia | ipa
  | axv | cxv | dxv | bxv | spv | bpv | siv | div | ipv
  | gpra | gprv | gpry | gprz
  | gpr8 | gpr16 | gpr32 | gpr64
  | segreg | fpreg | mmxreg | dreg | creg | maskreg
  | xmmreg | ymmreg | zmmreg | bndreg
  | vmx | vmy | vmz
  | shl | shr
  | other
  deriving DecidableEq, Repr

/-- `amed_x86_encodedin`, less the places no decoding function tests. -/
inductive Encodedin
  | vPrefix | reg | rm | aaa | vvvv | sibBase | sibIndex | opcode | is4 | other
  deriving DecidableEq, Repr

/-- The enumerator behind the number a node stores. -/
def Encodedin.ofCode : Nat → Encodedin
  | 2 => .vPrefix
  | 6 => .reg
  | 7 => .rm
  | 8 => .aaa
  | 9 => .vvvv
  | 10 => .sibBase
  | 11 => .sibIndex
  | 12 => .opcode
  | 13 => .is4
  | _ => .other

/-- `amed_x86_tuple`. -/
inductive Tuple
  | none | dup | fv | fvm | hv | hvm | m128 | ovm | qvm
  | t1f32 | t1f64 | t1s8 | t1s16 | t1s | t2 | t4 | t8
  deriving DecidableEq, Repr

/-- `amed_db_width`. -/
structure DbWidth where
  width16 : Nat
  width32 : Nat
  width64 : Nat
  deriving DecidableEq, Repr

def DbWidth.widths (w : DbWidth) (scale : Nat) : Nat :=
  [w.width16, w.width32, w.width64].getD scale 0

/-- `amed_db_bitdiff`. -/
structure DbBitdiff where
  opcode : BitVec 32
  mask : BitVec 32
  deriving DecidableEq, Repr

/-- `amed_db_reg`, also used for vreg, preg, base and seg nodes. -/
structure DbReg where
  symbol : Symbol := .none
  read : Bool := false
  write : Bool := false
  conditionalReading : Bool := false
  conditionalWriting : Bool := false
  suppressed : Bool := false
  zeroing : Bool := false
  hasEncodedin : Bool := false
  value : Nat
  deriving DecidableEq, Repr

def DbReg.encodedin (node : DbReg) : Encodedin := .ofCode node.value

/-- `amed_db_any`, the record behind immediates, labels, pointers and conditions. -/
structure DbAny where
  datatype : Datatype := .none
  symbol : Symbol := .none
  size : Int := 0
  read : Bool := false
  write : Bool := false
  hasEncodedin : Bool := false
  value : Nat := 0
  deriving DecidableEq, Repr

def DbAny.encodedin (node : DbAny) : Encodedin := .ofCode node.value

/-- `amed_db_mem`. -/
structure DbMem where
  datatype : Datatype := .none
  symbol : Symbol := .none
  size : Int := 0
  read : Bool := false
  write : Bool := false
  conditionalReading : Bool := false
  conditionalWriting : Bool := false
  suppressed : Bool := false
  hasEncodedin : Bool := false
  seg : Option DbReg := none
  base : Option DbReg := none
  deriving DecidableEq, Repr

/-- `amed_db_sbcst`. -/
structure DbSbcst where
  fromCount : Nat
  toCount : Nat
  deriving DecidableEq, Repr

/-- `amed_db_swizzle_tv`. -/
structure DbSwizzleTv where
  nelem : Nat := 0
  mdt : Datatype := .none
  vdt : Datatype := .none
  reserved : Bool := false
  converting : Bool := false
  broadcasting : Bool := false
  deriving DecidableEq, Repr

/-- `amed_db_swz`; `onRegister` says that the swizzle is `R_I32` or `R_I64`. -/
structure DbSwz where
  onRegister : Bool
  table : List DbSwizzleTv := []
  deriving DecidableEq, Repr

/-- A row of a swizzle table. -/
def DbSwz.row (node : DbSwz) (sss : Nat) : DbSwizzleTv := node.table.getD sss {}

/-- A template's argument nodes by node type. `imm` also stands for the
rndc, order, fexcpc, fpct, signc and ctl nodes, which `decode_node` treats alike. -/
inductive DbNode
  | reg (node : DbReg) | vreg (node : DbReg) | preg (node : DbReg)
  | mem (node : DbMem) | agen (node : DbMem) | mib (node : DbMem)
  | imm (node : DbAny) | rel (node : DbAny) | moffs (node : DbAny) | ptr (node : DbAny)
  | shift (node : DbAny) | rotate (node : DbAny) | cc (node : DbAny)
  | sae | evh | rc (node : DbAny) | bcst | sbcst (node : DbSbcst) | swz (node : DbSwz)
  | other
  deriving DecidableEq, Repr

/-- `amed_db_encoding`. -/
structure DbEncoding where
  iflags : Nat := 0
  isa : Nat := 0
  page : Nat := 0
  categories : List Nat := [0, 0, 0, 0]
  exceptions : List Nat := [0, 0, 0, 0]
  extension : Nat := 0
  hasModrm : Bool := false
  requiresAlignment : Bool := false
  deriving DecidableEq, Repr

/-- `amed_db_template`. -/
structure DbTemplate where
  iform : Nat := 0
  bitdiffs : Nat := 0
  arguments : Nat := 0
  lock : Bool := false
  xacquire : Bool := false
  xrelease : Bool := false
  bound : Bool := false
  rep : Bool := false
  repnz : Bool := false
  repz : Bool := false
  egran : Bool := false
  f64 : Bool := false
  d64 : Bool := false
  tuple : Tuple := .none
  deriving DecidableEq, Repr

/-- The generated x86 tables. `lookup` is `x86_lookup`: it returns the index of the
encoding in the high half and that of the template in the low half. -/
structure Db where
  lookup : Nat → BitVec 32 → Nat
  encodings : Nat → DbEncoding
  templates : Nat → DbTemplate
  arguments : Nat → List DbNode
  widths : Nat → DbWidth
  reginfoSize : Nat → Nat
  iform2mnem : Nat → Nat
  bitdiffs : Nat → DbBitdiff
  iflags : Nat → List UInt8

/-! Enumerators of `amed_x86_register` the decoder names. -/
namespace Register

def none : Nat := 0
def al : Nat := 1
def spl : Nat := 9
def bpl : Nat := 10
def r8b : Nat := 13
def ax : Nat := 21
def sp : Nat := 25
def bp : Nat := 26
def eax : Nat := 37
def esp : Nat := 41
def ebp : Nat := 42
def rax : Nat := 53
def rsp : Nat := 57
def rbp : Nat := 58
def es : Nat := 69
def cs : Nat := 70
def ss : Nat := 71
def ds : Nat := 72
def fs : Nat := 73
def gs : Nat := 74
def st0 : Nat := 75
def mm0 : Nat := 83
def xmm0 : Nat := 95
def ymm0 : Nat := 127
def zmm0 : Nat := 159
def k0 : Nat := 191
def bnd0 : Nat := 199
def cr0 : Nat := 203
def dr0 : Nat := 219
def ip : Nat := 236
def eip : Nat := 240
def rip : Nat := 243

end Register

/-- `get_real_size`: a negative size names a width table entry. -/
def getRealSize (db : Db) (vsize : Int) (scale : Nat) : Nat :=
  if 0 ≤ vsize then vsize.toNat else (db.widths (-vsize).toNat).widths scale

/-- `get_default_base_segment`. -/
def getDefaultBaseSegment (base : Nat) : Nat :=
  if base ∈ [Register.bp, Register.bpl, Register.ebp, Register.rbp,
      Register.sp, Register.spl, Register.esp, Register.rsp] then Register.ss
  else if base ∈ [Register.ip, Register.eip, Register.rip] then Register.cs
  else Register.ds

end Amed.X86

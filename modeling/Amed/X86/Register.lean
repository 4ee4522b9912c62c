import Amed.X86.Modrm

/-!
# Register operands

`decode_node_register_value` with its tables, and the is4 byte that register and
immediate operands share.

## Implementation notes

The symbol switch re-enters itself at most once: a symbol scaled by the operand or
address size becomes a symbol of fixed width. `resolveSymbol` is that first pass.
-/

namespace Amed.X86

open Bytes

/-- `vosz2gpr`. -/
def vosz2gpr (sz : Nat) : Symbol := [.gpr16, .gpr32, .gpr64].getD sz .none

/-- `yosz2gpr`. -/
def yosz2gpr (sz : Nat) : Symbol := [.gpr32, .gpr32, .gpr64].getD sz .none

/-- `zosz2gpr`. -/
def zosz2gpr (sz : Nat) : Symbol := [.gpr16, .gpr32, .gpr32].getD sz .none

/-- `r8rex`. -/
def r8rex (i : Nat) : Nat :=
  [Register.al, Register.al + 1, Register.al + 2, Register.al + 3,
    Register.spl, Register.spl + 1, Register.spl + 2, Register.spl + 3,
    Register.r8b, Register.r8b + 1, Register.r8b + 2, Register.r8b + 3,
    Register.r8b + 4, Register.r8b + 5, Register.r8b + 6, Register.r8b + 7].getD i 0

/-- Place of a symbol behind `AXa`, the first register scaled by the address size. -/
def Symbol.fromAxa : Symbol → Option Nat
  | .axa => some 0
  | .cxa => some 1
  | .dxa => some 2
  | .bxa => some 3
  | .spa => some 4
  | .bpa => some 5
  | .sia => some 6
  | .dia => some 7
  | .ipa => some 8
  | _ => .none

/-- Place of a symbol behind `AXv`, the first register scaled by the operand size. -/
def Symbol.fromAxv : Symbol → Option Nat
  | .axv => some 0
  | .cxv => some 1
  | .dxv => some 2
  | .bxv => some 3
  | .spv => some 4
  | .bpv => some 5
  | .siv => some 6
  | .div => some 7
  | .ipv => some 8
  | _ => .none

/-- The cases of the symbol switch that re-enter it, with the new symbol and index. -/
def resolveSymbol (asz osz : Nat) (symbol : Symbol) (idx : Nat) : Symbol × Nat :=
  match symbol.fromAxa, symbol.fromAxv with
  | some i, _ => (vosz2gpr asz, i)
  | none, some i => (vosz2gpr osz, i)
  | none, none =>
      match symbol with
      | .gpra => (vosz2gpr asz, idx)
      | .gprv => (vosz2gpr osz, idx)
      | .gpry => (yosz2gpr osz, idx)
      | .gprz => (zosz2gpr osz, idx)
      | symbol => (symbol, idx)

/-- The other cases of the symbol switch; a symbol without a case gives 1. -/
def symbolRegister (hasRex : Bool) (value : Nat) (idx extension extension2 : Nat) :
    Symbol → Nat
  | .none => value
  | .gpr8 => if hasRex then r8rex (idx ||| extension) else Register.al + idx
  | .gpr16 => Register.ax + (idx ||| extension)
  | .gpr32 => Register.eax + (idx ||| extension)
  | .gpr64 => Register.rax + (idx ||| extension)
  | .segreg => if 5 < idx then Register.none else Register.es + idx
  | .fpreg => Register.st0 + idx
  | .mmxreg => Register.mm0 + idx
  | .dreg => Register.dr0 + (idx ||| extension)
  | .creg => Register.cr0 + (idx ||| extension)
  | .maskreg => Register.k0 + idx
  | .xmmreg => Register.xmm0 + (idx ||| extension ||| extension2)
  | .ymmreg => Register.ymm0 + (idx ||| extension ||| extension2)
  | .zmmreg => Register.zmm0 + (idx ||| extension ||| extension2)
  | .bndreg => Register.bnd0 + idx
  | _ => 1

/-- `get_is4_value`. The byte is read once; past the buffer it counts as 0. -/
def getIs4Value (buf : Buffer) (s : Internal) : UInt8 × Internal :=
  if s.diagram.hasIs4 then (s.diagram.is4, s)
  else
    match s.takeBytes buf .imm 1 with
    | some ([is4], s) =>
        (is4, { s with diagram := { s.diagram with is4 := is4, hasIs4 := true } })
    | _ => (0, s)

/-- The place of a register number in the encoding: index and two extensions. -/
structure RegisterPlace where
  idx : Nat := 0
  extension : Nat := 0
  extension2 : Nat := 0
  deriving DecidableEq, Repr

/-- The `encodedin` switch, less the is4 case. -/
def Diagram.registerPlace (d : Diagram) : Encodedin → RegisterPlace
  | .opcode => { idx := d.opcode.toNat % 8, extension := 8 * d.b.toNat }
  | .reg => { idx := d.reg, extension := 8 * d.r.toNat, extension2 := 16 * d.rp.toNat }
  | .rm => { idx := d.rm, extension := 8 * d.b.toNat, extension2 := 16 * d.x.toNat }
  | .sibBase => { idx := d.base, extension := 8 * d.b.toNat }
  | .sibIndex => { idx := d.index, extension := 8 * d.x.toNat, extension2 := 16 * d.vp.toNat }
  | .aaa => { idx := d.aaa }
  | .vvvv => { idx := d.vvvv, extension := 16 * d.vp.toNat }
  | _ => {}

/-- The register at a place; outside long mode there are no extensions. -/
def Diagram.registerAt (d : Diagram) (node : DbReg) (place : RegisterPlace) : Nat :=
  let extension := if d.longMode then place.extension else 0
  let extension2 := if d.longMode then place.extension2 else 0
  let (symbol, idx) := resolveSymbol d.asz d.osz node.symbol place.idx
  symbolRegister d.hasRex node.value idx extension extension2 symbol

/-- `decode_node_register_value`. -/
def decodeNodeRegisterValue (buf : Buffer) (s : Internal) (node : DbReg) : Nat × Internal :=
  if !node.hasEncodedin then (node.value, s)
  else
    match node.encodedin with
    | .is4 =>
        let (is4, s) := getIs4Value buf s
        (s.diagram.registerAt node { idx := is4.toNat / 16 }, s)
    | place => (s.diagram.registerAt node (s.diagram.registerPlace place), s)

/-- `decode_arg_reg`. -/
def decodeArgReg (db : Db) (buf : Buffer) (s : Internal) (i : Nat) (node : DbReg) :
    Bool × Internal :=
  let s := s.modifyArgument i fun a => { a with type := .register }
  let (value, s) := decodeNodeRegisterValue buf s node
  let s := s.modifyArgument i fun a =>
    let a := a.put Cell.regValue value
    let size := db.reginfoSize (a.get Cell.regValue)
    { a with
      size := size
      datatype := getNormalizedDatatype a.datatype size
      numberOfElements := 1
      attributes := { a.attributes with
        isSuppressed := node.suppressed, read := node.read, write := node.write
        conditionalReading := node.conditionalReading
        conditionalWriting := node.conditionalWriting } }
  (true, { s with srcReg := if node.read then some i else s.srcReg })

/-- `decode_arg_preg`. -/
def decodeArgPreg (db : Db) (buf : Buffer) (s : Internal) (i : Nat) (node : DbReg) :
    Bool × Internal :=
  let (_, s) := decodeArgReg db buf s i node
  if (s.insn.arguments i).get Cell.regValue = Register.k0 then
    (true, s.modifyArgument i fun a => { a with attributes.isSuppressed := true })
  else
    let s := s.modifyArgument i fun a =>
      if node.zeroing && s.diagram.z then { a with attributes.zeroing := true }
      else { a with attributes.merging := true }
    (true, { s with insn.attributes.isPredicated := true })

/-- `decode_arg_vreg`. -/
def decodeArgVreg (db : Db) (buf : Buffer) (s : Internal) (i : Nat) (node : DbReg) :
    Bool × Internal :=
  let (_, s) := decodeArgReg db buf s i node
  let s := s.modifyArgument i fun a =>
    let dtsz := getDatatypeSize a.datatype
    { a with numberOfElements := if a.size ≠ 0 ∧ dtsz ≠ 0 then a.size / dtsz % 256 else 1 }
  (true, { s with vreg := some i, insn.attributes.isVector := true })

end Amed.X86

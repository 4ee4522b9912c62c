import Amed.X86.Register

/-!
# Memory, immediate and decorator operands

The remaining `decode_arg_*` and `decode_node_*` functions of the x86 decoder.
-/

namespace Amed.X86

open Bytes

/-- The 16-bit two's complement value of an integer. -/
def int16 (i : Int) : Int := toSigned 16 (fromSigned 16 i)

/-- `decode_node_sbcst`: implied broadcasting. -/
def decodeNodeSbcst (s : Internal) (node : DbSbcst) : Bool × Internal :=
  match s.vmem with
  | none => (true, s)
  | some vmem =>
      (true, s.modifyArgument vmem fun a =>
        { (a.put Cell.memBroadcastingFrom node.fromCount).put Cell.memBroadcastingTo
            node.toCount with
          printer.printBroadcasting := false })

/-- `decode_node_bcst`: broadcasting the prefix asks for. -/
def decodeNodeBcst (s : Internal) : Bool × Internal :=
  match s.vmem with
  | none => (false, s)
  | some vmem =>
      if s.diagram.bp then
        (true, s.modifyArgument vmem fun a =>
          { (a.put Cell.memBroadcastingTo a.numberOfElements).put Cell.memBroadcastingFrom 1 with
            size := getDatatypeSize a.datatype
            printer.printBroadcasting := true
            numberOfElements := 1 })
      else (true, s)

/-- The selectors table of `decode_node_swz_reg`. -/
def swzSelectors (sss : Nat) : Nat :=
  let selectors (a b c d : Nat) : Nat := a + b * 2 ^ 8 + c * 2 ^ 16 + d * 2 ^ 24
  [selectors 0 1 2 3, selectors 1 0 3 2, selectors 2 3 0 1, selectors 1 2 0 3,
    selectors 0 0 0 0, selectors 1 1 1 1, selectors 2 2 2 2, selectors 3 3 3 3].getD sss 0

/-- `decode_node_swz_reg`. -/
def decodeNodeSwzReg (s : Internal) : Bool × Internal :=
  match s.vreg with
  | none => (true, s)
  | some vreg =>
      (true, s.modifyArgument vreg fun a =>
        { a.put Cell.regIndex (swzSelectors s.diagram.sss) with
          attributes.hasIndex := true
          printer.printIndex := s.diagram.sss ≠ 0 })

/-- The argument after the conversion of `decode_node_swz_mem`, before broadcasting. -/
def swzConvert (a : Argument) (row : DbSwizzleTv) : Argument :=
  let esize := getDatatypeSize row.mdt
  let size := int16 (if a.size ≠ 0 then a.size else esize * row.nelem)
  { a.put Cell.memVdatatype (if row.converting then row.vdt.code else Datatype.none.code) with
    datatype := row.mdt
    size := fromSigned 16 size
    numberOfElements := if esize = 0 then a.numberOfElements else fromSigned 8 (size.tdiv esize) }

/-- Scale a compressed MVEX displacement by the element or the whole operand. -/
def swzScaleDisp (a : Argument) (egran : Bool) : Argument :=
  let disp8n := (if egran then (getDatatypeSize a.datatype : Int) else int16 a.size).tdiv 8
  let disp := toSigned 64 (a.get Cell.memImmoffValue)
  (a.put Cell.memImmoffDatatype Datatype.s16.code).put Cell.memImmoffValue
    (fromSigned 64 (disp * disp8n))

/-- `decode_node_swz_mem`. -/
def decodeNodeSwzMem (db : Db) (s : Internal) (node : DbSwz) : Bool × Internal :=
  match s.vmem with
  | none => (true, s)
  | some vmem =>
      let row := node.row s.diagram.sss
      if row.reserved then (true, { s with insn.attributes.isUndefined := true })
      else
        let s := s.modifyArgument vmem fun a => swzConvert a row
        if getDatatypeSize row.mdt = 0 then (false, s)
        else
          let s := s.modifyArgument vmem fun a =>
            if s.usesCompressedDisp then swzScaleDisp a (db.templates s.ptemplate).egran else a
          if row.broadcasting then
            if getDatatypeSize row.vdt = 0 then (false, s)
            else
              (true, s.modifyArgument vmem fun a =>
                { (a.put Cell.memBroadcastingFrom a.numberOfElements).put Cell.memBroadcastingTo
                    (512 / getDatatypeSize row.vdt) with
                  printer.printBroadcasting := true })
          else if row.converting && row.vdt ≠ row.mdt then
            (true, s.modifyArgument vmem fun a => a.put Cell.memVdatatype row.vdt.code)
          else (true, s)

/-- `decode_node_swz`. -/
def decodeNodeSwz (db : Db) (s : Internal) (node : DbSwz) : Bool × Internal :=
  if node.onRegister then decodeNodeSwzReg s else decodeNodeSwzMem db s node

/-- `get_node_index`: the register class of a SIB index. -/
def getNodeIndex (symbol : Symbol) : DbReg :=
  { hasEncodedin := true
    symbol :=
      match symbol with
      | .vmx => .xmmreg
      | .vmy => .ymmreg
      | .vmz => .zmmreg
      | _ => .gpra
    value := 11 }

/-- `base_s`. -/
def baseS : DbReg := { hasEncodedin := true, symbol := .gpra, value := 10 }

/-- `base_r`. -/
def baseR : DbReg := { hasEncodedin := true, symbol := .gpra, value := 7 }

/-- The register of an optional node of an implicit memory operand. -/
def decodeOptionalRegister (buf : Buffer) (s : Internal) : Option DbReg → Nat × Internal
  | none => (Register.none, s)
  | some node => decodeNodeRegisterValue buf s node

/-- The address part of `decode_arg_mem` for an operand the encoding implies. -/
def decodeImplicitMem (buf : Buffer) (s : Internal) (i : Nat) (node : DbMem) : Internal :=
  let (seg, s) := decodeOptionalRegister buf s node.seg
  let s := s.modifyArgument i fun a => a.put Cell.memSegment seg
  let (base, s) := decodeOptionalRegister buf s node.base
  s.modifyArgument i fun a =>
    (((a.put Cell.memBase base).put Cell.memRegoff Register.none).put Cell.memImmoffDatatype
      Datatype.none.code).put Cell.memImmoffValue 0

/-- The address part of `decode_arg_mem` for an operand of the ModRM byte. Its base and
index nodes never name is4, so reading them leaves the state alone. -/
def decodeModrmMem (s : Internal) (i : Nat) (node : DbMem) : Internal :=
  let d := s.diagram
  s.modifyArgument i fun a =>
    let a := a.put Cell.memSegment Register.none
    let a :=
      if d.hasSib then
        let base := if s.hasBase then d.registerAt baseS (d.registerPlace .sibBase) else Register.none
        let index :=
          if s.hasIndex then
            d.registerAt (getNodeIndex node.symbol) (d.registerPlace .sibIndex)
          else Register.none
        { (a.put Cell.memBase base).put Cell.memRegoff index with
          shifter := { a.shifter with type := .mul, amount := d.scale }
          printer.printShifter := 1 < d.scale }
      else
        let base :=
          if s.hasBase then
            if s.baseIp ≠ 0 then s.baseIp else d.registerAt baseR (d.registerPlace .rm)
          else Register.none
        (a.put Cell.memBase base).put Cell.memRegoff Register.none
    (a.put Cell.memImmoffDatatype s.dispDatatype.code).put Cell.memImmoffValue
      (fromSigned 64 d.disp)

/-- `decode_arg_mem`. -/
def decodeArgMem (db : Db) (buf : Buffer) (s : Internal) (i : Nat) (node : DbMem) :
    Bool × Internal :=
  let s := s.modifyArgument i fun a =>
    (((a.put Cell.memVdatatype Datatype.none.code).put Cell.memBroadcastingFrom 0).put
      Cell.memBroadcastingTo 0).put Cell.memAddressSize
        ([16, 32, 64].getD s.diagram.asz 0)
  let s := if node.hasEncodedin then decodeModrmMem s i node else decodeImplicitMem buf s i node
  let s := s.modifyArgument i fun a =>
    let defaultSeg := getDefaultBaseSegment (a.get Cell.memBase)
    let segment :=
      if a.get Cell.memSegment = 0 then (if s.segment ≠ 0 then s.segment else defaultSeg)
      else a.get Cell.memSegment
    let size := getRealSize db node.size s.diagram.osz % 65536
    let datatype := getNormalizedDatatype node.datatype size
    let dtsz := getDatatypeSize datatype
    { (a.put Cell.memSegment segment).put Cell.memAlignement
        (if (db.encodings s.encoding).requiresAlignment then size else 0) with
      type := .memory
      size := size
      datatype := datatype
      numberOfElements := if size ≠ 0 ∧ dtsz ≠ 0 then size / dtsz % 256 else 0
      attributes := { a.attributes with
        isSuppressed := node.suppressed, read := node.read, write := node.write
        conditionalReading := node.conditionalReading
        conditionalWriting := node.conditionalWriting }
      printer := { a.printer with
        printSegment := defaultSeg ≠ segment % 65536, printSize := true } }
  (true, { s with
    vmem := some i
    insn.attributes.mayLoad :=
      s.insn.attributes.mayLoad || node.read || node.conditionalReading
    insn.attributes.mayStore :=
      s.insn.attributes.mayStore || node.write || node.conditionalWriting })

/-- `decode_arg_address`, and `decode_arg_mib`, which has the same body. -/
def decodeArgAddress (db : Db) (buf : Buffer) (s : Internal) (i : Nat) (node : DbMem) :
    Bool × Internal :=
  let (_, s) := decodeArgMem db buf s i node
  (true, s.modifyArgument i fun a =>
    { a with
      printer.printSize := false
      size := 0
      numberOfElements := 0
      datatype := .none
      type := .address })

/-- The sign extension at the end of `decode_arg_imm`. -/
def signExtendImm (size imm : Nat) : Nat :=
  if imm.testBit (size - 1) then imm ||| (2 ^ 64 - 2 ^ (size - 1)) else imm

/-- `decode_arg_imm`. -/
def decodeArgImm (db : Db) (buf : Buffer) (s : Internal) (i : Nat) (node : DbAny) :
    Bool × Internal :=
  let size := getRealSize db node.size s.diagram.osz % 65536
  let datatype := getNormalizedDatatype node.datatype size
  let s := s.modifyArgument i fun a =>
    { a.put Cell.imm 0 with size := size, type := .immediate, datatype := datatype }
  if !node.hasEncodedin then
    (true, s.modifyArgument i fun a => a.put Cell.immHalf node.value)
  else
    let nbytes := size / 8 % 256
    let extend (a : Argument) : Argument :=
      if isDatatypeSigned datatype then a.put Cell.imm (signExtendImm size (a.get Cell.imm)) else a
    match node.encodedin with
    | .is4 =>
        let (is4, s) := getIs4Value buf s
        (true, s.modifyArgument i fun a => extend (a.put Cell.immByte (is4.toNat % 16)))
    | _ =>
        match s.takeBytes buf .imm nbytes with
        | none => (false, s)
        | some (bytes, s) =>
            (true, s.modifyArgument i fun a => extend (a.put ⟨0, nbytes⟩ (leNat bytes)))

/-- The range a shift or rotation count must lie in: from `low` to `esize - 1 + low`. -/
def countOutOfRange (low esize count : Nat) : Bool :=
  !(low ≤ count && count + 1 ≤ esize + low)

/-- Mark the instruction when the count does not fit the last register read. -/
def Internal.checkCount (s : Internal) (i low : Nat) : Internal :=
  match s.srcReg with
  | none => s
  | some srcReg =>
      if s.insn.attributes.isUgly then s
      else
        let esize := getDatatypeSize (s.insn.arguments srcReg).datatype
        let count := (s.insn.arguments i).get Cell.immHalf
        { s with insn.attributes.isUgly := countOutOfRange low esize count }

/-- `decode_arg_imm_shift`. -/
def decodeArgImmShift (db : Db) (buf : Buffer) (s : Internal) (i : Nat) (node : DbAny) :
    Bool × Internal :=
  match decodeArgImm db buf s i node with
  | (false, s) => (false, s)
  | (true, s) =>
      (true,
        match node.symbol with
        | .shl => s.checkCount i 0
        | .shr => s.checkCount i 1
        | _ => s)

/-- `decode_arg_imm_rotate`. -/
def decodeArgImmRotate (db : Db) (buf : Buffer) (s : Internal) (i : Nat) (node : DbAny) :
    Bool × Internal :=
  match decodeArgImm db buf s i node with
  | (false, s) => (false, s)
  | (true, s) => (true, s.checkCount i 0)

/-- `decode_node_sae`. -/
def decodeNodeSae (s : Internal) (i : Nat) : Bool × Internal :=
  let bp := s.diagram.bp
  let s := { s with insn.attributes.isSuppressingAllExceptions := bp }
  (true, s.modifyArgument i fun a =>
    { a.put Cell.token bp.toNat with
      type := .sae
      attributes := { a.attributes with isRepresentable := true, isSuppressed := !bp } })

/-- `decode_node_evh`. -/
def decodeNodeEvh (s : Internal) (i : Nat) : Bool × Internal :=
  let e := s.diagram.e
  (true, s.modifyArgument i fun a =>
    { a.put Cell.token e.toNat with
      type := .evh
      attributes := { a.attributes with isRepresentable := true, isSuppressed := !e } })

/-- The rounding, its number and the exception suppression a vector prefix asks for. -/
structure RoundingControl where
  rounding : Nat := 0
  imm : Nat := 0
  sae : Bool := false
  suppress : Bool := false
  deriving DecidableEq, Repr

/-- The rounding switch of `decode_node_rc`; `ll2roundin` numbers the modes from 1. -/
def Diagram.roundingControl (d : Diagram) (encodedin : Encodedin) : RoundingControl :=
  if encodedin ≠ .vPrefix then {}
  else if d.enc = encodingEvex then
    if d.bp then { rounding := [1, 2, 3, 4].getD d.ll 0, imm := d.ll, sae := true }
    else { suppress := true }
  else if d.enc = encodingMvex then
    { rounding := [1, 2, 3, 4].getD (d.sss % 4) 0, imm := d.sss, sae := d.sss.testBit 2 }
  else {}

/-- `decode_node_rc`. -/
def decodeNodeRc (s : Internal) (i : Nat) (node : DbAny) : Bool × Internal :=
  let rc := s.diagram.roundingControl node.encodedin
  let s := s.modifyArgument i fun a =>
    { ((a.put Cell.imm 0).put Cell.immByte rc.imm).put Cell.token rc.rounding with
      type := .rounding
      datatype := .u8
      attributes := { a.attributes with
        isSuppressed := a.attributes.isSuppressed || rc.suppress
        isRepresentable := rc.rounding ≠ 0 } }
  (true, { s with insn.attributes.isSuppressingAllExceptions := rc.sae })

/-- `AMED_X86_COMPARISON_PREDICATE_EQ_OQ`. -/
def comparisonPredicateEqOq : Nat := 1

/-- `decode_arg_cc`. -/
def decodeArgCc (db : Db) (buf : Buffer) (s : Internal) (i : Nat) (node : DbAny) :
    Bool × Internal :=
  match decodeArgImm db buf s i node with
  | (false, s) => (false, s)
  | (true, s) =>
      (true, s.modifyArgument i fun a =>
        let predicate := a.get Cell.immByte
        if predicate ≤ 0x1f then
          { a.put Cell.token (predicate + comparisonPredicateEqOq) with type := .condition }
        else { a with type := .condition, attributes.isRepresentable := false })

/-- `decode_arg_rel`. -/
def decodeArgRel (db : Db) (buf : Buffer) (s : Internal) (i : Nat) (node : DbAny) :
    Bool × Internal :=
  match decodeArgImm db buf s i node with
  | (false, s) => (false, s)
  | (true, s) => (true, s.modifyArgument i fun a => { a with type := .label })

/-- Datatype, width in bits and bytes of the offset `decode_arg_moffs` reads. -/
def moffsWidth (asz : Nat) : Option (Datatype × Nat) :=
  match asz with
  | 0 => some (.s16, 2)
  | 1 => some (.s32, 4)
  | 2 => some (.s64, 8)
  | _ => none

/-- `decode_arg_moffs`. It leaves `mem.base` and `mem.vdatatype` as they are. -/
def decodeArgMoffs (db : Db) (buf : Buffer) (s : Internal) (i : Nat) (node : DbAny) :
    Bool × Internal :=
  let size := getRealSize db node.size s.diagram.osz % 65536
  let dt := if node.datatype = .none then .sx else node.datatype
  match moffsWidth s.diagram.asz with
  | none => (false, s)
  | some (offsetDt, nbytes) =>
      match s.takeBytes buf .disp nbytes with
      | none => (false, s)
      | some (bytes, s) =>
          let offset := toSigned (8 * nbytes) (leNat bytes)
          let s := s.modifyArgument i fun a =>
            let a := (a.put Cell.memImmoffDatatype offsetDt.code).put Cell.memImmoffValue
              (fromSigned 64 offset)
            let a := (a.put Cell.memAddressSize (8 * nbytes)).put Cell.memRegoff Register.none
            let a := (a.put Cell.memBroadcastingFrom 0).put Cell.memBroadcastingTo 0
            let a := (a.put Cell.memAlignement 0).put Cell.memSegment
              (if s.segment ≠ 0 then s.segment else Register.ds)
            { a with
              type := .memory
              size := size
              numberOfElements := 1
              datatype := getNormalizedDatatype dt size
              attributes := { a.attributes with read := node.read, write := node.write }
              printer := { a.printer with printSize := true, printSegment := true } }
          (true, { s with
            insn.attributes.mayLoad := s.insn.attributes.mayLoad || node.read
            insn.attributes.mayStore := s.insn.attributes.mayStore || node.write })

/-- The offset widths `decode_arg_ptr` accepts. -/
def ptrWidth (osz : Nat) : Option (Datatype × Nat) :=
  match osz with
  | 0 => some (.s16, 2)
  | 1 => some (.s32, 4)
  | _ => none

/-- `decode_arg_ptr`. -/
def decodeArgPtr (buf : Buffer) (s : Internal) (i : Nat) : Bool × Internal :=
  match s.takeBytes buf .absSeg 2 with
  | none => (false, s)
  | some (seg, s) =>
      match ptrWidth s.diagram.osz with
      | none => (false, s)
      | some (offsetDt, nbytes) =>
          match s.takeBytes buf .disp nbytes with
          | none => (false, s)
          | some (bytes, s) =>
              (true, s.modifyArgument i fun a =>
                let a := a.put Cell.ptrOffsetDatatype offsetDt.code
                let a := a.put Cell.ptrOffsetValue
                  (fromSigned 64 (toSigned (8 * nbytes) (leNat bytes)))
                { a.put Cell.ptrSegment (leNat seg) with type := .ptr })

/-- `decode_node`. -/
def decodeNode (db : Db) (buf : Buffer) (s : Internal) (i : Nat) (node : DbNode) :
    Bool × Internal :=
  let s := s.modifyArgument i fun a =>
    { a with type := .none, attributes := { isRepresentable := true }, printer := {} }
  match node with
  | .reg node => decodeArgReg db buf s i node
  | .vreg node => decodeArgVreg db buf s i node
  | .preg node => decodeArgPreg db buf s i node
  | .mem node => decodeArgMem db buf s i node
  | .agen node => decodeArgAddress db buf s i node
  | .mib node => decodeArgAddress db buf s i node
  | .imm node => decodeArgImm db buf s i node
  | .rel node => decodeArgRel db buf s i node
  | .moffs node => decodeArgMoffs db buf s i node
  | .ptr _ => decodeArgPtr buf s i
  | .shift node => decodeArgImmShift db buf s i node
  | .rotate node => decodeArgImmRotate db buf s i node
  | .cc node => decodeArgCc db buf s i node
  | .sae => decodeNodeSae s i
  | .evh => decodeNodeEvh s i
  | .rc node => decodeNodeRc s i node
  | .bcst => decodeNodeBcst s
  | .sbcst node => decodeNodeSbcst s node
  | .swz node => decodeNodeSwz db s node
  | .other => (true, s)

end Amed.X86

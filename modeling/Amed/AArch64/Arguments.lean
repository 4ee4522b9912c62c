import Amed.AArch64.Db

/-!
# AArch64 operands

The `decode_arg_*` functions of the AArch64 decoder.

## Implementation notes

Every function takes the state and the argument it fills and returns whether it succeeded with
both of them. The local argument of `decode_arg_mem` is not initialised in C: it is `stale`, and
the members that are read are written before.
-/

namespace Amed.AArch64

/-! ## Values -/

/-- Where the value of a node comes from. -/
inductive Definition
  | value | encodedin | table
  deriving DecidableEq, Repr

/-- What `decode_any` returns. -/
structure Decoded where
  definition : Definition
  value : BitVec 32
  size : Nat
  deriving Repr

/-- `decode_any`; none is its failure. -/
def decodeAny (db : Db) (opcode : BitVec 32) (node : DbAny) : Option Decoded :=
  if node.hasEncodedin then
    let (raw, size) := readEncodedinValue (db.encodedins node.encodedin) opcode
    match node.table with
    | none => some ⟨.encodedin, raw, size⟩
    | some table => (lookupTv table raw).map fun tv => ⟨.table, tv.value, size⟩
  else some ⟨.value, node.value, 0⟩

/-- `decode_register_value`. -/
def decodeRegisterValue (raw : BitVec 32) : Symbol → Nat
  | .gpr32 => Register.w0 + raw.toNat % 32
  | .gpr64 => Register.x0 + raw.toNat % 32
  | .simd8 => Register.b0 + raw.toNat
  | .simd16 => Register.h0 + raw.toNat
  | .simd32 => Register.s0 + raw.toNat
  | .simd64 => Register.d0 + raw.toNat
  | .simd128 => Register.q0 + raw.toNat
  | .vecreg => Register.v0 + raw.toNat
  | .svereg => Register.z0 + raw.toNat
  | .prdreg => Register.p0 + raw.toNat
  | _ => Register.none

/-- `get_register_size`; 0 where it fails. -/
def getRegisterSize (db : Db) (context : Context) (value : Nat) : Nat :=
  let info := db.reginfo value
  if info.size ≠ 0 then info.size
  else
    match info.symbol with
    | .svereg => context.vectorSize
    | .prdreg => context.vectorSize / 8
    | _ => 0

/-- `get_number_of_elements_from_vdt`. -/
def getNumberOfElementsFromVdt : Vdt → Nat
  | .none => 0
  | .b16 => 16
  | .d1 | .q1 | .b | .d | .h | .q | .s => 1
  | .d2 | .h2 | .s2 => 2
  | .b4 | .h4 | .s4 => 4
  | .b8 | .h8 => 8

/-- `get_element_size_from_vdt`. -/
def getElementSizeFromVdt : Vdt → Nat
  | .none => 0
  | .b16 | .b4 | .b8 | .b => 8
  | .h2 | .h4 | .h8 | .h => 16
  | .s2 | .s4 | .s => 32
  | .d1 | .d2 | .d => 64
  | .q1 | .q => 128

/-! ## Registers -/

namespace Operand

/-- Go on after a success. -/
def andThen (r : Bool × Operand) (next : Operand → Bool × Operand) : Bool × Operand :=
  if r.1 then next r.2 else r

end Operand

/-- The register of a node with an encoded value, and whether it is unpredictable. -/
def decodeEncodedRegister (db : Db) (opcode : BitVec 32) (node : DbAny) : Nat × Bool :=
  let (raw, _) := readEncodedinValue (db.encodedins node.encodedin) opcode
  let value := decodeRegisterValue raw node.symbol
  let info := db.reginfo value
  let (value, unpredictable) :=
    if node.pair then if info.isLast then (value, true) else (value + 1, false)
    else (value, node.even && !info.isEven)
  (if node.sp && raw.toNat = 31 then value + 1 else value, unpredictable)

/-- The value of a register node. -/
def registerOf (db : Db) (opcode : BitVec 32) (node : DbAny) : Nat × Bool :=
  if node.hasEncodedin then decodeEncodedRegister db opcode node else (node.value.toNat, false)

/-- `decode_arg_reg`. -/
def decodeArgReg (db : Db) (o : Operand) (node : DbAny) : Bool × Operand :=
  let (value, unpredictable) := registerOf db o.internal.opcode node
  let size := getRegisterSize db o.internal.context value
  let argument :=
    { o.argument.put Cell.regValue value with
      type := .register
      size := size % 2 ^ 16
      numberOfElements := 1
      datatype := node.datatype
      attributes.read := node.read
      attributes.write := node.write }
  let value := argument.get Cell.regValue
  let dstReg := if node.write then value else o.internal.dstReg
  let insn := o.internal.insn
  (true,
    { internal := { o.internal with
        insn := { insn with
          attributes.isUnpredictable := insn.attributes.isUnpredictable || unpredictable
          attributes.isDestructive :=
            insn.attributes.isDestructive || (node.read && dstReg = value) }
        dstReg := dstReg
        hasReg := true }
      argument := argument })

/-- The end of `decode_arg_shifter`. -/
def finishShifter (a : Argument) : Argument :=
  let code := a.shifter.type.code
  let a :=
    if a.shifter.amount = 0 ∧ Shift.sxtb.code ≤ code ∧ code ≤ Shift.uxtx.code then
      { a with shifter.hasAmount := false }
    else a
  { a with printer.printShifter := !(a.shifter.type = .lsl && a.shifter.amount = 0) }

/-- `AMOUNT_VL`. -/
def amountVl : BitVec 32 := -1

/-- `decode_arg_shifter`. A vector length is stored as the amount and then overwritten. -/
def decodeArgShifter (db : Db) (o : Operand) (node : DbShifter) : Bool × Operand :=
  let opcode := o.internal.opcode
  let argument :=
    { o.argument with
      attributes.hasShifter := true
      shifter.amount := 0
      shifter.isVisible := false
      shifter.hasAmount := false
      shifter.hasRegister := false
      printer.printShifter := true }
  if node.hasEncodedin then
    let (raw, _) := readEncodedinValue (db.encodedins node.encodedin) opcode
    match lookupTv node.table raw with
    | none => (false, { o with argument := argument })
    | some tv =>
        (true, { o with argument := { argument with
          shifter.type := .ofCode (tv.value.toNat % 2 ^ 8)
          shifter.amount := tv.amount % 2 ^ 16
          shifter.hasAmount := true } })
  else
    match decodeAny db opcode node.shift with
    | none => (false, { o with argument := argument })
    | some shift =>
        let argument := { argument with shifter.type := .ofCode (shift.value.toNat % 2 ^ 8) }
        match node.amount with
        | none => (true, { o with argument := finishShifter argument })
        | some nodeAmount =>
            match decodeAny db opcode nodeAmount with
            | none => (false, { o with argument := argument })
            | some decoded =>
                let amount :=
                  if nodeAmount.scale ≠ 0 then decoded.value * nodeAmount.scale else decoded.value
                let argument :=
                  if amount = amountVl then
                    { argument with
                      shifter.amount := o.internal.context.vectorSize
                      printer.printAmountAsVl := true }
                  else argument
                let amount :=
                  if amount ≠ amountVl ∧ shift.value.toNat = Shift.mul.code then amount + 1
                  else amount
                let argument :=
                  { argument with
                    shifter.amount := amount.toNat % 2 ^ 16
                    shifter.hasAmount := true }
                (true, { o with argument := finishShifter argument })

/-- `decode_arg_regsh`. -/
def decodeArgRegsh (db : Db) (o : Operand) (node : DbOpsh DbAny) : Bool × Operand :=
  (decodeArgReg db o node.op |> Operand.andThen) fun o => decodeArgShifter db o node.shifter

/-- `decode_arg_vreg`. -/
def decodeArgVreg (db : Db) (o : Operand) (node : DbEreg) : Bool × Operand :=
  (decodeArgReg db o node.reg |> Operand.andThen) fun o =>
    let a := o.argument
    let esize := getElementSizeFromVdt node.vdt
    let numberOfElements :=
      match (db.reginfo (a.get Cell.regValue)).symbol with
      | .svereg => if esize ≠ 0 then a.size / esize % 2 ^ 8 else a.numberOfElements
      | .vecreg => getNumberOfElementsFromVdt node.vdt
      | _ => a.numberOfElements
    (true,
      { internal := { o.internal with insn.attributes.isVector := true }
        argument := { a with
          numberOfElements := numberOfElements
          attributes.isVector := true
          printer.printDatatype := true } })

/-- `decode_arg_vregsh`. -/
def decodeArgVregsh (db : Db) (o : Operand) (node : DbOpsh DbEreg) : Bool × Operand :=
  (decodeArgVreg db o node.op |> Operand.andThen) fun o => decodeArgShifter db o node.shifter

/-- `decode_arg_ereg`. -/
def decodeArgEreg (db : Db) (o : Operand) (node : DbEreg) : Bool × Operand :=
  (decodeArgReg db o node.reg |> Operand.andThen) fun o =>
    match decodeAny db o.internal.opcode node.idx with
    | none => (false, o)
    | some idx =>
        (true, { o with argument := { o.argument.put Cell.regIndex idx.value.toNat with
          attributes.hasIndex := true
          printer.printDatatype := true } })

/-- `decode_arg_preg`. -/
def decodeArgPreg (db : Db) (o : Operand) (node : DbAny) : Bool × Operand :=
  (decodeArgReg db o node |> Operand.andThen) fun o =>
    (true,
      { internal := { o.internal with insn.attributes.isPredicated := true }
        argument := { o.argument with
          attributes.zeroing := node.zeroing
          attributes.merging := node.merging } })

/-! ## Immediates -/

/-- `decode_logimm`; none is its failure, which leaves the immediate alone. -/
def decodeLogimm (nImmsImmr : BitVec 32) (datasize : Nat) : Option (BitVec 64) :=
  let n := nImmsImmr.toNat / 2 ^ 12 % 2
  let s := nImmsImmr.toNat / 2 ^ 6 % 2 ^ 6
  let r := nImmsImmr.toNat % 2 ^ 6
  let datasize := if datasize = 0 then if n = 1 then 64 else 32 else datasize
  let len := getHiBitPos (n * 2 ^ 6 + (63 - s))
  if len < 1 then none
  else
    let esize := 2 ^ len
    let s := s % 2 ^ len
    let r := r % 2 ^ len
    let eimm := ror64 (replicate64 (s + 1)) r esize
    -- lanes of a byte and more are stored, smaller ones are shifted in
    let lane := if esize < 8 then eimm else eimm &&& replicate64 esize
    some ((List.range (datasize / esize)).foldl (fun limm i => limm ||| lane <<< (i * esize)) 0)

/-- `decode_wide_imm_alias`, the immediate only: its outcome is not looked at. -/
def decodeWideImmAlias (value : BitVec 32) (datasize : Nat) (inverted : Bool) : BitVec 64 :=
  let hw := value.toNat / 2 ^ 16 % 4
  let imm16 := BitVec.ofNat 64 (value.toNat % 2 ^ 16)
  let shift := if 2 ≤ hw ∧ datasize = 32 then 16 else hw * 16
  let imm := imm16 <<< shift
  if inverted then ~~~imm else imm

/-- `decode_imm_width`. -/
def decodeImmWidth (mnemonic : Nat) (lsb value : BitVec 32) : BitVec 32 :=
  if mnemonic ∈ [Mnemonic.sbfiz, Mnemonic.ubfiz, Mnemonic.bfc, Mnemonic.bfi] then value + 1
  else if mnemonic ∈ [Mnemonic.sbfx, Mnemonic.ubfx, Mnemonic.bfxil] then value + 1 - lsb
  else value

/-- `decode_imm_lsb`. -/
def decodeImmLsb (mnemonic : Nat) (datasize value : BitVec 32) : BitVec 32 :=
  if mnemonic ∈ [Mnemonic.sbfiz, Mnemonic.ubfiz, Mnemonic.bfc, Mnemonic.bfi] then
    (datasize - value) &&& (datasize - 1)
  else value

/-- The value of an encoded immediate that the symbol does not treat apart. -/
def plainImm (node : DbAny) (value : BitVec 32) (nb : Nat) : BitVec 64 :=
  let imm := value.setWidth 64
  let imm := if node.signpos then signExtend64 imm (nb - 1) else imm
  if node.scale ≠ 0 then imm * node.scale.setWidth 64 else imm

/-- The cases of `decode_arg_imm` for an encoded value. -/
def decodeEncodedImm (o : Operand) (node : DbAny) (value : BitVec 32) (nb : Nat) : Operand :=
  let s := o.internal
  let a := o.argument
  match node.symbol with
  | .wideImmInverted =>
      { o with argument := a.put Cell.imm (decodeWideImmAlias value s.datasize true).toNat }
  | .wideImmAlias =>
      { o with argument := a.put Cell.imm (decodeWideImmAlias value s.datasize false).toNat }
  | .advimm =>
      let (imm, dt) := decodeAdvsimdImm value
      { o with argument := { a.put Cell.imm imm.toNat with datatype := dt } }
  | .vfpimm => { o with argument := a.put Cell.imm (decodeVfpImm value).2.toNat }
  | .aimm =>
      match decodeLogimm value s.datasize with
      | none => o
      | some imm => { o with argument := a.put Cell.imm imm.toNat }
  | .shiftLeft => { o with argument := a.put Cell.immWord (value - node.arg0).toNat }
  | .fbitsRight | .shiftRight =>
      { o with argument := a.put Cell.immWord (node.arg0 - value).toNat }
  | .lsb =>
      let lsb := decodeImmLsb s.insn.mnemonic (BitVec.ofNat 32 s.datasize) value
      { internal := { s with lsb := lsb }
        argument := a.put Cell.immWord lsb.toNat }
  | .width =>
      { o with argument := a.put Cell.immWord (decodeImmWidth s.insn.mnemonic s.lsb value).toNat }
  | _ => { o with argument := a.put Cell.imm (plainImm node value nb).toNat }

/-- `decode_arg_imm`: it always reports success. -/
def decodeArgImm (db : Db) (o : Operand) (node : DbAny) : Bool × Operand :=
  let o := { o with argument := { o.argument.put Cell.imm 0 with
    type := .immediate
    datatype := node.datatype
    attributes.read := true } }
  match decodeAny db o.internal.opcode node with
  | some ⟨.encodedin, value, nb⟩ => (true, decodeEncodedImm o node value nb)
  | some ⟨_, value, _⟩ => (true, { o with argument := o.argument.put Cell.immWord value.toNat })
  | none => (true, { o with argument := o.argument.put Cell.immWord 0 })

/-- `decode_arg_immsh`. -/
def decodeArgImmsh (db : Db) (o : Operand) (node : DbOpsh DbAny) : Bool × Operand :=
  (decodeArgImm db o node.op |> Operand.andThen) fun o => decodeArgShifter db o node.shifter

/-- `decode_arg_fpimm`. -/
def decodeArgFpimm (db : Db) (o : Operand) (node : DbAny) : Bool × Operand := decodeArgImm db o node

/-- `decode_arg_label`. -/
def decodeArgLabel (db : Db) (o : Operand) (node : DbAny) : Bool × Operand :=
  (decodeArgImm db o node |> Operand.andThen) fun o =>
    (true, { o with argument := { o.argument with type := .label } })

/-! ## Memory and lists -/

/-- `decode_anynymous_immreg`. -/
def decodeAnynymousImmreg (db : Db) (o : Operand) : DbImmReg → Bool × Operand
  | .base (.base node) | .offset (.regoff node) => decodeArgReg db o node
  | .base (.ebase node) => decodeArgEreg db o node
  | .base (.vbase node) | .offset (.vregoff node) => decodeArgVreg db o node
  | .offset (.regoffsh node) => decodeArgRegsh db o node
  | .offset (.vregoffsh node) => decodeArgVregsh db o node
  | .offset (.immoff node) => decodeArgImm db o node
  | .offset (.immoffsh node) => decodeArgImmsh db o node

/-- `SIZE_VL` and `SIZE_PL`, as `decode_mem_size` compares them with a 16-bit size. -/
def sizeVl : Int := -1
def sizePl : Int := -2

/-- `decode_mem_size`. -/
def decodeMemSize (context : Context) (node : DbSize) : BitVec 16 :=
  if (node.size.toNat : Int) = sizeVl then BitVec.ofNat 16 context.vectorSize
  else if (node.size.toNat : Int) = sizePl then BitVec.ofNat 16 (context.vectorSize / 8)
  else if node.esize ≠ 0 then
    node.size * BitVec.ofNat 16 (context.vectorSize / node.esize.toNat)
  else node.size

/-- The local argument of `decode_arg_mem`. -/
def localArgument (stale : Argument) : Argument :=
  { stale with attributes := {}, printer := {}, shifter.type := .none }

/-- What the offset of a memory operand leaves in it. -/
def takeOffset (a arg : Argument) : Argument :=
  let a :=
    if arg.type = .immediate then
      (a.put Cell.memImmoffDatatype arg.datatype.code).put Cell.memImmoffValue (arg.get Cell.imm)
    else a.put Cell.memRegoff (arg.get Cell.regValue)
  if arg.shifter.type ≠ .none then
    { a with
      shifter := arg.shifter
      printer.printAmountAsVl := arg.printer.printAmountAsVl
      printer.printShifter := arg.printer.printShifter }
  else a

/-- The end of `decode_arg_mem`. -/
def finishMem (o : Operand) (node : DbMem) : Operand :=
  let size := (node.size.map (decodeMemSize o.internal.context)).getD 0
  let esize := BitVec.ofNat 16 (getDatatypeSize node.datatype)
  let insn := o.internal.insn
  { internal := { o.internal with
      insn := { insn with
        attributes.mayLoad := insn.attributes.mayLoad || node.read
        attributes.mayStore := insn.attributes.mayStore || node.write } }
    argument := { o.argument with
      type := .memory
      size := size.toNat
      datatype := node.datatype
      numberOfElements :=
        if size ≠ 0 ∧ esize ≠ 0 then (size.sdiv esize).toNat % 2 ^ 8 else 1
      attributes.read := node.read
      attributes.write := node.write
      attributes.isPostIndexed := node.postIndexed
      attributes.isPreIndexed := node.preIndexed } }

/-- `decode_arg_mem`. The base and the offset are decoded into a local argument. -/
def decodeArgMem (db : Db) (stale : Argument) (o : Operand) (node : DbMem) : Bool × Operand :=
  let a := ((o.argument.put Cell.memRegoff Register.none).put Cell.memImmoffDatatype
    Datatype.none.code).put Cell.memImmoffValue 0
  let base := decodeAnynymousImmreg db ⟨o.internal, localArgument stale⟩ (.base node.base)
  if !base.1 then (false, ⟨base.2.internal, a⟩)
  else
    let arg := base.2.argument
    let a := (a.put Cell.memBase (arg.get Cell.regValue)).put Cell.memAddressSize arg.size
    match node.regoff with
    | none => (true, finishMem ⟨base.2.internal, a⟩ node)
    | some regoff =>
        let off := decodeAnynymousImmreg db base.2 (.offset regoff)
        if !off.1 then (false, ⟨off.2.internal, a⟩)
        else (true, finishMem ⟨off.2.internal, takeOffset a off.2.argument⟩ node)

/-- The loop of `decode_arg_vlist`. -/
def fillList (first last : Nat) : Nat → Nat → Nat → Argument → Argument
  | 0, _, _, a => a
  | count + 1, i, base, a =>
      let next := base + 1
      fillList first last count (i + 1) (if next = 1 + last then first else next)
        (a.put (Cell.listRegister i) base)

/-- The first and the last register of the classes a list is made of. -/
def listBoundary : Symbol → Option (Nat × Nat)
  | .vecreg => some (Register.v0, Register.v31)
  | .svereg => some (Register.z0, Register.z31)
  | _ => none

/-- `decode_arg_vlist`. -/
def decodeArgVlist (db : Db) (o : Operand) (node : DbList) : Bool × Operand :=
  (decodeAnynymousImmreg db o (.base node.base) |> Operand.andThen) fun o =>
    let count := node.count.value.toNat % 2 ^ 16
    let base := o.argument.get Cell.regValue
    match listBoundary (db.reginfo base).symbol with
    | none => (false, o)
    | some (first, last) =>
        let a := o.argument.put Cell.listIndex (o.argument.get Cell.regIndex)
        let a := fillList first last count 0 base a
        (true, { o with argument := { a.put Cell.listCount count with type := .list } })

/-- `decode_arg_elist`. -/
def decodeArgElist (db : Db) (o : Operand) (node : DbList) : Bool × Operand :=
  (decodeArgVlist db o node |> Operand.andThen) fun o =>
    (true, { o with argument := { o.argument with attributes.isVector := false } })

/-! ## Enumerations -/

/-- `decode_arm_barrier`. -/
def decodeArmBarrier : Nat → Nat
  | 15 => 1 | 14 => 2 | 13 => 4 | 11 => 5 | 10 => 6 | 9 => 7 | 7 => 8 | 6 => 9 | 5 => 10
  | 3 => 11 | 2 => 12 | 1 => 13
  | _ => 0

/-- `decode_prf_op`. -/
def decodePrfOp : Nat → Nat
  | 0x00 => 1 | 0x01 => 2 | 0x02 => 3 | 0x03 => 4 | 0x04 => 5 | 0x05 => 6
  | 0x08 => 13 | 0x09 => 14 | 0x0a => 15 | 0x0b => 16 | 0x0c => 17 | 0x0d => 18
  | 0x10 => 7 | 0x11 => 8 | 0x12 => 9 | 0x13 => 10 | 0x14 => 11 | 0x15 => 12
  | _ => 0

def EnumType.argumentType : EnumType → ArgumentType
  | .atOp => .atOp
  | .dcOp => .dcOp
  | .icOp => .icOp
  | .tlbiOp => .tlbiOp
  | .syncOp => .syncOp
  | .ctxOp => .ctxOp
  | .prfOp => .prfOp
  | .btiOp => .btiOp
  | .pstatefield => .pstatefield
  | .barrier => .barrier
  | .cond => .condition
  | .cspace => .cspace
  | .pattern => .pattern

/-- The value of an enumeration that no table gives, and whether it has a name. -/
def plainEnum (type : EnumType) (value : BitVec 32) : BitVec 32 × Bool :=
  let named (token : Nat) := if token = 0 then (value, false) else (BitVec.ofNat 32 token, true)
  match type with
  | .cspace | .cond => if value.toNat ≤ 0x0f then (value + 1, true) else (value, false)
  | .prfOp => named (decodePrfOp value.toNat)
  | .barrier => named (decodeArmBarrier value.toNat)
  | _ => (value, false)

/-- The value of an enumeration and whether it has a name; none where its table fails. -/
def enumValue (type : EnumType) (node : DbAny) (raw : BitVec 32) : Option (BitVec 32 × Bool) :=
  if node.hasEncodedin then
    match node.table with
    | some table => (lookupTv table raw).map fun tv => (tv.value, tv.isRepresentable)
    | none => some (plainEnum type raw)
  else some (node.value, true)

/-- `decode_arg_enum`. -/
def decodeArgEnum (db : Db) (o : Operand) (type : EnumType) (node : DbAny) : Bool × Operand :=
  let (raw, _) := readEncodedinValue (db.encodedins node.encodedin) o.internal.opcode
  let a := { o.argument.put Cell.imm 0 with datatype := .u8 }
  let a := if node.hasEncodedin then a.put Cell.immWord raw.toNat else a
  match enumValue type node raw with
  | none => (false, { o with argument := a })
  | some (value, isRepresentable) =>
      (true, { o with argument := { a.put Cell.token value.toNat with
        type := type.argumentType
        attributes.read := true
        attributes.isRepresentable := isRepresentable } })

/-- `decode_arg_invcond`. -/
def decodeArgInvcond (db : Db) (o : Operand) (node : DbAny) : Bool × Operand :=
  let (value, _) := readEncodedinValue (db.encodedins node.encodedin) o.internal.opcode
  let token := (value ^^^ 1) + BitVec.ofNat 32 Condition.eq
  (true, { o with argument := { o.argument.put Cell.token token.toNat with
    type := .condition
    attributes.isRepresentable := true
    attributes.read := true } })

/-- `decode_arg_patternsh`. -/
def decodeArgPatternsh (db : Db) (o : Operand) (node : DbOpsh DbAny) : Bool × Operand :=
  (decodeArgEnum db o .pattern node.op |> Operand.andThen) fun o =>
    decodeArgShifter db o node.shifter

/-- `decode_arg_sysreg`. -/
def decodeArgSysreg (o : Operand) (node : DbAny) : Bool × Operand :=
  let opcode := o.internal.opcode.toNat
  let a := o.argument.put Cell.sysregOp0 (if opcode.testBit 19 then 3 else 2)
  let a := a.put Cell.sysregOp1 (opcode / 2 ^ 16 % 8)
  let a := a.put Cell.sysregOp2 (opcode / 2 ^ 5 % 8)
  let a := a.put Cell.sysregCm (1 + opcode / 2 ^ 8 % 16)
  let a := a.put Cell.sysregCn (1 + opcode / 2 ^ 12 % 16)
  (true, { o with argument := { a with
    type := .sysregEncoding
    attributes.read := node.read
    attributes.write := node.write } })

/-- The argument `decode_node` starts with. -/
def clearArgument (a : Argument) : Argument :=
  { a with
    shifter.type := .none
    attributes := { isRepresentable := true }
    printer := {} }

/-- `decode_node`. -/
def decodeNode (db : Db) (stale : Argument) (o : Operand) (node : DbNode) : Bool × Operand :=
  let o := { o with argument := clearArgument o.argument }
  match node with
  | .enum type node => decodeArgEnum db o type node
  | .invcond node => decodeArgInvcond db o node
  | .sysreg node => decodeArgSysreg o node
  | .reg node => decodeArgReg db o node
  | .regsh node => decodeArgRegsh db o node
  | .vreg node => decodeArgVreg db o node
  | .ereg node => decodeArgEreg db o node
  | .preg node => decodeArgPreg db o node
  | .vlist node => decodeArgVlist db o node
  | .elist node => decodeArgElist db o node
  | .patternsh node => decodeArgPatternsh db o node
  | .fpimm node => decodeArgFpimm db o node
  | .imm node => decodeArgImm db o node
  | .immsh node => decodeArgImmsh db o node
  | .label node => decodeArgLabel db o node
  | .mem node => decodeArgMem db stale o node
  | .other => (false, o)

end Amed.AArch64

import Amed.AArch32.Db

/-!
# AArch32 operands

The `decode_arg_*` functions of the AArch32 decoder.

## Implementation notes

Every function takes the state and the argument it fills and returns whether it succeeded with
both of them. The base and the offset of a memory operand are decoded into the argument itself.
A shift that the table of standard shifts has no entry for reads behind it in C; it is its last
entry here.
-/

namespace Amed.AArch32

/-! ## Values -/

/-- Where the value of a node comes from. -/
inductive Definition
  | value | encodedin | table
  deriving DecidableEq, Repr

/-- What `decode_any` returns. -/
structure Decoded where
  definition : Definition
  value : BitVec 32
  size : Nat
  deriving Repr

/-- The raw value of an encoded node. -/
def rawValue (db : Db) (opcode : BitVec 32) (node : DbAny) : BitVec 32 :=
  (readEncodedinValue (db.encodedins node.encodedin) opcode).1

/-- `decode_any`; none is its failure. -/
def decodeAny (db : Db) (opcode : BitVec 32) (node : DbAny) : Option Decoded :=
  if node.hasEncodedin then
    let (raw, size) := readEncodedinValue (db.encodedins node.encodedin) opcode
    match node.table with
    | none => some ⟨.encodedin, raw, size⟩
    | some table => (lookupTv table raw).map fun tv => ⟨.table, tv.value, size⟩
  else some ⟨.value, node.value, 0⟩

/-- `decode_register_value`. -/
def decodeRegisterValue (raw : BitVec 32) : Symbol → Nat
  | .gpr32 => Register.r0 + raw.toNat
  | .simd32 => Register.s0 + raw.toNat
  | .simd64 => Register.d0 + raw.toNat
  | .simd128 => Register.q0 + raw.toNat / 2
  | _ => Register.none

/-- `decode_a32_imm`. -/
def decodeA32Imm (imm12 : BitVec 32) : BitVec 32 :=
  ror (imm12 &&& 0xff) (imm12.toNat / 2 ^ 8 % 2 ^ 4 * 2)

/-- `decode_t32_imm`. -/
def decodeT32Imm (imm12 : BitVec 32) : BitVec 32 :=
  let imm8 := imm12 &&& 0xff
  if imm12 &&& 0xc00 = 0 then
    match imm12.toNat / 2 ^ 8 % 4 with
    | 0 => imm8
    | 1 => imm8 ||| imm8 <<< 16
    | 2 => imm8 <<< 8 ||| imm8 <<< 24
    | _ => imm8 ||| imm8 <<< 8 ||| imm8 <<< 16 ||| imm8 <<< 24
  else ror (imm12 &&& 0x7f ||| 0x80) (imm12.toNat / 2 ^ 7 % 2 ^ 5)

/-! ## Registers -/

namespace Operand

/-- Go on after a success. -/
def andThen (r : Bool × Operand) (next : Operand → Bool × Operand) : Bool × Operand :=
  if r.1 then next r.2 else r

/-- Set attribute bits of the instruction. -/
def mark (o : Operand) (f : InsnAttributes → InsnAttributes) : Operand :=
  { o with internal := { o.internal with
    insn := { o.internal.insn with attributes := f o.internal.insn.attributes } } }

end Operand

/-- The register of a node, its record, and whether it is unpredictable. -/
def registerOf (db : Db) (opcode : BitVec 32) (node : DbAny) : Nat × DbReginfo × Bool :=
  if node.hasEncodedin then
    let value := decodeRegisterValue (rawValue db opcode node) node.symbol
    let last := node.pair && (db.reginfo value).isLast
    let value := if node.pair && !last then value + 1 else value
    let info := db.reginfo value
    (value, info, last || (node.even && !info.isEven))
  else (node.value.toNat, db.reginfo node.value.toNat, false)

/-- The bits that `decode_arg_reg` sets for the program counter. -/
def markPc (node : DbAny) (a : InsnAttributes) : InsnAttributes :=
  let a := { a with
    isDeprecated := a.isDeprecated || node.dpc
    isUnpredictable := a.isUnpredictable || node.upc }
  if node.iwb || node.erb then { a with mayBranch := true }
  else if node.write then { a with mayBranch := true, isUnpredictable := true }
  else a

/-- The end of `decode_arg_reg`. -/
def finishReg (o : Operand) (node : DbAny) : Operand :=
  let value := o.argument.get Cell.regValue
  let dstReg := if node.write then value else o.internal.dstReg
  let o := { o with internal := { o.internal with dstReg := dstReg } }
  o.mark fun a => { a with isDestructive := a.isDestructive || (node.read && dstReg = value) }

/-- `decode_arg_reg`. -/
def decodeArgReg (db : Db) (o : Operand) (node : DbAny) : Bool × Operand :=
  let (value, info, unpredictable) := registerOf db o.internal.opcode node
  let o := o.mark fun a => { a with isUnpredictable := a.isUnpredictable || unpredictable }
  let o := { o with argument := { o.argument.put Cell.regValue value with
    type := .register
    size := info.size
    numberOfElements := 1
    datatype := if node.datatype ≠ .none then node.datatype else info.datatype
    printer.printDatatype := node.dtRequired
    attributes.read := node.read
    attributes.write := node.write } }
  if value = Register.pc then
    if node.nopc then (false, o) else (true, finishReg (o.mark (markPc node)) node)
  else if value = Register.sp ∧ node.nosp = true then (false, o)
  else (true, finishReg o node)

/-- `decode_arg_vreg`. -/
def decodeArgVreg (db : Db) (o : Operand) (node : DbAny) : Bool × Operand :=
  (decodeArgReg db o node |> Operand.andThen) fun o =>
    let o := o.mark fun a => { a with isVector := true }
    (true, { o with argument := { o.argument with attributes.isVector := true } })

/-- `decode_arg_ereg`. -/
def decodeArgEreg (db : Db) (o : Operand) (node : DbEreg) : Bool × Operand :=
  (decodeArgReg db o node.reg |> Operand.andThen) fun o =>
    match decodeAny db o.internal.opcode node.idx with
    | none => (false, o)
    | some idx =>
        (true, { o with argument := { o.argument.put Cell.regIndex idx.value.toNat with
          attributes.hasIndex := true } })

/-- Whether the register of `decode_arg_wreg` is written back. -/
def writesBack (db : Db) (opcode : BitVec 32) (node : DbAny) (register : Nat) : Bool :=
  if node.hasEncodedin then
    let raw := rawValue db opcode node
    if node.symbol = .wback16 then !raw.getLsbD (register - Register.r0) else raw ≠ 0
  else node.value ≠ 0

/-- `decode_arg_wreg`. -/
def decodeArgWreg (db : Db) (o : Operand) (node : DbWreg) : Bool × Operand :=
  (decodeArgReg db o node.reg |> Operand.andThen) fun o =>
    let register := o.argument.get Cell.regValue
    let writeBack := writesBack db o.internal.opcode node.wback register
    let o := { o with argument := { o.argument with attributes.writeBack := writeBack } }
    if writeBack && register = Register.pc then
      (true, o.mark fun a => { a with mayBranch := true, isUnpredictable := true })
    else (true, o)

/-- `std_shift`. -/
def stdShift : Nat → Shift
  | 0 => .lsl
  | 1 => .lsr
  | 2 => .asr
  | _ => .ror

/-- The amount of an immediate shifter, with the encodings of 32 and of `RRX`. -/
def shiftAmount (shift : Nat) (amount : Option Decoded) : Nat × Nat × Bool :=
  match amount with
  | some ⟨.encodedin, 0, _⟩ =>
      if shift = Shift.asr.code ∨ shift = Shift.lsr.code then (shift, 32, true)
      else if shift = Shift.ror.code then (Shift.rrx.code, 0, false)
      else (shift, 0, true)
  | some decoded => (shift, decoded.value.toNat, true)
  | none => (shift, 0, true)

/-- `decode_arg_shifter`. -/
def decodeArgShifter (db : Db) (o : Operand) (node : DbShifter) : Bool × Operand :=
  let opcode := o.internal.opcode
  let a := { o.argument with
    shifter.isVisible := false
    shifter.hasAmount := false
    shifter.hasRegister := false }
  match decodeAny db opcode node.shift with
  | none => (false, { o with argument := a })
  | some decoded =>
      let shift :=
        if decoded.definition = .encodedin then (stdShift decoded.value.toNat).code
        else decoded.value.toNat
      let (shift, a) :=
        match node.amount with
        | none => (shift, a)
        | some (.rs rs) =>
            (shift, { a with
              shifter.hasRegister := true
              shifter.amount := (Register.r0 + (rawValue db opcode rs).toNat) % 2 ^ 16 })
        | some (.amount amount) =>
            let (shift, amount, hasAmount) := shiftAmount shift (decodeAny db opcode amount)
            (shift, { a with
              shifter.hasAmount := hasAmount
              shifter.amount := amount % 2 ^ 16 })
      (true, { o with argument := { a with
        shifter.type := .ofCode (shift % 2 ^ 8)
        attributes.hasShifter := true
        printer.printShifter := !(shift = Shift.lsl.code && a.shifter.amount = 0) } })

/-- `decode_arg_regsh`. -/
def decodeArgRegsh (db : Db) (o : Operand) (node : DbOpsh) : Bool × Operand :=
  (decodeArgReg db o node.op |> Operand.andThen) fun o => decodeArgShifter db o node.shifter

/-! ## Immediates and labels -/

/-- `decode_imm_width`. -/
def decodeImmWidth (mnemonic : Nat) (lsb value : BitVec 32) : BitVec 32 :=
  if mnemonic ∈ [Mnemonic.ubfx, Mnemonic.sbfx] then value + 1
  else if mnemonic ∈ [Mnemonic.bfc, Mnemonic.bfi] then value + 1 - lsb
  else value

/-- The value of an encoded immediate that the symbol does not treat apart. -/
def plainImm (node : DbAny) (value : BitVec 32) (nb : Nat) : BitVec 64 :=
  let imm := value.setWidth 64
  let imm := if node.signpos then signExtend64 imm (nb - 1) else imm
  if node.scale ≠ 0 then imm * node.scale.signExtend 64 else imm

/-- The cases of `decode_arg_imm` for an encoded value. -/
def decodeEncodedImm (o : Operand) (node : DbAny) (value : BitVec 32) (nb : Nat) :
    Bool × Operand :=
  let s := o.internal
  let a := o.argument
  let word (dt : Datatype) (imm : BitVec 32) : Bool × Operand :=
    (true, { o with argument := { a.put Cell.immWord imm.toNat with datatype := dt } })
  match node.symbol with
  | .width => word .u8 (decodeImmWidth s.insn.mnemonic s.lsb value)
  | .lsb =>
      (true,
        { internal := { s with lsb := value }
          argument := { a.put Cell.immWord value.toNat with datatype := .u8 } })
  | .aimm => word .i32 (decodeA32Imm value)
  | .timm => word .i32 (decodeT32Imm value)
  | .vfpimm =>
      let (ok, imm) := decodeVfpImm value
      (ok, { o with argument := { a.put Cell.imm imm.toNat with datatype := node.datatype } })
  | .advimm =>
      let (imm, dt) := decodeAdvsimdImm value
      (true, { o with argument := { a.put Cell.imm imm.toNat with datatype := dt } })
  | .shiftLeft => word node.datatype (value - node.arg0)
  | .fbitsRight | .shiftRight => word node.datatype (node.arg0 - value)
  | _ =>
      (true, { o with argument := { a.put Cell.imm (plainImm node value nb).toNat with
        datatype := node.datatype } })

/-- `decode_arg_imm`. -/
def decodeArgImm (db : Db) (o : Operand) (node : DbAny) : Bool × Operand :=
  let o := { o with argument := { o.argument.put Cell.imm 0 with type := .immediate } }
  let constant (value : BitVec 32) : Bool × Operand :=
    (true, { o with argument := { o.argument.put Cell.immWord value.toNat with
      datatype := node.datatype } })
  match decodeAny db o.internal.opcode node with
  | some ⟨.encodedin, value, nb⟩ => decodeEncodedImm o node value nb
  | some ⟨_, value, _⟩ => constant value
  | none => constant 0

/-- `decode_arg_immsh`. -/
def decodeArgImmsh (db : Db) (o : Operand) (node : DbOpsh) : Bool × Operand :=
  (decodeArgImm db o node.op |> Operand.andThen) fun o => decodeArgShifter db o node.shifter

/-- The value of a `labelj`, as the code puts it together. -/
def joinLabel (value : BitVec 32) (nb : Nat) : BitVec 32 :=
  let s := value >>> (nb - 1)
  let i1 := value >>> (nb - 2) &&& 1
  let i2 := value >>> (nb - 3) &&& 1
  let i1 : BitVec 32 := if i1 ^^^ s = 0 then 1 else 0
  let i2 : BitVec 32 := if i2 ^^^ s = 0 then 1 else 0
  value &&& ~~~((3 : BitVec 32) <<< (nb - 3)) ||| (i1 >>> (nb - 2) ||| i2 >>> (nb - 3))

/-- The end of `decode_arg_label` for the symbols `label` and `labelj`. -/
def signedLabel (node : DbAny) (value scale : BitVec 32) (nb : Nat) : BitVec 64 × Datatype :=
  let imm := value.setWidth 64
  if node.signpos then (signExtend64 imm (nb - 1) * scale.setWidth 64, .s32)
  else (imm * scale.setWidth 64, .u32)

/-- The offset of a label and its datatype; none for a symbol that is not one. -/
def labelOffset (node : DbAny) (value : BitVec 32) (nb : Nat) : Option (BitVec 64 × Datatype) :=
  let scale := if node.scale ≠ 0 then node.scale else 1
  match node.symbol with
  | .plabel => some ((value * scale).setWidth 64, .u32)
  | .nlabel => some (-(value * scale).setWidth 64, .s32)
  | .plabela => some ((decodeA32Imm value).setWidth 64, .u32)
  | .nlabela => some (-(decodeA32Imm value).setWidth 64, .s32)
  | .labelj => some (signedLabel node (joinLabel value nb) scale nb)
  | .label => some (signedLabel node value scale nb)
  | _ => none

/-- `decode_arg_label`. -/
def decodeArgLabel (db : Db) (o : Operand) (node : DbAny) : Bool × Operand :=
  let (value, nb) := readEncodedinValue (db.encodedins node.encodedin) o.internal.opcode
  let a := { o.argument.put Cell.imm 0 with type := .label, datatype := .u32 }
  match labelOffset node value nb with
  | none => (false, { o with argument := a })
  | some (imm, dt) => (true, { o with argument := { a.put Cell.imm imm.toNat with datatype := dt } })

/-! ## Memory -/

/-- `decode_anynymous_immreg`. -/
def decodeAnynymousImmreg (db : Db) (o : Operand) : DbImmReg → Bool × Operand
  | .base node | .regoff node => decodeArgReg db o node
  | .vbase node => decodeArgVreg db o node
  | .ebase node => decodeArgEreg db o node
  | .regoffsh node => decodeArgRegsh db o node
  | .immoff node => decodeArgImm db o node
  | .immoffsh node => decodeArgImmsh db o node

/-- `decode_mem_access`. -/
def decodeMemAccess (access : MemAccess) (a : InsnAttributes) : InsnAttributes :=
  match access with
  | .none | .unprivileged => a
  | .acquire | .loacquire => { a with isAcquiring := true }
  | .release | .lorelease => { a with isReleasing := true }
  | .atomic => { a with isAtomic := true }
  | .atomicRelease => { a with isAtomic := true, isReleasing := true }
  | .atomicAcquire => { a with isAtomic := true, isAcquiring := true }

/-- The value of an optional node; none where it fails. -/
def decodeOptional (db : Db) (opcode : BitVec 32) (node : Option DbAny) (absent : BitVec 32) :
    Option (BitVec 32) :=
  match node with
  | none => some absent
  | some node => (decodeAny db opcode node).map Decoded.value

/-- What the offset of a memory operand leaves in it. -/
def takeOffset (a : Argument) : Argument :=
  if a.type = .immediate then
    (a.put Cell.memImmoffDatatype a.datatype.code).put Cell.memImmoffValue (a.get Cell.imm)
  else a.put Cell.memRegoff (a.get Cell.regValue)

/-- The offset of a memory operand, with whether it is added. -/
def decodeOffset (db : Db) (o : Operand) (node : DbMem) : Bool × Operand × BitVec 32 :=
  match node.regoff with
  | none => (true, o, 1)
  | some regoff =>
      match decodeOptional db o.internal.opcode node.add 1 with
      | none => (false, o, 1)
      | some add =>
          let r := decodeAnynymousImmreg db o regoff
          if r.1 then (true, { r.2 with argument := takeOffset r.2.argument }, add)
          else (false, r.2, add)

/-- The end of `decode_arg_mem`. -/
def finishMem (o : Operand) (node : DbMem) (add align : BitVec 32) : Operand :=
  let a := { o.argument with
    type := .memory
    size := (node.size.getD 0).toNat
    attributes.read := node.read
    attributes.write := node.write
    attributes.writeBack := node.preIndexed || node.postIndexed
    attributes.isPostIndexed := node.postIndexed
    attributes.isPreIndexed := node.preIndexed
    attributes.isAdding := add = 1 }
  let o := { o with
    argument := (a.put Cell.memAlignement align.toNat).put Cell.memAddressSize 32 }
  o.mark fun attributes =>
    decodeMemAccess node.stacc (decodeMemAccess node.ldacc { attributes with
      mayLoad := attributes.mayLoad || node.read
      mayStore := attributes.mayStore || node.write })

/-- `decode_arg_mem`. -/
def decodeArgMem (db : Db) (o : Operand) (node : DbMem) : Bool × Operand :=
  let a := o.argument.put Cell.memRegoff Register.none
  let a := (a.put Cell.memImmoffDatatype Datatype.none.code).put Cell.memImmoffValue 0
  let a := (a.put Cell.memBroadcastingFrom 0).put Cell.memBroadcastingTo 0
  (decodeAnynymousImmreg db { o with argument := a } node.base |> Operand.andThen) fun o =>
    let o := { o with argument := o.argument.put Cell.memBase (o.argument.get Cell.regValue) }
    let r := decodeOffset db o node
    if r.1 then
      match decodeOptional db r.2.1.internal.opcode node.align 0 with
      | none => (false, r.2.1)
      | some align => (true, finishMem r.2.1 node r.2.2 align)
    else (false, r.2.1)

/-! ## Enumerations -/

def EnumType.argumentType : EnumType → ArgumentType
  | .cspace => .cspace
  | .pspace => .pspace
  | .cond => .condition
  | .endian => .endian
  | .syncOp => .syncOp
  | .barrier => .barrier
  | .bnkdreg | .specreg => .register

/-- The value of an enumeration and whether it has a name. -/
def enumValue (type : EnumType) (node : DbAny) (raw : BitVec 32) : BitVec 32 × Bool :=
  if node.hasEncodedin then
    match node.table with
    | some table =>
        match lookupTv table raw with
        | some tv => (tv.value, tv.isRepresentable)
        | none => (raw, false)
    | none =>
        match type with
        | .cond | .cspace | .pspace => (raw + 1, true)
        | _ => (raw, false)
  else (node.value, true)

/-- `decode_arg_enum`: it always reports success. -/
def decodeArgEnum (db : Db) (o : Operand) (type : EnumType) (node : DbAny) : Bool × Operand :=
  let raw := rawValue db o.internal.opcode node
  let a := { o.argument.put Cell.imm 0 with datatype := .u8 }
  let a := if node.hasEncodedin then a.put Cell.immWord raw.toNat else a
  let (value, isRepresentable) := enumValue type node raw
  (true, { o with argument := { a.put Cell.token value.toNat with
    type := type.argumentType
    attributes.read := true
    attributes.isRepresentable := isRepresentable } })

/-- `decode_arg_iflags`. -/
def decodeArgIflags (db : Db) (o : Operand) (node : DbAny) : Bool × Operand :=
  match decodeAny db o.internal.opcode node with
  | none => (false, o)
  | some decoded =>
      let o := { o with argument := { o.argument.put Cell.aifValue decoded.value.toNat with
        type := .aif
        attributes.read := true } }
      if decoded.value = 0 then
        let o := o.mark fun a => { a with isUnpredictable := true }
        (true, { o with argument := { o.argument with attributes.isRepresentable := false } })
      else (true, o)

/-- `decode_arg_sysreg`. -/
def decodeArgSysreg (db : Db) (o : Operand) (type : EnumType) (node : DbAny) : Bool × Operand :=
  (decodeArgEnum db o type node |> Operand.andThen) fun o =>
    let a := o.argument
    let a :=
      if a.attributes.isRepresentable then
        { a.put Cell.regValue (a.get Cell.token) with type := .register }
      else a
    (true, { o with argument := { a with
      attributes.read := node.read
      attributes.write := node.write } })

/-! ## Lists -/

/-- What every list of general registers has in common. -/
def generalList (a : Argument) (node : DbAny) (count : Nat) : Argument :=
  { a.put Cell.listCount count with
    type := .list
    datatype := if node.datatype ≠ .none then node.datatype else .i32
    numberOfElements := 1
    attributes.read := node.read
    attributes.write := node.write }

/-- `decode_arg_slist`. -/
def decodeArgSlist (db : Db) (o : Operand) (node : DbAny) : Bool × Operand :=
  let register :=
    if node.hasEncodedin then Register.r0 + (rawValue db o.internal.opcode node).toNat
    else node.value.toNat
  let a := o.argument.put (Cell.listRegister 0) register
  let a := generalList (a.put (Cell.listRegister 1) Register.none) node 1
  let branches := node.write && a.get (Cell.listRegister 0) = Register.pc
  (true, ({ o with argument := a } : Operand).mark fun attributes =>
    { attributes with mayBranch := attributes.mayBranch || branches })

/-- The positions of the bits that are set, the low one first. -/
def setBits (raw : BitVec 32) : List Nat := (List.range 32).filter fun i => raw.getLsbD i

/-- Store registers from slot `i` on. -/
def putRegisters : List Nat → Nat → Argument → Argument
  | [], _, a => a
  | register :: registers, i, a =>
      putRegisters registers (i + 1) (a.put (Cell.listRegister i) register)

/-- `decode_arg_glist`. -/
def decodeArgGlist (db : Db) (o : Operand) (node : DbAny) : Bool × Operand :=
  let raw := rawValue db o.internal.opcode node
  let registers := (setBits raw).map (· + Register.r0)
  let a := generalList (putRegisters registers 0 o.argument) node registers.length
  let branches := raw.getLsbD 15 && node.write
  (true, ({ o with argument := a } : Operand).mark fun attributes =>
    { attributes with mayBranch := attributes.mayBranch || branches })

/-- The loop of `decode_arg_fslist` and `decode_arg_fdlist`: the argument, how many registers it
stored, and whether it ran into the next class. -/
def fillRun (boundary : Nat) : Nat → Nat → Nat → Argument → Argument × Nat × Bool
  | 0, i, _, a => (a, i, false)
  | count + 1, i, base, a =>
      if base = boundary then (a, i, true)
      else fillRun boundary count (i + 1) (base + 1) (a.put (Cell.listRegister i) base)

/-- What `decode_arg_fslist` and `decode_arg_fdlist` do with the count `f` makes of the node's. -/
def decodeArgFlist (db : Db) (boundary : Nat) (f : Nat → Nat) (o : Operand) (node : DbFlist) :
    Bool × Operand :=
  (decodeArgReg db o node.base |> Operand.andThen) fun o =>
    match decodeAny db o.internal.opcode node.count with
    | none => (false, o)
    | some decoded =>
        let count := f decoded.value.toNat
        let (a, i, beyond) := fillRun boundary count 0 (o.argument.get Cell.regValue) o.argument
        let o := { o with argument := { a.put Cell.listCount i with
          type := .list
          numberOfElements := 1 } }
        (true, o.mark fun attributes => { attributes with
          isUnpredictable := attributes.isUnpredictable || count = 0 || beyond })

/-- `decode_arg_fslist`. -/
def decodeArgFslist (db : Db) (o : Operand) (node : DbFlist) : Bool × Operand :=
  decodeArgFlist db Register.d0 id o node

/-- `decode_arg_fdlist`: the count is encoded twice. -/
def decodeArgFdlist (db : Db) (o : Operand) (node : DbFlist) : Bool × Operand :=
  decodeArgFlist db Register.q0 (· / 2) o node

/-- The loop of `decode_arg_vlist`. -/
def fillVlist (base inc : BitVec 32) : Nat → Nat → BitVec 32 → Argument → Argument × Nat × Bool
  | 0, i, _, a => (a, i, false)
  | count + 1, i, j, a =>
      let reg := base + j
      if Register.q16 ≤ reg.toNat then (a, i, true)
      else fillVlist base inc count (i + 1) (j + inc) (a.put (Cell.listRegister i) reg.toNat)

/-- `decode_arg_vlist`. -/
def decodeArgVlist (db : Db) (o : Operand) (node : DbVlist) : Bool × Operand :=
  (decodeAnynymousImmreg db o node.base |> Operand.andThen) fun o =>
    match decodeAny db o.internal.opcode node.count with
    | none => (false, o)
    | some count =>
        match decodeAny db o.internal.opcode node.inc with
        | none => (false, o)
        | some inc =>
            let base := BitVec.ofNat 32 (o.argument.get Cell.regValue)
            let a := o.argument.put Cell.listIndex (o.argument.get Cell.regIndex)
            let (a, i, beyond) := fillVlist base inc.value count.value.toNat 0 0 a
            let o := { o with argument := { a.put Cell.listCount i with type := .list } }
            (true, o.mark fun attributes => { attributes with
              isUnpredictable := attributes.isUnpredictable || beyond })

/-! ## Nodes -/

/-- The argument `decode_node` starts with. -/
def clearArgument (a : Argument) : Argument :=
  { a with
    type := .none
    attributes := { isRepresentable := true }
    printer := {} }

/-- `decode_node`. -/
def decodeNode (db : Db) (o : Operand) (node : DbNode) : Bool × Operand :=
  let o := { o with argument := clearArgument o.argument }
  match node with
  | .xyz => (true, o)
  | .enum type node => decodeArgEnum db o type node
  | .sysreg type node => decodeArgSysreg db o type node
  | .reg node => decodeArgReg db o node
  | .vreg node => decodeArgVreg db o node
  | .ereg node => decodeArgEreg db o node
  | .wreg node => decodeArgWreg db o node
  | .regsh node => decodeArgRegsh db o node
  | .glist node => decodeArgGlist db o node
  | .slist node => decodeArgSlist db o node
  | .fslist node => decodeArgFslist db o node
  | .fdlist node => decodeArgFdlist db o node
  | .vlist node => decodeArgVlist db o node
  | .imm node => decodeArgImm db o node
  | .label node => decodeArgLabel db o node
  | .mem node => decodeArgMem db o node
  | .iflags node => decodeArgIflags db o node
  | .other => (false, o)

end Amed.AArch32

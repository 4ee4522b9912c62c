import Amed.Library.Search
import Amed.AArch32.Arguments

/-!
# Decoding one AArch32 instruction

`decode_nodes`, `decode_it`, `decode_conditional_execution`, `decode_template`, `decode_encoding`,
`decode_alias` and `amed_aarch32_decode_insn`.

## Implementation notes

`decode_it` writes the IT block of the caller's context, so the decoder returns the context. Of
the record `istruct` only `attributes` is initialised in C: the rest is `stale`, and what is not
written before it is read (`lsb` and `dst_reg`) keeps its value.
-/

namespace Amed.AArch32

open Search

/-! ## Templates -/

/-- The loop of `decode_nodes`, from slot `i` on. -/
def decodeNodesFrom (db : Db) : List DbNode → Nat → Internal → Bool × Internal
  | [], i, s =>
      (true, { s with insn := { s.insn.setArgument i
        { s.insn.arguments i with type := .none } with argumentCount := i } })
  | node :: nodes, i, s =>
      let r := decodeNode db ⟨s, s.insn.arguments i⟩ node
      let s := { r.2.internal with insn := r.2.internal.insn.setArgument i r.2.argument }
      if r.1 then decodeNodesFrom db nodes (i + 1) s else (false, s)

/-- `decode_nodes`. -/
def decodeNodes (db : Db) (s : Internal) : Bool × Internal :=
  decodeNodesFrom db (db.arguments (db.templates s.ptemplate).arguments) 0 s

/-- `get_it_op_from_mask`: the numbers of `AMED_AARCH32_IT_OP_*`. -/
def getItOpFromMask : Nat → Nat
  | 0x01 => 1 | 0x02 => 2 | 0x03 => 3 | 0x04 => 4 | 0x05 => 5 | 0x06 => 6 | 0x07 => 7
  | 0x09 => 8 | 0x0a => 9 | 0x0b => 10 | 0x0c => 11 | 0x0d => 12 | 0x0e => 13 | 0x0f => 14
  | _ => 0

/-- The number of instructions and the conditions that `decode_it` makes of a mask. -/
def itConditions (mask first : Nat) : Nat × List Nat :=
  let inverted := first ^^^ 1
  let pick (bit : Nat) := if mask.testBit bit then inverted else first
  if mask = 8 then (1, [first, Condition.al, Condition.al, Condition.al])
  else if mask % 8 = 4 then (2, [first, pick 3, Condition.al, Condition.al])
  else if mask % 4 = 2 then (3, [first, pick 3, pick 2, Condition.al])
  else if mask % 2 = 1 then (4, [first, pick 3, pick 2, pick 1])
  else (0, [first, Condition.al, Condition.al, Condition.al])

/-- `decode_it`. The conditions are bytes. -/
def decodeIt (s : Internal) : Internal :=
  let mask := s.opcode.toNat % 16
  let (count, conditions) := itConditions mask ((s.insn.arguments 0).get Cell.token)
  let nested := s.context.itblock.isIn
  let insn := s.insn
  { s with
    insn := { insn with
      attributes.isUnpredictable := insn.attributes.isUnpredictable || nested
      aarch32.condition := if nested then Condition.none else Condition.al
      aarch32.itOp := getItOpFromMask mask
      aarch32.itInsnCount := count }
    context.itblock := { s.context.itblock with
      isIn := true
      index := 0
      count := count
      conditions := fun i => conditions.getD i 0 % 2 ^ 8 } }

/-- The switch of `decode_conditional_execution`: whether the condition is allowed, the condition
that is stored, and whether running under it is unpredictable. -/
def checkCondition (rule : TemplateCondition) (condition : Nat) : Bool × Nat × Bool :=
  match rule with
  | .cond => (true, condition, false)
  | .uncond => (true, Condition.al, false)
  | .mustAl => (condition = Condition.al, condition, false)
  | .mustCond => (condition ≠ Condition.al, condition, false)
  | .mustNv =>
      if condition = Condition.nv then (true, Condition.al, false) else (false, condition, false)
  | .unpCond => (true, condition, condition < Condition.al)
  | .noNvUnpCond => (condition ≠ Condition.nv, condition, condition < Condition.al)
  | .noNv => (condition ≠ Condition.nv, condition, false)

/-- `decode_conditional_execution`. -/
def decodeConditionalExecution (db : Db) (s : Internal) (condition : Nat) : Internal :=
  let (ok, condition, unpredictable) := checkCondition (db.templates s.ptemplate).cond condition
  let insn := s.insn
  { s with insn := { insn with
    aarch32.condition := condition
    attributes.isUnpredictable := insn.attributes.isUnpredictable || unpredictable
    attributes.isUndefined := insn.attributes.isUndefined || !ok
    attributes.isRunningConditionally := condition < Condition.al } }

/-- The condition a Thumb instruction is decoded under. -/
def thumbCondition (itblock : ItBlock) : Nat :=
  if itblock.isIn then itblock.conditions itblock.index else Condition.al

/-- `decode_thumb_conditional_execution`. -/
def decodeThumbConditionalExecution (db : Db) (s : Internal) : Internal :=
  decodeConditionalExecution db s (thumbCondition s.context.itblock)

/-- `decode_arm_conditional_execution`. -/
def decodeArmConditionalExecution (db : Db) (s : Internal) : Internal :=
  decodeConditionalExecution db s (s.opcode.toNat / 2 ^ 28 + Condition.eq)

/-- The part of `decode_template` that decodes the condition. -/
def decodeExecution (db : Db) (s : Internal) : Internal :=
  if s.isArm then decodeArmConditionalExecution db s
  else if (db.templates s.ptemplate).iform = iformIt then decodeIt s
  else decodeThumbConditionalExecution db s

/-- The conditions of a template: its bit differences and its place in an IT block. -/
def conditionsHold (db : Db) (opcode : BitVec 32) (inItBlock : Bool) (template : Nat) : Bool :=
  let t := db.templates template
  bitdiffsHold t.bitdiffs (db.bitdiffs t.bitdiffs) opcode &&
    !(t.fit && (if t.init && !inItBlock then true else t.outit && inItBlock))

/-- The head of `decode_template`, behind the conditions. -/
def beginTemplate (db : Db) (s : Internal) : Internal :=
  let iform := (db.templates s.ptemplate).iform
  { s with insn := { s.insn with iform := iform, mnemonic := db.iform2mnem iform } }

/-- The tail of `decode_template`, behind the condition. -/
def finishTemplate (db : Db) (s : Internal) : Internal :=
  let e := db.encodings s.encoding
  let t := db.templates s.ptemplate
  let insn := s.insn
  { s with insn := { insn with
    page := e.page.toNat
    iclass := e.iclass
    cclass := e.cclass
    encoding := s.encoding % 2 ^ 16
    aarch32.pstate := db.iflags e.iflags
    aarch32.showQualifier := t.showqlf
    categories := e.categories
    exceptions := e.exceptions
    extensions := t.extensions
    archVariant := t.archVariant
    attributes.mayBranch :=
      insn.attributes.mayBranch || e.categories.getD 1 0 = Category.branch
    attributes.isConstructive :=
      insn.attributes.isConstructive || s.hasReg && !insn.attributes.isDestructive } }

/-- `decode_template`. -/
def decodeTemplate (db : Db) (template : Nat) (s : Internal) : Bool × Internal :=
  let s := { s with ptemplate := template }
  if conditionsHold db s.opcode (isInsnInItBlock s) template then
    let r := decodeNodes db (beginTemplate db s)
    if r.1 then (true, finishTemplate db (decodeExecution db r.2)) else r
  else (false, s)

/-! ## Encodings and aliases -/

/-- The templates of an encoding that `decode_encoding` tries. -/
def candidates (db : Db) (e : DbEncoding) : List Nat :=
  (List.range' e.firstTemplate e.templateCount).filter fun i => !(db.templates i).asmonly

/-- `decode_encoding`. -/
def decodeEncoding (db : Db) (encoding : Nat) (s : Internal) : Bool × Internal :=
  let e := db.encodings encoding
  let s := { s with encoding := encoding }
  if s.opcode &&& e.mask ≠ e.opcode then
    (false, { s with insn := { s.insn with attributes.isUndefined := true } })
  else tryEach (decodeTemplate db) (candidates db e) s

/-- The alias `decode_alias` selects. -/
def selectAlias (db : Db) (s : Internal) (encoding : Nat) : Option Nat :=
  (db.aliases (db.encodings encoding).aliases).find? fun palias =>
    s.opcode &&& (db.encodings palias).mask = (db.encodings palias).opcode &&
      db.aliascond (db.encodings palias).aliascond s.opcode (isInsnInItBlock s)

/-- `decode_alias`. -/
def decodeAlias (db : Db) (encoding : Nat) (s : Internal) : Bool × Internal :=
  match selectAlias db s encoding with
  | some palias => decodeEncoding db palias s
  | none => (false, s)

/-! ## Instructions -/

/-- `is_thumb16`. -/
def isThumb16 (opcode : BitVec 32) : Bool :=
  let op0 := opcode.toNat / 2 ^ 13 % 8
  let op1 := opcode.toNat / 2 ^ 11 % 4
  op0 ≠ 7 || (op0 = 7 && op1 = 0)

/-- The bytes of an instruction. -/
def Isa.length : Isa → Nat
  | .t16 => 2
  | .a32 | .t32 => 4

/-- The number in the `n` bytes at the address. -/
def readWord (ctx : Context) (n : Nat) : BitVec 32 :=
  BitVec.ofNat 32 (Bytes.leNat (Bytes.slice ctx.address 0 n))

/-- `length < sizeof(..)`: a negative length is a large number there. -/
def shorterThan (ctx : Context) (n : Nat) : Bool := 0 ≤ ctx.length && ctx.length < n

/-- The opcode at the address, for the instruction set it is looked up in. -/
def fetchOpcode (ctx : Context) : Option (Isa × BitVec 32) :=
  match ctx.machineMode with
  | .mode32 => if shorterThan ctx 4 then none else some (.a32, readWord ctx 4)
  | .thumb =>
      if shorterThan ctx 2 then none
      else if isThumb16 (readWord ctx 2) then some (.t16, readWord ctx 2)
      else if shorterThan ctx 4 then none
      else some (.t32, readWord ctx 4 <<< 16 ||| readWord ctx 4 >>> 16)
  | _ => none

/-- The instruction as the decoder starts to fill it. -/
def startInsn (insn : Insn) (length : Nat) : Insn := { insn with attributes := {}, length := length }

/-- The state `amed_aarch32_decode_insn` starts with. -/
def startState (ctx : Context) (stale : Internal) (insn : Insn) (isa : Isa)
    (opcode : BitVec 32) : Internal :=
  { stale with
    insn := startInsn insn isa.length
    context := ctx
    opcode := opcode
    isArm := isa = .a32
    hasReg := false }

/-- The alias step of `amed_aarch32_decode_insn` is wanted. -/
def wantsAlias (db : Db) (ctx : Context) (encoding : Nat) (s : Internal) : Bool :=
  ctx.decodeAliases && (db.encodings encoding).hasAlias &&
    !(s.insn.attributes.isUndefined || s.insn.attributes.isUnpredictable)

/-- The alias step of `amed_aarch32_decode_insn`. -/
def aliasStep (db : Db) (ctx : Context) (encoding : Nat) (s : Internal) : Internal :=
  if wantsAlias db ctx encoding s then
    let r := decodeAlias db encoding s
    if r.1 then { r.2 with insn := { r.2.insn with attributes.isAlias := true } } else r.2
  else s

/-- `amed_aarch32_decode_insn`, behind the fetch. -/
def decodeFetched (db : Db) (ctx : Context) (stale : Internal) (insn : Insn) (isa : Isa)
    (opcode : BitVec 32) : Bool × Internal :=
  let encoding := db.lookup isa opcode
  let r := decodeEncoding db encoding (startState ctx stale insn isa opcode)
  (r.1, if r.1 then aliasStep db ctx encoding r.2 else r.2)

/-- `amed_aarch32_decode_insn`, with the context it leaves. -/
def decodeInsn (db : Db) (ctx : Context) (stale : Internal) (insn : Insn) : Bool × Insn × Context :=
  if ctx.length = 0 then (false, insn, ctx)
  else
    match fetchOpcode ctx with
    | none => (false, startInsn insn 4, ctx)
    | some (isa, opcode) =>
        let r := decodeFetched db ctx stale insn isa opcode
        (r.1, r.2.insn, r.2.context)

end Amed.AArch32

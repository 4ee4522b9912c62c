import Amed.Library.Search
import Amed.AArch64.Arguments

/-!
# Decoding one AArch64 instruction

`decode_nodes`, `decode_template`, `decode_encoding`, `decode_alias` and
`amed_aarch64_decode_insn`.

## Implementation notes

`decode_template` is cut at the decoding of its arguments. Its loop over the templates of an
encoding tries them one after another, each in the state the rejected ones leave.
-/

namespace Amed.AArch64

open Search

/-- The loop of `decode_nodes`, from slot `i` on. -/
def decodeNodesFrom (db : Db) (stale : Argument) :
    List DbNode → Nat → Internal → Bool × Internal
  | [], i, s =>
      (true, { s with insn := { s.insn.setArgument i
        { s.insn.arguments i with type := .none } with argumentCount := i } })
  | node :: nodes, i, s =>
      let r := decodeNode db stale ⟨s, s.insn.arguments i⟩ node
      let s := { r.2.internal with insn := r.2.internal.insn.setArgument i r.2.argument }
      if r.1 then decodeNodesFrom db stale nodes (i + 1) s else (false, s)

/-- `decode_nodes`. -/
def decodeNodes (db : Db) (stale : Argument) (s : Internal) : Bool × Internal :=
  decodeNodesFrom db stale (db.arguments (db.templates s.ptemplate).arguments) 0 s

/-- `decode_condition`. -/
def decodeCondition (db : Db) (s : Internal) : Internal :=
  if (db.templates s.ptemplate).isCond then
    let cond := s.opcode.toNat % 16 + Condition.eq
    { s with insn := { s.insn with
      aarch64.condition := cond
      attributes.isRunningConditionally := cond < Condition.al } }
  else { s with insn := { s.insn with aarch64.condition := Condition.al } }

/-- The head of `decode_template`, behind the test on the bit differences. -/
def beginTemplate (db : Db) (s : Internal) : Internal :=
  let s := decodeCondition db s
  let iform := (db.templates s.ptemplate).iform
  { s with insn := { s.insn with iform := iform, mnemonic := db.iform2mnem iform } }

/-- The tail of `decode_template`, behind the arguments. -/
def finishTemplate (db : Db) (s : Internal) : Internal :=
  let e := db.encodings s.encoding
  let t := db.templates s.ptemplate
  let insn := s.insn
  { s with insn := { insn with
    page := e.page.toNat
    iclass := e.iclass
    cclass := e.cclass
    encoding := s.encoding % 2 ^ 16
    aarch64.pstate := db.iflags e.iflags
    categories := e.categories
    exceptions := e.exceptions
    extensions := t.extensions
    archVariant := t.archVariant
    attributes.mayBranch :=
      insn.attributes.mayBranch || e.categories.getD 1 0 = Category.branch
    attributes.isConstructive :=
      insn.attributes.isConstructive || s.hasReg && !insn.attributes.isDestructive } }

/-- The conditions of a template: its bit differences. -/
def conditionsHold (db : Db) (opcode : BitVec 32) (template : Nat) : Bool :=
  let t := db.templates template
  bitdiffsHold t.bitdiffs (db.bitdiffs t.bitdiffs) opcode

/-- `decode_template`. -/
def decodeTemplate (db : Db) (stale : Argument) (template : Nat) (s : Internal) :
    Bool × Internal :=
  let s := { s with ptemplate := template }
  if conditionsHold db s.opcode template then
    let r := decodeNodes db stale (beginTemplate db s)
    if r.1 then (true, finishTemplate db r.2) else r
  else (false, s)

/-- The templates of an encoding that `decode_encoding` tries. -/
def candidates (db : Db) (e : DbEncoding) : List Nat :=
  (List.range' e.firstTemplate e.templateCount).filter fun i => !(db.templates i).asmonly

/-- The state `decode_encoding` tries the templates in. -/
def enterEncoding (db : Db) (encoding : Nat) (s : Internal) : Internal :=
  { s with encoding := encoding, datasize := (db.encodings encoding).datasize * 2 ^ 5 }

/-- `decode_encoding`: the outcome of the loop over the templates is not looked at. -/
def decodeEncoding (db : Db) (stale : Argument) (encoding : Nat) (s : Internal) :
    Bool × Internal :=
  let e := db.encodings encoding
  let s := enterEncoding db encoding s
  if s.opcode &&& e.mask ≠ e.opcode then
    (false, { s with insn := { s.insn with attributes.isUndefined := true } })
  else (true, (tryEach (decodeTemplate db stale) (candidates db e) s).2)

/-- The alias `decode_alias` selects. -/
def selectAlias (db : Db) (opcode : BitVec 32) (encoding : Nat) : Option Nat :=
  (db.aliases (db.encodings encoding).aliases).find? fun palias =>
    opcode &&& (db.encodings palias).mask = (db.encodings palias).opcode &&
      db.aliascond (db.encodings palias).aliascond opcode

/-- `decode_alias`. -/
def decodeAlias (db : Db) (stale : Argument) (encoding : Nat) (s : Internal) :
    Bool × Internal :=
  match selectAlias db s.opcode encoding with
  | some palias => decodeEncoding db stale palias s
  | none => (false, s)

/-- The opcode at the address. -/
def fetchOpcode (ctx : Context) : BitVec 32 :=
  BitVec.ofNat 32 (Bytes.leNat (Bytes.slice ctx.address 0 4))

/-- The state `amed_aarch64_decode_insn` starts with. -/
def startState (ctx : Context) (insn : Insn) : Internal where
  insn := { insn with attributes := {}, length := 4 }
  context := ctx
  encoding := 0
  ptemplate := 0
  opcode := fetchOpcode ctx
  datasize := 0
  lsb := 0
  dstReg := 0
  hasReg := false

/-- The base decode of `amed_aarch64_decode_insn`. -/
def decodeBase (db : Db) (ctx : Context) (stale : Argument) (insn : Insn) : Bool × Internal :=
  decodeEncoding db stale (db.lookupA64 (fetchOpcode ctx)) (startState ctx insn)

/-- The base decode asks for the alias step. -/
def wantsAlias (db : Db) (ctx : Context) (s : Internal) : Bool :=
  ctx.decodeAliases && (db.encodings (db.lookupA64 (fetchOpcode ctx))).hasAlias &&
    !(s.insn.attributes.isUndefined || s.insn.attributes.isUnpredictable)

/-- The alias step of `amed_aarch64_decode_insn`. -/
def aliasStep (db : Db) (ctx : Context) (stale : Argument) (s : Internal) : Internal :=
  if wantsAlias db ctx s then
    let r := decodeAlias db stale (db.lookupA64 (fetchOpcode ctx)) s
    if r.1 then { r.2 with insn := { r.2.insn with attributes.isAlias := true } } else r.2
  else s

/-- `amed_aarch64_decode_insn`. -/
def decodeInsn (db : Db) (ctx : Context) (stale : Argument) (insn : Insn) : Bool × Insn :=
  if ctx.length = 0 then (false, insn)
  else
    let r := decodeBase db ctx stale insn
    (r.1, (if r.1 then aliasStep db ctx stale r.2 else r.2).insn)

end Amed.AArch64

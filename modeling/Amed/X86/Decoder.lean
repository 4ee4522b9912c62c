import Amed.X86.Arguments

/-!
# Decoding one x86 instruction

`decode_nodes`, `decode_template`, `decode_entry` and `amed_x86_decode_insn`.

## Implementation notes

`decode_entry` is cut at its phases: initialisation, the prefix loop, the opcode
fetch (`fetchOpcode`), the choice of a template (`selectTemplate`) and the decoding
of the chosen template (`decodeSelected`), which always reports success. The
uninitialised `x86_internal` on the stack is the argument `stale`.
-/

namespace Amed.X86

open Bytes

/-- `decode_nodes`, from slot `i` on. A node that leaves no type behind does not
use up its slot. -/
def decodeNodes (db : Db) (buf : Buffer) : List DbNode → Nat → Internal → Bool × Internal
  | [], i, s => (true, { s with insn.argumentCount := i })
  | node :: nodes, i, s =>
      match decodeNode db buf s i node with
      | (false, s) => (false, s)
      | (true, s) =>
          decodeNodes db buf nodes
            (if (s.insn.arguments i).type = .none then i else i + 1) s

/-- The functionality an F2 or F3 prefix has for a template. -/
def prefixFunctionality (lastFPrefix : Nat) (t : DbTemplate) : PrefixFunctionality :=
  if lastFPrefix = prefixF2 then
    if t.bound then .bnd
    else if t.xacquire then .xacquire
    else if t.repnz then .repnz
    else .none
  else if lastFPrefix = prefixF3 then
    if t.xrelease then .xrelease
    else if t.repz then .repz
    else if t.rep then .rep
    else .none
  else .none

/-- The head of `decode_template`, before the argument nodes. -/
def beginTemplate (db : Db) (s : Internal) : Internal :=
  let t := db.templates s.ptemplate
  let functionality := prefixFunctionality s.lastFPrefix t
  { s with
    insn.iform := t.iform
    insn.mnemonic := db.iform2mnem t.iform
    insn.attributes.isAtomic := t.lock && s.diagram.f0
    insn.attributes.isAcquiring :=
      s.insn.attributes.isAcquiring || functionality = .xacquire
    insn.attributes.isReleasing :=
      s.insn.attributes.isReleasing || functionality = .xrelease
    insn.x86.prefixFunctionality := functionality }

/-- `~AMED_X86_FEATURE_MASK`: every bit but the feature bits 25 to 30. -/
def notFeatureMask : BitVec 32 := ~~~(0x7e000000 : BitVec 32)

/-- The test of a template's bit differences. -/
def bitdiffFails (db : Db) (t : DbTemplate) (d : Diagram) : Bool :=
  let diff := db.bitdiffs t.bitdiffs
  d.hashcode &&& diff.mask &&& notFeatureMask ≠ diff.opcode

/-- The tail of `decode_template`, after the argument nodes. -/
def finishTemplate (db : Db) (s : Internal) : Internal :=
  let e := db.encodings s.encoding
  { s with
    insn.page := e.page
    insn.encoding := s.encoding
    insn.archVariant := e.isa
    insn.x86.iflags := db.iflags e.iflags
    insn.categories := e.categories
    insn.exceptions := e.exceptions
    insn.extensions := (s.insn.extensions.set 0 e.extension).set 1 0
    insn.attributes.mayBranch :=
      s.insn.attributes.mayBranch || e.categories.getD 1 0 = Category.branch
    insn.attributes.isConstructive :=
      s.insn.attributes.isConstructive ||
        s.diagram.hasModrm && !s.insn.attributes.isDestructive
    insn.attributes.isUnpredictable :=
      s.insn.attributes.isUnpredictable ||
        bitdiffFails db (db.templates s.ptemplate) s.diagram }

/-- `decode_template`. -/
def decodeTemplate (db : Db) (buf : Buffer) (s : Internal) : Bool × Internal :=
  let s := beginTemplate db s
  match decodeNodes db buf (db.arguments (db.templates s.ptemplate).arguments) 0 s with
  | (false, s) => (false, s)
  | (true, s) => (true, finishTemplate db s)

/-- The initialisation of `decode_entry`, up to the switch on the machine mode. -/
def initialise (features : BitVec 32) (s : Internal) : Internal :=
  { s with
    vfpc := 0
    mapidx := 0
    segment := 0
    lastFPrefix := 0
    hasBase := false
    hasIndex := false
    usesCompressedDisp := false
    vreg := none
    srcReg := none
    vmem := none
    diagram := s.diagram.clearAttributes.setHashcode features }

/-- The sizes and the long mode flag a machine mode sets. -/
def setMode (mode : MachineMode) (df : DefaultSizes) (s : Internal) : Internal :=
  { s with
    diagram := { s.diagram with
      longMode := mode = .mode64 || s.diagram.longMode
      asz := df.adsize
      osz := df.opsize } }

/-- Record the opcode byte. -/
def recordOpcode (s : Internal) (op : UInt8) : Internal :=
  { s.addBytecode .opcode [op] with diagram.opcode := op }

/-- The opcode fetch of `decode_entry`. A 3DNow opcode follows the ModRM byte and its
displacement; otherwise the byte behind the opcode is taken for a ModRM byte, and a
missing one for 0. -/
def fetchOpcode (db : Db) (buf : Buffer) (s : Internal) : Bool × Internal :=
  if s.mapidx = mapIdx0F0F then
    match buf.peekByte s.pc with
    | none => (false, s)
    | some modrm =>
        match decodeModrm db buf (s.setModrmField modrm) with
        | (false, s) => (false, s)
        | (true, s) =>
            match buf.peekByte s.pc with
            | none => (false, s)
            | some op => (true, recordOpcode (s.advance 1) op)
  else
    match buf.peekByte s.pc with
    | none => (false, s)
    | some op =>
        let s := s.advance 1
        (true, recordOpcode (s.setModrmField ((buf.peekByte s.pc).getD 0)) op)

/-- The size bits of the hashcode. -/
def Diagram.hashSizes (d : Diagram) : Diagram :=
  let d := { d with yasz := d.yasz || d.asz = 1 || d.asz = 2 }
  if d.enc = encodingNone then
    let osz := if d.w then 2 else d.osz
    { d with
      osz := osz
      zosz := d.zosz || osz = 0 || osz = 1
      yosz := d.yosz || osz = 1 || osz = 2
      len := osz % 4 }
  else { d with len := d.vl % 4 }

/-- The size override of the template, in long mode. -/
def Diagram.overrideSize (d : Diagram) (t : DbTemplate) : Diagram :=
  if d.longMode && d.osz ≠ 2 then
    if t.f64 then { d with osz := 2 }
    else if t.d64 then { d with osz := if d.p66 then 1 else 2 }
    else d
  else d

/-- Look the encoding and the template up and settle the operand size. -/
def selectTemplate (db : Db) (s : Internal) : Internal :=
  let d := s.diagram.hashSizes
  let index := db.lookup (s.mapidx + d.opcode.toNat) d.hashcode
  let iencoding := index / 2 ^ 16
  let itemplate := index % 2 ^ 16
  { s with
    encoding := iencoding
    ptemplate := itemplate
    diagram := d.overrideSize (db.templates itemplate)
    insn.attributes.isUndefined :=
      s.insn.attributes.isUndefined || (d.enc ≠ encodingNone && s.vfpc ≠ 0) || iencoding = 0 }

/-- Read the ModRM byte of the selected encoding, or clear the fields taken from the
byte behind the opcode. -/
def decodeRealModrm (db : Db) (buf : Buffer) (s : Internal) : Internal :=
  if (db.encodings s.encoding).hasModrm then
    if s.mapidx = mapIdx0F0F then s else (decodeModrm db buf s).2
  else { s with diagram := { s.diagram with mod := 0, reg := 0, rm := 0 } }

/-- The end of `decode_entry`; the outcomes of `decode_modrm` and `decode_template`
are not looked at. -/
def decodeSelected (db : Db) (buf : Buffer) (s : Internal) : Internal :=
  (decodeTemplate db buf (decodeRealModrm db buf s)).2

/-- `decode_entry`. -/
def decodeEntry (db : Db) (buf : Buffer) (mode : MachineMode) (features : BitVec 32)
    (s : Internal) : Bool × Internal :=
  let s := initialise features s
  match defaultSizes mode with
  | none => (false, s)
  | some df =>
      match fetchOpcode db buf (scanPrefixes buf df (setMode mode df s)) with
      | (false, s) => (false, s)
      | (true, s) => (true, decodeSelected db buf (selectTemplate db s))

/-- The buffer `amed_x86_decode_insn` sets up: the length keeps its low 8 bits. -/
def contextBuffer (ctx : Context) : Buffer where
  address := ctx.address
  nb := (ctx.length % 256).toNat
  nb_lt := by omega

/-- The state `amed_x86_decode_insn` starts `decode_entry` in. -/
def startState (stale : Internal) (insn : Insn) : Internal :=
  { stale with insn := { insn with attributes := {} }, pc := 0 }

/-- `amed_x86_decode_insn`, with the struct it leaves on the stack. -/
def decodeRun (db : Db) (ctx : Context) (stale : Internal) (insn : Insn) : Bool × Internal :=
  if ctx.length = 0 then (false, { stale with insn := insn })
  else
    let (ok, s) := decodeEntry db (contextBuffer ctx) ctx.machineMode ctx.features
      (startState stale insn)
    (ok, { s with insn.length := s.pc })

/-- `amed_x86_decode_insn`. -/
def decodeInsn (db : Db) (ctx : Context) (stale : Internal) (insn : Insn) : Bool × Insn :=
  let (ok, s) := decodeRun db ctx stale insn
  (ok, s.insn)

end Amed.X86

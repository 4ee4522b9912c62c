import Amed.AArch32.Decoder

/-!
# An excerpt of the generated AArch32 tables

The invalid record, the 16-bit `IT` and the 16-bit `NOP`. Every other opcode is a miss. Concrete
runs of the decoder use these tables.
-/

namespace Amed.AArch32.Excerpt

def encodings : Nat → DbEncoding
  | 192 => { opcode := 0xbf00, mask := 0xff00, iclass := 55, cclass := 118
             firstTemplate := 201, templateCount := 1, iflags := 18
             categories := [29, 15, 0, 0], exceptions := [2, 3, 0, 0], page := true }
  | 404 => { opcode := 0xbf00, mask := 0xffff, iclass := 46, cclass := 264
             firstTemplate := 448, templateCount := 1
             categories := [29, 43, 0, 0], page := true }
  | _ => { opcode := 0, mask := 0, firstTemplate := 0, templateCount := 1, page := true }

def templates : Nat → DbTemplate
  | 201 => { iform := iformIt, arguments := 346, cond := .unpCond }
  | 448 => { iform := 127, cond := .cond }
  | _ => { iform := 1, bitdiffs := 1 }

def encodedins : Nat → List DbEncodedin
  | 11 => [⟨0x0000000f, 4⟩]
  | 68 => [⟨0x000000f0, 4⟩]
  | _ => []

/-- The argument lists, by the index of their first node. -/
def arguments : Nat → List DbNode
  | 346 => [.xyz, .enum .cond { symbol := .other, hasEncodedin := true, encodedin := 68 }]
  | _ => []

/-- The tables of the excerpt. -/
def tables : Db where
  encodings := encodings
  templates := templates
  bitdiffs := fun _ => ⟨0, 0⟩
  encodedins := encodedins
  arguments := arguments
  aliases := fun _ => []
  reginfo := fun _ => { datatype := .none, size := 0, isEven := false, isLast := false }
  iform2mnem := fun iform => if iform = iformIt then 49 else if iform = 127 then 99 else 1
  iflags := fun _ => []
  aliascond := fun _ _ _ => false
  trees := fun isa =>
    match isa with
    | .t16 => .ifThen (.entry 0xff00 0xbf00 [])
        (.ifThen (.constraint 0x000f 0) (.leaf 192) (.ifThen (.entry 0x0070 0 []) (.leaf 404) .empty))
        .empty
    | .a32 | .t32 => .empty

/-- Memory that holds zeros. -/
def blank : Internal where
  insn := default
  context := default
  encoding := 0
  ptemplate := 0
  opcode := 0
  lsb := 0
  dstReg := 0
  isArm := false
  hasReg := false

/-- The address of 16-bit instructions that follow each other. -/
def addressOf (halfwords : List (BitVec 16)) : Nat → UInt8 := fun i =>
  UInt8.ofNat ((halfwords.getD (i / 2) 0).toNat / 256 ^ (i % 2))

/-- A Thumb context at 16-bit instructions, outside an IT block. -/
def contextOf (halfwords : List (BitVec 16)) : Context :=
  { (default : Context) with
    architecture := .aarch32
    machineMode := .thumb
    address := addressOf halfwords
    length := 2 * halfwords.length }

end Amed.AArch32.Excerpt

import Amed.AArch64.Decoder

/-!
# An excerpt of the generated AArch64 tables

The invalid record, `DUP (element)` with a scalar destination, and its alias `MOV`. Their four
templates are told apart by the lowest bit that is set in `imm5`; no template has `imm5` = 10000.
Every other opcode is a miss. Concrete runs of the decoder use these tables.
-/

namespace Amed.AArch64.Excerpt

def encodings : Nat → DbEncoding
  | 811 => { opcode := 0x5e000400, mask := 0xffe0fc00, iclass := 62, cclass := 445
             firstTemplate := 949, templateCount := 4, aliascond := 298, hasAlias := true
             categories := [0, 8, 0, 0], exceptions := [1, 15, 0, 0], page := true }
  | 1746 => { opcode := 0x5e000400, mask := 0xffe0fc00, iclass := 62, cclass := 1028
              firstTemplate := 3299, templateCount := 4, aliascond := 1
              categories := [0, 18, 0, 0], exceptions := [1, 15, 0, 0], page := true }
  | _ => { opcode := 0, mask := 0, firstTemplate := 0, templateCount := 1, page := true }

def templates : Nat → DbTemplate
  | 949 => { iform := 542, bitdiffs := 17, arguments := 1688 }
  | 950 => { iform := 543, bitdiffs := 18, arguments := 1691 }
  | 951 => { iform := 544, bitdiffs := 19, arguments := 1694 }
  | 952 => { iform := 545, bitdiffs := 20, arguments := 1697 }
  | 3299 => { iform := 1323, bitdiffs := 17, arguments := 1688 }
  | 3300 => { iform := 1324, bitdiffs := 18, arguments := 1691 }
  | 3301 => { iform := 1325, bitdiffs := 19, arguments := 1694 }
  | 3302 => { iform := 1326, bitdiffs := 20, arguments := 1697 }
  | _ => { iform := 1, bitdiffs := 1 }

def bitdiffs : Nat → DbBitdiff
  | 17 => ⟨0x00010000, 0x00010000⟩
  | 18 => ⟨0x00020000, 0x00030000⟩
  | 19 => ⟨0x00040000, 0x00070000⟩
  | 20 => ⟨0x00080000, 0x000f0000⟩
  | _ => ⟨0, 0⟩

def encodedins : Nat → List DbEncodedin
  | 1 => [⟨0x0000001f, 5⟩]
  | 3 => [⟨0x000003e0, 5⟩]
  | 97 => [⟨0x001e0000, 4⟩]
  | 99 => [⟨0x001c0000, 3⟩]
  | 101 => [⟨0x00180000, 2⟩]
  | 103 => [⟨0x00100000, 1⟩]
  | _ => []

/-- A scalar register and an element of `Vn`. -/
def dupArguments (scalar : Symbol) (datatype : Datatype) (vdt : Vdt) (idx : Nat) : List DbNode :=
  [.reg { symbol := scalar, datatype := datatype, write := true, hasEncodedin := true
          encodedin := 1 },
    .ereg { reg := { symbol := .vecreg, datatype := datatype, read := true, hasEncodedin := true
                     encodedin := 3 }
            vdt := vdt
            idx := { hasEncodedin := true, encodedin := idx } }]

/-- The argument lists, by the index of their first node. -/
def arguments : Nat → List DbNode
  | 1688 => dupArguments .simd8 .i8 .b 97
  | 1691 => dupArguments .simd16 .i16 .h 99
  | 1694 => dupArguments .simd32 .i32 .s 101
  | 1697 => dupArguments .simd64 .i64 .d 103
  | _ => []

def tables : Db where
  encodings := encodings
  templates := templates
  bitdiffs := bitdiffs
  encodedins := encodedins
  arguments := arguments
  aliases := fun i => if i = 298 then [1746] else []
  reginfo := fun _ => { symbol := .none, size := 0, isEven := false, isLast := false }
  iform2mnem := fun iform => if 1323 ≤ iform then 396 else if 542 ≤ iform then 497 else 1
  iflags := fun _ => []
  aliascond := fun i _ => i = 1
  a64 := .ifThen (.entry 0xffe0fc00 0x5e000400 []) (.leaf 811) .empty

/-- A context at four bytes. -/
def contextOf (b0 b1 b2 b3 : UInt8) (length : Int) (decodeAliases : Bool) : Context :=
  { (default : Context) with
    architecture := .aarch64
    machineMode := .mode64
    address := fun i => [b0, b1, b2, b3].getD i 0
    length := length
    decodeAliases := decodeAliases }

end Amed.AArch64.Excerpt

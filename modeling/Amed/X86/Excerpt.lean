import Amed.X86.Decoder

/-!
# An excerpt of the generated x86 tables

The entries of a few opcodes: `ADD` with a ModRM byte (01) and with an immediate (05),
`PUSH` (50), `HLT` (F4) and `PSHUFB` (0F38 00). Every other opcode is a miss. Concrete
runs of the decoder use these tables.
-/

namespace Amed.X86.Excerpt

/-- The argument lists, by the index of their first node. -/
def arguments : Nat → List DbNode
  | 27 =>
      [.reg { symbol := .gprv, read := true, write := true, hasEncodedin := true, value := 7 },
        .reg { symbol := .gprv, read := true, hasEncodedin := true, value := 6 }]
  | 30 =>
      [.mem { datatype := .sx, symbol := .other, size := -1, read := true, write := true
              hasEncodedin := true },
        .reg { symbol := .gprv, read := true, hasEncodedin := true, value := 6 }]
  | 57 =>
      [.reg { symbol := .axv, read := true, write := true, hasEncodedin := true, value := 3 },
        .imm { datatype := .sx, symbol := .other, size := -3, hasEncodedin := true, value := 14 }]
  | 914 =>
      [.reg { symbol := .gprv, read := true, hasEncodedin := true, value := 12 },
        .reg { symbol := .spa, read := true, write := true, suppressed := true
               hasEncodedin := true, value := 5 },
        .mem { datatype := .sx, size := -1, write := true, suppressed := true
               base := some { symbol := .spa, read := true, hasEncodedin := true, value := 5 } }]
  | 1629 =>
      [.reg { symbol := .mmxreg, read := true, write := true, hasEncodedin := true, value := 6 },
        .reg { symbol := .mmxreg, read := true, hasEncodedin := true, value := 7 }]
  | _ => []

def templates : Nat → DbTemplate
  | 33 => { iform := 17, bitdiffs := 2, arguments := 27 }
  | 34 => { iform := 20, bitdiffs := 3, arguments := 30, lock := true, xacquire := true
            xrelease := true }
  | 43 => { iform := 22, bitdiffs := 1, arguments := 57 }
  | 257 => { iform := 161, bitdiffs := 1 }
  | 671 => { iform := 308, bitdiffs := 1, arguments := 914, d64 := true }
  | 1936 => { iform := 1242, bitdiffs := 2, arguments := 1629 }
  | _ => {}

def encodings : Nat → DbEncoding
  | 19 => { iflags := 5, isa := 94, page := 7, categories := [29, 2, 4, 0], extension := 10
            hasModrm := true }
  | 24 => { iflags := 5, isa := 94, page := 7, categories := [29, 2, 4, 0], extension := 10 }
  | 137 => { isa := 94, page := 49, categories := [29, 0, 0, 0], extension := 10 }
  | 373 => { isa := 94, page := 99, categories := [29, 63, 0, 0], extension := 10 }
  | 1126 => { isa := 149, page := 461, categories := [62, 68, 0, 0], exceptions := [42, 0, 0, 0]
              extension := 60, hasModrm := true }
  | _ => {}

/-- The excerpt of `x86_lookup`. -/
def lookup (index : Nat) (hashcode : BitVec 32) : Nat :=
  match index with
  | 0x01 => if hashcode.getLsbD 0 then 19 * 2 ^ 16 + 33 else 19 * 2 ^ 16 + 34
  | 0x05 => 24 * 2 ^ 16 + 43
  | 0x50 => 373 * 2 ^ 16 + 671
  | 0xf4 => 137 * 2 ^ 16 + 257
  | 0x300 =>
      if hashcode.getLsbD 0 && !hashcode.getLsbD 14 then 1126 * 2 ^ 16 + 1936 else 0
  | _ => 0

def widths : Nat → DbWidth
  | 1 => ⟨16, 32, 64⟩
  | 2 => ⟨32, 32, 64⟩
  | 3 => ⟨16, 32, 32⟩
  | _ => ⟨0, 0, 0⟩

def bitdiffs : Nat → DbBitdiff
  | 1 => ⟨0x00000000, 0x00070000⟩
  | 2 => ⟨0x00000001, 0x00070001⟩
  | 3 => ⟨0x00000000, 0x00070001⟩
  | _ => ⟨0, 0⟩

def reginfoSize (register : Nat) : Nat :=
  if register = 0 then 0
  else if register < Register.ax then 8
  else if register < Register.eax then 16
  else if register < Register.rax then 32
  else if register < Register.es then 64
  else if register < Register.st0 then 16
  else if register < Register.mm0 then 80
  else 64

def iform2mnem : Nat → Nat
  | 17 | 20 | 22 => 7
  | 161 => 73
  | 308 => 166
  | 1242 => 674
  | _ => 0

/-- The tables of the excerpt. -/
def tables : Db where
  lookup := lookup
  encodings := encodings
  templates := templates
  arguments := arguments
  widths := widths
  reginfoSize := reginfoSize
  iform2mnem := iform2mnem
  bitdiffs := bitdiffs
  iflags := fun _ => []

/-- A buffer that holds the given bytes. -/
def bufferOf (bytes : List UInt8) (h : bytes.length < 256) : Buffer where
  address := fun i => bytes.getD i 0
  nb := bytes.length
  nb_lt := h

/-- A context for the given bytes, with the given length. -/
def contextOf (mode : MachineMode) (bytes : List UInt8) (length : Int) : Context :=
  { (default : Context) with
    architecture := .x86
    machineMode := mode
    address := fun i => bytes.getD i 0
    length := length }

end Amed.X86.Excerpt

import Amed.AArch32.MemoryPayload
import Amed.AArch32.Outcome

/-!
# The widths of bit fields

`BFC`, `BFI`, `SBFX` and `UBFX` name a field by its lowest bit and its width. The first two encode
the highest bit in place of the width, the others the width less one.

## Implementation notes

The rows of these instructions are those of the generated tables. They stand over an arbitrary
table, so that the results are about every other row as well.
-/

namespace Amed.AArch32

open BitFields

/-- The instructions on bit fields. -/
inductive Bitfield
  | bfc | bfi | sbfx | ubfx
  deriving DecidableEq, Repr

namespace Bitfield

/-! ## Rows -/

/-- An instruction in `A32` or in `T32`. -/
structure Row where
  bitfield : Bitfield
  thumb : Bool
  deriving DecidableEq, Repr

def mnemonic : Bitfield → Nat
  | bfc => Mnemonic.bfc
  | bfi => Mnemonic.bfi
  | sbfx => Mnemonic.sbfx
  | ubfx => Mnemonic.ubfx

def iform : Bitfield → Nat
  | bfc => 18
  | bfi => 19
  | sbfx => 182
  | ubfx => 296

def Row.encoding : Row → Nat
  | ⟨bfc, thumb⟩ => if thumb then 78 else 77
  | ⟨bfi, thumb⟩ => if thumb then 80 else 79
  | ⟨sbfx, thumb⟩ => if thumb then 540 else 539
  | ⟨ubfx, thumb⟩ => if thumb then 834 else 833

def Row.template : Row → Nat
  | ⟨bfc, thumb⟩ => if thumb then 85 else 84
  | ⟨bfi, thumb⟩ => if thumb then 87 else 86
  | ⟨sbfx, thumb⟩ => if thumb then 589 else 588
  | ⟨ubfx, thumb⟩ => if thumb then 905 else 904

def Row.arguments : Row → Nat
  | ⟨bfc, thumb⟩ => if thumb then 238 else 234
  | ⟨bfi, thumb⟩ => if thumb then 247 else 242
  | ⟨sbfx, thumb⟩ | ⟨ubfx, thumb⟩ => if thumb then 979 else 974

/-- The entries of `amed_aarch32_encodings_array`. -/
def encodings : Nat → Option DbEncoding
  | 77 => some { opcode := 0x07c0001f, mask := 0x0fe0007f, iclass := 15, cclass := 43
                 firstTemplate := 84, templateCount := 1, categories := [29, 5, 0, 0]
                 page := true }
  | 78 => some { opcode := 0xf36f0000, mask := 0xffff8020, iclass := 116, cclass := 44
                 firstTemplate := 85, templateCount := 1, categories := [29, 5, 0, 0]
                 page := true }
  | 79 => some { opcode := 0x07c00010, mask := 0x0fe00070, iclass := 15, cclass := 45
                 firstTemplate := 86, templateCount := 1, categories := [29, 34, 0, 0]
                 page := true }
  | 80 => some { opcode := 0xf3600000, mask := 0xfff08020, iclass := 116, cclass := 46
                 firstTemplate := 87, templateCount := 1, categories := [29, 34, 0, 0]
                 page := true }
  | 539 => some { opcode := 0x07a00050, mask := 0x0fe00070, iclass := 16, cclass := 350
                  firstTemplate := 588, templateCount := 1, categories := [29, 24, 60, 0]
                  page := true }
  | 540 => some { opcode := 0xf3400000, mask := 0xfff08020, iclass := 116, cclass := 351
                  firstTemplate := 589, templateCount := 1, categories := [29, 24, 60, 0]
                  page := true }
  | 833 => some { opcode := 0x07e00050, mask := 0x0fe00070, iclass := 16, cclass := 545
                  firstTemplate := 904, templateCount := 1, categories := [29, 24, 77, 0]
                  page := true }
  | 834 => some { opcode := 0xf3c00000, mask := 0xfff08020, iclass := 116, cclass := 546
                  firstTemplate := 905, templateCount := 1, categories := [29, 24, 77, 0]
                  page := true }
  | _ => none

/-- The entries of the templates array. -/
def templates : Nat → Option DbTemplate
  | 84 => some { iform := 18, arguments := 234, cond := .noNv }
  | 85 => some { iform := 18, arguments := 238, cond := .cond }
  | 86 => some { iform := 19, arguments := 242, cond := .noNv }
  | 87 => some { iform := 19, arguments := 247, cond := .cond }
  | 588 => some { iform := 182, arguments := 974, cond := .noNv }
  | 589 => some { iform := 182, arguments := 979, cond := .cond }
  | 904 => some { iform := 296, arguments := 974, cond := .noNv }
  | 905 => some { iform := 296, arguments := 979, cond := .cond }
  | _ => none

def encodedins : Nat → Option (List DbEncodedin)
  | 1 => some [⟨0x0000f000, 4⟩, ⟨0, 0⟩]
  | 3 => some [⟨0x000f0000, 4⟩, ⟨0, 0⟩]
  | 7 => some [⟨0x00000f00, 4⟩, ⟨0, 0⟩]
  | 11 => some [⟨0x0000000f, 4⟩, ⟨0, 0⟩]
  | 13 => some [⟨0x00000f80, 5⟩, ⟨0, 0⟩]
  | 21 => some [⟨0x000070c0, 5⟩, ⟨0, 0⟩]
  | 48 => some [⟨0x001f0000, 5⟩, ⟨0, 0⟩]
  | 50 => some [⟨0x0000001f, 5⟩, ⟨0, 0⟩]
  | _ => none

/-- A core register that is written. -/
def destination (encodedin : Nat) : DbAny :=
  { symbol := .gpr32, write := true, hasEncodedin := true, encodedin := encodedin, upc := true }

/-- A core register that is read. `BFI` does not take the program counter. -/
def source (encodedin : Nat) (nopc : Bool) : DbAny :=
  { symbol := .gpr32, read := true, hasEncodedin := true, encodedin := encodedin, nopc := nopc
    upc := !nopc }

def field (symbol : Symbol) (encodedin : Nat) : DbAny :=
  { symbol := symbol, datatype := .u8, hasEncodedin := true, encodedin := encodedin }

def reg4 : DbAny := source 3 false
def reg9 : DbAny := source 11 false
def reg32 : DbAny := destination 7
def reg33 : DbAny := destination 1
def reg34 : DbAny := source 11 true
def reg35 : DbAny := source 3 true
def imm7 : DbAny := field .lsb 13
def imm8 : DbAny := field .width 48
def imm9 : DbAny := field .lsb 21
def imm10 : DbAny := field .width 50

/-- The argument lists, by the index of their first node. -/
def arguments : Nat → Option (List DbNode)
  | 234 => some [.reg reg33, .imm imm7, .imm imm8]
  | 238 => some [.reg reg32, .imm imm9, .imm imm10]
  | 242 => some [.reg reg33, .reg reg34, .imm imm7, .imm imm8]
  | 247 => some [.reg reg32, .reg reg35, .imm imm9, .imm imm10]
  | 974 => some [.reg reg33, .reg reg9, .imm imm7, .imm imm8]
  | 979 => some [.reg reg32, .reg reg4, .imm imm9, .imm imm10]
  | _ => none

def mnemonics : Nat → Option Nat
  | 18 => some Mnemonic.bfc
  | 19 => some Mnemonic.bfi
  | 182 => some Mnemonic.sbfx
  | 296 => some Mnemonic.ubfx
  | _ => none

end Bitfield

/-- A table with the rows of the bit field instructions. -/
def Db.withBitfields (db : Db) : Db :=
  { db with
    encodings := fun i => (Bitfield.encodings i).getD (db.encodings i)
    templates := fun i => (Bitfield.templates i).getD (db.templates i)
    encodedins := fun i => (Bitfield.encodedins i).getD (db.encodedins i)
    arguments := fun i => (Bitfield.arguments i).getD (db.arguments i)
    iform2mnem := fun i => (Bitfield.mnemonics i).getD (db.iform2mnem i) }

namespace Bitfield

/-! ## Encoded fields -/

/-- The fields of the lowest bit. -/
def Row.lsbFields (row : Row) : List Field :=
  if row.thumb then [⟨12, 3⟩, ⟨6, 2⟩] else [⟨7, 5⟩]

/-- The fields of the highest bit, or of the width less one. -/
def Row.topFields (row : Row) : List Field :=
  if row.thumb then [⟨0, 5⟩] else [⟨16, 5⟩]

def Row.rdFields (row : Row) : List Field :=
  if row.thumb then [⟨8, 4⟩] else [⟨12, 4⟩]

def Row.rnFields (row : Row) : List Field :=
  if row.thumb then [⟨16, 4⟩] else [⟨0, 4⟩]

def Row.lsb (row : Row) (opcode : BitVec 32) : Nat := concat row.lsbFields opcode.toNat
def Row.top (row : Row) (opcode : BitVec 32) : Nat := concat row.topFields opcode.toNat
def Row.rd (row : Row) (opcode : BitVec 32) : Nat := concat row.rdFields opcode.toNat
def Row.rn (row : Row) (opcode : BitVec 32) : Nat := concat row.rnFields opcode.toNat

/-- The slot of the lowest bit: the width stands in the next one. -/
def slot : Bitfield → Nat
  | bfc => 1
  | bfi | sbfx | ubfx => 2

/-- The register nodes of an instruction. -/
def Row.registers (row : Row) : List DbAny :=
  let rd := if row.thumb then reg32 else reg33
  match row.bitfield with
  | bfc => [rd]
  | bfi => [rd, if row.thumb then reg35 else reg34]
  | sbfx | ubfx => [rd, if row.thumb then reg4 else reg9]

def Row.lsbNode (row : Row) : DbAny := if row.thumb then imm9 else imm7
def Row.topNode (row : Row) : DbAny := if row.thumb then imm10 else imm8

/-! ## Fields of the register -/

/-- What a width stands for. -/
def Describes (b : Bitfield) (lsb top width : Nat) : Prop :=
  match b with
  | bfc | bfi => top = lsb + width - 1
  | sbfx | ubfx => width = top + 1

/-- The lowest bit and the width name a field of the register, the encoded one. -/
structure Row.Names (row : Row) (opcode : BitVec 32) (lsb width : Nat) : Prop where
  lowest : lsb = row.lsb opcode
  pos : 1 ≤ width
  fits : width ≤ 32 - lsb
  describes : row.bitfield.Describes lsb (row.top opcode) width

/-- The encoded field is a field of the register. -/
def Row.InRange (row : Row) (opcode : BitVec 32) : Prop :=
  match row.bitfield with
  | bfc | bfi => row.lsb opcode ≤ row.top opcode
  | sbfx | ubfx => row.lsb opcode + row.top opcode ≤ 31

/-- A register of the instruction is the program counter. -/
def Row.UsesPc (row : Row) (opcode : BitVec 32) : Prop :=
  row.rd opcode = 15 ∨ (row.bitfield = sbfx ∨ row.bitfield = ubfx) ∧ row.rn opcode = 15

/-! ## Looking the rows up -/

variable (db : Db) (row : Row)

theorem withBitfields_encodings :
    ∃ opcode mask iclass cclass categories, db.withBitfields.encodings row.encoding =
      { opcode := opcode, mask := mask, iclass := iclass, cclass := cclass
        firstTemplate := row.template, templateCount := 1, categories := categories
        page := true } := by
  obtain ⟨b, thumb⟩ := row
  cases b <;> cases thumb <;> exact ⟨_, _, _, _, _, rfl⟩

theorem withBitfields_templates :
    db.withBitfields.templates row.template =
      { iform := row.bitfield.iform, arguments := row.arguments
        cond := if row.thumb then .cond else .noNv } := by
  obtain ⟨b, thumb⟩ := row
  cases b <;> cases thumb <;> rfl

theorem withBitfields_mnemonic (b : Bitfield) :
    db.withBitfields.iform2mnem b.iform = b.mnemonic := by
  cases b <;> rfl

theorem withBitfields_arguments :
    db.withBitfields.arguments row.arguments =
      row.registers.map .reg ++ [.imm row.lsbNode, .imm row.topNode] := by
  obtain ⟨b, thumb⟩ := row
  cases b <;> cases thumb <;> rfl

theorem length_registers : row.registers.length = row.bitfield.slot := by
  obtain ⟨b, thumb⟩ := row
  cases b <;> rfl

/-- A row of one piece. -/
theorem read_row {piece : DbEncodedin} {fs : List Field} (h : ReadsFields piece fs)
    (hwidth : totalWidth fs ≤ 32) (opcode : BitVec 32) :
    (readEncodedinValue [piece, ⟨0, 0⟩] opcode).1.toNat = concat fs opcode.toNat := by
  have hgroups : totalWidth [] + totalWidth [fs].flatten ≤ 32 := by
    rw [List.flatten_singleton]
    exact (Nat.zero_add _).symm ▸ hwidth
  have hread := (readPieces_eq (.cons h .nil) [] opcode [] hgroups 0 rfl).1
  rw [List.flatten_singleton] at hread
  exact hread

/-- A row of one field. -/
theorem read_field (mask : BitVec 32) (f : Field) (hmask : mask.toNat = f.mask)
    (hwidth : 0 < f.width) (hfit : f.pos + f.width ≤ 32) (opcode : BitVec 32) :
    (readEncodedinValue [⟨mask, f.width⟩, ⟨0, 0⟩] opcode).1.toNat = concat [f] opcode.toNat := by
  have htotal : totalWidth [f] = f.width := Nat.add_zero _
  refine read_row ⟨hwidth, htotal.symm, fun w => ?_⟩ (by omega) opcode
  rw [hmask, gather_mask hfit]
  simp [concat]

/-- The lowest bit in `T32`, `imm3:imm2`. -/
theorem readsFields_lsb : ReadsFields ⟨0x000070c0, 5⟩ [⟨12, 3⟩, ⟨6, 2⟩] := by
  refine ⟨by decide, by decide, fun w => ?_⟩
  have hmask : (0x000070c0 : BitVec 32).toNat =
      (⟨12, 3⟩ : Field).mask ||| (⟨6, 2⟩ : Field).mask := by
    decide
  rw [hmask, gather_or_mask (Field.below_mask (by decide)) (by decide), gather_mask (by decide)]
  simp [concat]

variable (opcode : BitVec 32)

theorem rawValue_lsb :
    (rawValue db.withBitfields opcode row.lsbNode).toNat = row.lsb opcode := by
  obtain ⟨b, thumb⟩ := row
  cases thumb with
  | false => exact read_field 0x00000f80 ⟨7, 5⟩ (by decide) (by decide) (by decide) opcode
  | true => exact read_row readsFields_lsb (by decide) opcode

theorem rawValue_top :
    (rawValue db.withBitfields opcode row.topNode).toNat = row.top opcode := by
  obtain ⟨b, thumb⟩ := row
  cases thumb with
  | false => exact read_field 0x001f0000 ⟨16, 5⟩ (by decide) (by decide) (by decide) opcode
  | true => exact read_field 0x0000001f ⟨0, 5⟩ (by decide) (by decide) (by decide) opcode

/-- The registers that are the program counter, of those that may be. -/
theorem usesPc_iff :
    (∃ node ∈ row.registers, node.upc = true ∧
        (rawValue db.withBitfields opcode node).toNat = 15) ↔ row.UsesPc opcode := by
  have hreg33 : (rawValue db.withBitfields opcode reg33).toNat = concat [⟨12, 4⟩] opcode.toNat :=
    read_field 0x0000f000 ⟨12, 4⟩ (by decide) (by decide) (by decide) opcode
  have hreg32 : (rawValue db.withBitfields opcode reg32).toNat = concat [⟨8, 4⟩] opcode.toNat :=
    read_field 0x00000f00 ⟨8, 4⟩ (by decide) (by decide) (by decide) opcode
  have hreg9 : (rawValue db.withBitfields opcode reg9).toNat = concat [⟨0, 4⟩] opcode.toNat :=
    read_field 0x0000000f ⟨0, 4⟩ (by decide) (by decide) (by decide) opcode
  have hreg4 : (rawValue db.withBitfields opcode reg4).toNat = concat [⟨16, 4⟩] opcode.toNat :=
    read_field 0x000f0000 ⟨16, 4⟩ (by decide) (by decide) (by decide) opcode
  have hmay : reg32.upc = true ∧ reg33.upc = true ∧ reg9.upc = true ∧ reg4.upc = true ∧
      reg34.upc = false ∧ reg35.upc = false := ⟨rfl, rfl, rfl, rfl, rfl, rfl⟩
  obtain ⟨b, thumb⟩ := row
  cases b <;> cases thumb <;>
    simp [Row.registers, Row.UsesPc, Row.rd, Row.rn, Row.rdFields, Row.rnFields, hreg33, hreg32,
      hreg9, hreg4, hmay]

end Bitfield

/-! ## Registers -/

/-- A core register in a row without pairs and write-back. -/
structure CoreRegister (node : DbAny) : Prop where
  symbol : node.symbol = .gpr32
  hasEncodedin : node.hasEncodedin = true
  pair : node.pair = false
  even : node.even = false
  iwb : node.iwb = false
  erb : node.erb = false
  writes : node.write = true → node.upc = true

variable {db : Db}

variable (db) in
theorem CoreRegister.registerOf_eq {node : DbAny} (h : CoreRegister node) (opcode : BitVec 32) :
    ∃ info, registerOf db opcode node =
      (Register.r0 + (rawValue db opcode node).toNat, info, false) := by
  refine ⟨db.reginfo (Register.r0 + (rawValue db opcode node).toNat), ?_⟩
  rw [registerOf, if_pos h.hasEncodedin, h.pair, h.even, h.symbol]
  rfl

/-- The program counter is unpredictable where the node says so. -/
theorem CoreRegister.afterNode_isUnpredictable {node : DbAny} (h : CoreRegister node)
    {s : Internal} (hdecodes : decodes db s.opcode (.reg node) = true) (i : Nat) :
    (afterNode db s i (.reg node)).insn.attributes.isUnpredictable =
      (s.insn.attributes.isUnpredictable ||
        decide (node.upc = true ∧ (rawValue db s.opcode node).toNat = 15)) := by
  obtain ⟨info, hof⟩ := h.registerOf_eq db s.opcode
  have hpc : Register.r0 + (rawValue db s.opcode node).toNat = Register.pc ↔
      (rawValue db s.opcode node).toNat = 15 := by
    simp only [Register.r0, Register.pc]
    omega
  change decodesReg db s.opcode node = true at hdecodes
  unfold decodesReg at hdecodes
  have hnode : (afterNode db s i (.reg node)).insn.attributes =
      (decodeArgReg db ⟨s, clearArgument (s.insn.arguments i)⟩ node).2.internal.insn.attributes :=
    rfl
  rw [hnode]
  unfold decodeArgReg
  dsimp only
  rw [hof] at hdecodes ⊢
  dsimp only at hdecodes ⊢
  by_cases hraw : (rawValue db s.opcode node).toNat = 15
  · rw [if_pos (hpc.mpr hraw)] at hdecodes ⊢
    have hnopc : node.nopc = false := by simpa using hdecodes
    rw [hnopc, if_neg Bool.false_ne_true]
    simp only [finishReg, Operand.mark, markPc, h.iwb, h.erb, hraw]
    cases hwrite : node.write with
    | true => simp [h.writes hwrite]
    | false => simp
  · rw [if_neg (mt hpc.mp hraw)] at hdecodes ⊢
    have hsp : ¬(Register.r0 + (rawValue db s.opcode node).toNat = Register.sp ∧
        node.nosp = true) := by
      rintro ⟨hvalue, hnosp⟩
      rw [hvalue, hnosp] at hdecodes
      exact absurd hdecodes (by decide)
    rw [if_neg hsp]
    simp [finishReg, Operand.mark, hraw]

/-- The registers in front of an instruction's other operands. -/
theorem decodeNodesFrom_registers {regs : List DbAny} (hregs : ∀ node ∈ regs, CoreRegister node)
    (rest : List DbNode) (i : Nat) {s : Internal}
    (hdecodes : ∀ node ∈ regs, decodes db s.opcode (.reg node) = true) :
    ∃ s', decodeNodesFrom db (regs.map .reg ++ rest) i s =
        decodeNodesFrom db rest (i + regs.length) s' ∧ Fills s s' ∧
      (s'.insn.attributes.isUnpredictable = true ↔ s.insn.attributes.isUnpredictable = true ∨
        ∃ node ∈ regs, node.upc = true ∧ (rawValue db s.opcode node).toNat = 15) := by
  induction regs generalizing i s with
  | nil => exact ⟨s, rfl, ⟨rfl, .refl _⟩, by simp⟩
  | cons node regs ih =>
      obtain ⟨hnode, hrest⟩ := List.forall_mem_cons.mp hregs
      obtain ⟨hdecoded, hdecodes⟩ := List.forall_mem_cons.mp hdecodes
      have hfills := afterNode_fills db s i (.reg node)
      have hmark := hnode.afterNode_isUnpredictable hdecoded i
      rw [← hfills.opcode] at hdecodes
      obtain ⟨s', hrun, hfills', hmark'⟩ := ih hrest (i + 1) hdecodes
      refine ⟨s', ?_, hfills.trans hfills', ?_⟩
      · rw [List.map_cons, List.cons_append, decodeNodesFrom_cons, if_pos hdecoded, hrun,
          List.length_cons, Nat.add_right_comm, Nat.add_assoc]
      · rw [hmark', hmark, hfills.opcode]
        simp [or_assoc]

/-! ## Immediates -/

theorem decodeNodesFrom_store {node : DbNode} {i : Nat} {s : Internal} {o : Operand}
    (h : decodeNode db ⟨s, s.insn.arguments i⟩ node = (true, o)) (nodes : List DbNode) :
    decodeNodesFrom db (node :: nodes) i s = decodeNodesFrom db nodes (i + 1) (o.store i) := by
  rw [decodeNodesFrom, h]
  rfl

/-- An encoded immediate without a table. -/
theorem decodeNode_imm {node : DbAny} (hencoded : node.hasEncodedin = true)
    (htable : node.table = none) (s : Internal) (a : Argument) :
    decodeNode db ⟨s, a⟩ (.imm node) =
      decodeEncodedImm ⟨s, { (clearArgument a).put Cell.imm 0 with type := .immediate }⟩ node
        (rawValue db s.opcode node)
        (readEncodedinValue (db.encodedins node.encodedin) s.opcode).2 := by
  change decodeArgImm db ⟨s, clearArgument a⟩ node = _
  unfold decodeArgImm decodeAny
  dsimp only
  rw [if_pos hencoded, htable]
  rfl

namespace Bitfield

variable (db) (row : Row) (s : Internal) (a : Argument)

theorem decodeNode_lsb :
    ∃ a', decodeNode db.withBitfields ⟨s, a⟩ (.imm row.lsbNode) =
        (true, ⟨{ s with lsb := rawValue db.withBitfields s.opcode row.lsbNode }, a'⟩) ∧
      a'.get Cell.imm = row.lsb s.opcode := by
  obtain ⟨hsymbol, hencoded, htable⟩ : row.lsbNode.symbol = .lsb ∧
      row.lsbNode.hasEncodedin = true ∧ row.lsbNode.table = none := by
    obtain ⟨b, thumb⟩ := row
    cases thumb <;> exact ⟨rfl, rfl, rfl⟩
  have hvalue := rawValue_lsb db row s.opcode
  rw [decodeNode_imm hencoded htable]
  generalize rawValue db.withBitfields s.opcode row.lsbNode = value at hvalue
  unfold decodeEncodedImm
  rw [hsymbol]
  refine ⟨_, rfl, ?_⟩
  have hword := get_imm_put_immWord (clearArgument a) value.toNat
  exact hword.trans ((Nat.mod_eq_of_lt value.isLt).trans hvalue)

theorem decodeNode_top :
    ∃ a', decodeNode db.withBitfields ⟨s, a⟩ (.imm row.topNode) = (true, ⟨s, a'⟩) ∧
      a'.get Cell.imm = (decodeImmWidth s.insn.mnemonic s.lsb
        (rawValue db.withBitfields s.opcode row.topNode)).toNat := by
  obtain ⟨hsymbol, hencoded, htable⟩ : row.topNode.symbol = .width ∧
      row.topNode.hasEncodedin = true ∧ row.topNode.table = none := by
    obtain ⟨b, thumb⟩ := row
    cases thumb <;> exact ⟨rfl, rfl, rfl⟩
  rw [decodeNode_imm hencoded htable]
  generalize rawValue db.withBitfields s.opcode row.topNode = value
  unfold decodeEncodedImm
  rw [hsymbol]
  refine ⟨_, rfl, ?_⟩
  have hword := get_imm_put_immWord (clearArgument a)
    (decodeImmWidth s.insn.mnemonic s.lsb value).toNat
  exact hword.trans (Nat.mod_eq_of_lt (BitVec.isLt _))

/-- The two immediates of an instruction. -/
theorem decodeNodesFrom_immediates (i : Nat) :
    ∃ s', decodeNodesFrom db.withBitfields [.imm row.lsbNode, .imm row.topNode] i s = (true, s') ∧
      (s'.insn.arguments i).get Cell.imm = row.lsb s.opcode ∧
      (s'.insn.arguments (i + 1)).get Cell.imm = (decodeImmWidth s.insn.mnemonic
        (rawValue db.withBitfields s.opcode row.lsbNode)
        (rawValue db.withBitfields s.opcode row.topNode)).toNat ∧
      s'.insn.attributes = s.insn.attributes := by
  obtain ⟨lsb, hlsb, hlsbValue⟩ := decodeNode_lsb db row s (s.insn.arguments i)
  let s₁ := Operand.store
    ⟨{ s with lsb := rawValue db.withBitfields s.opcode row.lsbNode }, lsb⟩ i
  obtain ⟨top, htop, htopValue⟩ := decodeNode_top db row s₁ (s₁.insn.arguments (i + 1))
  let s₂ := Operand.store ⟨s₁, top⟩ (i + 1)
  have hrun : decodeNodesFrom db.withBitfields [.imm row.lsbNode, .imm row.topNode] i s =
      decodeNodesFrom db.withBitfields [] (i + 2) s₂ :=
    (decodeNodesFrom_store hlsb _).trans (decodeNodesFrom_store htop _)
  have hbelow {j : Nat} (hj : j < i + 2) :
      (decodeNodesFrom db.withBitfields [] (i + 2) s₂).2.insn.arguments j = s₂.insn.arguments j :=
    decodeNodesFrom_below db.withBitfields [] (i + 2) s₂ hj
  refine ⟨_, hrun, ?_, ?_, rfl⟩
  · have hlow : s₂.insn.arguments i = lsb :=
      (s₁.insn.setArgument_other top (by omega)).trans (s.insn.setArgument_same i lsb)
    exact (congrArg (Amed.Argument.get · Cell.imm) ((hbelow (by omega)).trans hlow)).trans
      hlsbValue
  · have hhigh : s₂.insn.arguments (i + 1) = top := s₁.insn.setArgument_same (i + 1) top
    exact (congrArg (Amed.Argument.get · Cell.imm) ((hbelow (by omega)).trans hhigh)).trans
      htopValue

/-! ## One row -/

theorem candidates_row :
    candidates db.withBitfields (db.withBitfields.encodings row.encoding) = [row.template] := by
  obtain ⟨b, thumb⟩ := row
  cases b <;> cases thumb <;> rfl

theorem coreRegister_registers : ∀ node ∈ row.registers, CoreRegister node := by
  have hdestination (encodedin : Nat) : CoreRegister (destination encodedin) :=
    ⟨rfl, rfl, rfl, rfl, rfl, rfl, fun _ => rfl⟩
  have hsource (encodedin : Nat) (nopc : Bool) : CoreRegister (source encodedin nopc) :=
    ⟨rfl, rfl, rfl, rfl, rfl, rfl, nofun⟩
  obtain ⟨b, thumb⟩ := row
  cases b <;> cases thumb <;>
    simp [Row.registers, reg4, reg9, reg32, reg33, reg34, reg35, hdestination, hsource]

/-- The rules of these templates find nothing unpredictable. -/
theorem checkCondition_row (condition : Nat) :
    (checkCondition (db.withBitfields.templates row.template).cond condition).2.2 = false := by
  rw [withBitfields_templates]
  cases row.thumb <;> rfl

theorem leaveTemplate_row {s : Internal} (h : s.ptemplate = row.template) :
    (leaveTemplate db.withBitfields s).insn.arguments = s.insn.arguments ∧
      (leaveTemplate db.withBitfields s).insn.attributes.isUnpredictable =
        s.insn.attributes.isUnpredictable := by
  have hiform : (db.withBitfields.templates s.ptemplate).iform ≠ iformIt := by
    rw [h, withBitfields_templates]
    change row.bitfield.iform ≠ iformIt
    cases row.bitfield <;> decide
  have hcondition (condition : Nat) :
      (decodeConditionalExecution db.withBitfields s condition).insn.arguments =
          s.insn.arguments ∧
        (decodeConditionalExecution db.withBitfields s condition).insn.attributes.isUnpredictable =
          s.insn.attributes.isUnpredictable := by
    have hcheck := checkCondition_row db row condition
    rw [← h] at hcheck
    unfold decodeConditionalExecution
    generalize checkCondition _ condition = checked at hcheck
    obtain ⟨ok, stored, unpredictable⟩ := checked
    dsimp only at hcheck ⊢
    rw [hcheck, Bool.or_false]
    exact ⟨rfl, rfl⟩
  change (decodeExecution db.withBitfields s).insn.arguments = _ ∧
    (decodeExecution db.withBitfields s).insn.attributes.isUnpredictable = _
  unfold decodeExecution
  split
  · exact hcondition _
  · exact hcondition _

/-- An accepted row is its template. -/
theorem decodeEncoding_template (h : (decodeEncoding db.withBitfields row.encoding s).1 = true) :
    (decodeEncoding db.withBitfields row.encoding s).2 =
        leaveTemplate db.withBitfields
          (enteredNodes db.withBitfields row.template { s with encoding := row.encoding }).2 ∧
      templateDecodes db.withBitfields s.opcode (isInsnInItBlock s) row.template = true := by
  let s₀ : Internal := { s with encoding := row.encoding }
  have hmatch : s.opcode &&& (db.withBitfields.encodings row.encoding).mask =
      (db.withBitfields.encodings row.encoding).opcode :=
    ((decodeEncoding_fst_iff db.withBitfields row.encoding s).mp h).1
  have htry : decodeEncoding db.withBitfields row.encoding s =
      Search.tryEach (decodeTemplate db.withBitfields) [row.template] s₀ := by
    unfold decodeEncoding
    dsimp only
    rw [if_neg (not_not.mpr hmatch), candidates_row]
  have haccepted : (decodeTemplate db.withBitfields row.template s₀).1 = true := by
    cases hok : (decodeTemplate db.withBitfields row.template s₀).1 with
    | true => rfl
    | false =>
        rw [htry, Search.tryEach_of_rejected _ hok] at h
        cases h
  have hdecodes : templateDecodes db.withBitfields s₀.opcode (isInsnInItBlock s₀) row.template =
      true := by
    rw [decodeTemplate_fst] at haccepted
    exact haccepted
  have hconditions : conditionsHold db.withBitfields s₀.opcode (isInsnInItBlock s₀) row.template =
      true := (Bool.and_eq_true _ _ ▸ hdecodes).1
  refine ⟨?_, hdecodes⟩
  rw [htry, Search.tryEach_of_accepted _ haccepted, decodeTemplate_eq, if_pos hconditions,
    if_pos hdecodes]

/-- The nodes of a row: its immediates, and whether it is unpredictable. -/
theorem enteredNodes_row (hnot : s.insn.attributes.isUnpredictable = false)
    (h : ∀ node ∈ row.registers, decodes db.withBitfields s.opcode (.reg node) = true) :
    let insn := (enteredNodes db.withBitfields row.template s).2.insn
    (insn.arguments row.bitfield.slot).get Cell.imm = row.lsb s.opcode ∧
      (insn.arguments (row.bitfield.slot + 1)).get Cell.imm =
        (decodeImmWidth row.bitfield.mnemonic
          (rawValue db.withBitfields s.opcode row.lsbNode)
          (rawValue db.withBitfields s.opcode row.topNode)).toNat ∧
      (insn.attributes.isUnpredictable = true ↔ row.UsesPc s.opcode) := by
  let s₀ := enterTemplate db.withBitfields row.template s
  have hmnemonic : s₀.insn.mnemonic = row.bitfield.mnemonic := by
    change db.withBitfields.iform2mnem (db.withBitfields.templates row.template).iform = _
    rw [withBitfields_templates]
    exact withBitfields_mnemonic db row.bitfield
  obtain ⟨s₁, hrun, hfills, hmark⟩ := decodeNodesFrom_registers (coreRegister_registers row)
    [.imm row.lsbNode, .imm row.topNode] 0 (s := s₀) h
  obtain ⟨s₂, hrun', hlsb, htop, hattributes⟩ :=
    decodeNodesFrom_immediates db row s₁ (0 + row.registers.length)
  have hentered : enteredNodes db.withBitfields row.template s = (true, s₂) := by
    unfold enteredNodes
    rw [withBitfields_templates]
    dsimp only
    rw [withBitfields_arguments]
    exact hrun.trans hrun'
  have hmnemonic' : s₁.insn.mnemonic = row.bitfield.mnemonic := by
    have houtline : s₁.outline.insn.mnemonic = s₀.outline.insn.mnemonic := by rw [hfills.outline]
    exact houtline.trans hmnemonic
  rw [Nat.zero_add, length_registers] at hlsb htop
  rw [hmnemonic'] at htop
  rw [hfills.opcode] at hlsb htop
  rw [hentered]
  refine ⟨hlsb, htop, ?_⟩
  have hnot' : s₀.insn.attributes.isUnpredictable = false := hnot
  change s₂.insn.attributes.isUnpredictable = true ↔ _
  rw [hattributes, hmark, hnot', ← usesPc_iff db row s.opcode]
  simp only [Bool.false_eq_true, false_or]
  exact Iff.rfl

/-- An accepted row: its immediates, and whether it is unpredictable. -/
theorem decodeEncoding_row (h : (decodeEncoding db.withBitfields row.encoding s).1 = true)
    (hnot : s.insn.attributes.isUnpredictable = false) :
    let insn := (decodeEncoding db.withBitfields row.encoding s).2.insn
    (insn.arguments row.bitfield.slot).get Cell.imm = row.lsb s.opcode ∧
      (insn.arguments (row.bitfield.slot + 1)).get Cell.imm =
        (decodeImmWidth row.bitfield.mnemonic
          (rawValue db.withBitfields s.opcode row.lsbNode)
          (rawValue db.withBitfields s.opcode row.topNode)).toNat ∧
      (insn.attributes.isUnpredictable = true ↔ row.UsesPc s.opcode) := by
  obtain ⟨heq, hdecodes⟩ := decodeEncoding_template db row s h
  have hregisters : ∀ node ∈ row.registers,
      decodes db.withBitfields s.opcode (.reg node) = true := by
    intro node hnode
    have hall := (Bool.and_eq_true _ _ ▸ hdecodes).2
    rw [withBitfields_templates] at hall
    dsimp only at hall
    rw [withBitfields_arguments, List.all_append, Bool.and_eq_true, List.all_eq_true] at hall
    exact hall.1 _ (List.mem_map_of_mem hnode)
  obtain ⟨harguments, hmark⟩ := leaveTemplate_row db row
    (enteredNodes_ptemplate db.withBitfields row.template { s with encoding := row.encoding })
  dsimp only
  rw [heq, harguments, hmark]
  exact enteredNodes_row db row { s with encoding := row.encoding } hnot hregisters

/-! ## Widths -/

theorem decodeImmWidth_insert {b : Bitfield} (h : b = bfc ∨ b = bfi) {lsb top : BitVec 32}
    (hlsb : lsb.toNat < 32) (htop : top.toNat < 32) :
    (decodeImmWidth b.mnemonic lsb top).toNat = (2 ^ 32 + top.toNat + 1 - lsb.toNat) % 2 ^ 32 := by
  have hwidth : decodeImmWidth b.mnemonic lsb top = top + 1 - lsb := by
    rcases h with rfl | rfl <;> rfl
  have hone : (1 : BitVec 32).toNat = 1 := rfl
  rw [hwidth, BitVec.toNat_sub, BitVec.toNat_add, hone]
  omega

theorem decodeImmWidth_extract {b : Bitfield} (h : b = sbfx ∨ b = ubfx) (lsb : BitVec 32)
    {top : BitVec 32} (htop : top.toNat < 32) :
    (decodeImmWidth b.mnemonic lsb top).toNat = top.toNat + 1 := by
  have hwidth : decodeImmWidth b.mnemonic lsb top = top + 1 := by
    rcases h with rfl | rfl <;> rfl
  have hone : (1 : BitVec 32).toNat = 1 := rfl
  rw [hwidth, BitVec.toNat_add, hone]
  omega

theorem lsb_lt (opcode : BitVec 32) : row.lsb opcode < 32 := by
  have hlt := concat_lt row.lsbFields opcode.toNat
  have hwidth : totalWidth row.lsbFields = 5 := by
    unfold Row.lsbFields
    split <;> rfl
  rwa [hwidth] at hlt

theorem top_lt (opcode : BitVec 32) : row.top opcode < 32 := by
  have hlt := concat_lt row.topFields opcode.toNat
  have hwidth : totalWidth row.topFields = 5 := by
    unfold Row.topFields
    split <;> rfl
  rwa [hwidth] at hlt

/-- What is decoded names the encoded field just where that is one. -/
theorem names_iff {opcode lsb top : BitVec 32} (hlsb : lsb.toNat = row.lsb opcode)
    (htop : top.toNat = row.top opcode) :
    row.Names opcode (row.lsb opcode) (decodeImmWidth row.bitfield.mnemonic lsb top).toNat ↔
      row.InRange opcode := by
  have hlow := lsb_lt row opcode
  have hhigh := top_lt row opcode
  have hinsert (h : row.bitfield = bfc ∨ row.bitfield = bfi) :=
    decodeImmWidth_insert h (hlsb ▸ hlow) (htop ▸ hhigh)
  have hextract (h : row.bitfield = sbfx ∨ row.bitfield = ubfx) :=
    decodeImmWidth_extract h lsb (htop ▸ hhigh)
  have hsplit {width : Nat} : row.Names opcode (row.lsb opcode) width ↔
      1 ≤ width ∧ width ≤ 32 - row.lsb opcode ∧
        row.bitfield.Describes (row.lsb opcode) (row.top opcode) width :=
    ⟨fun h => ⟨h.pos, h.fits, h.describes⟩, fun h => ⟨rfl, h.1, h.2.1, h.2.2⟩⟩
  rw [hsplit, Row.InRange]
  cases hb : row.bitfield with
  | bfc =>
      rw [hb, hlsb, htop] at hinsert
      rw [hinsert (.inl rfl)]
      simp only [Describes]
      omega
  | bfi =>
      rw [hb, hlsb, htop] at hinsert
      rw [hinsert (.inr rfl)]
      simp only [Describes]
      omega
  | sbfx =>
      rw [hb, htop] at hextract
      rw [hextract (.inl rfl)]
      simp only [Describes, and_true]
      omega
  | ubfx =>
      rw [hb, htop] at hextract
      rw [hextract (.inr rfl)]
      simp only [Describes, and_true]
      omega

/-- An opcode is one of the row's: its fixed bits and its operands. -/
def Row.Accepted (row : Row) (db : Db) (opcode : BitVec 32) (inItBlock : Bool) : Prop :=
  opcode &&& (db.withBitfields.encodings row.encoding).mask =
      (db.withBitfields.encodings row.encoding).opcode ∧
    encodingDecodes db.withBitfields opcode inItBlock row.encoding = true

/-- What an accepted instruction of a row is decoded to. -/
theorem decodeFetched_row (ctx : Context) (stale : Internal) (insn : Insn) {isa : Isa}
    {opcode : BitVec 32} (hlookup : db.withBitfields.lookup isa opcode = row.encoding) :
    let r := decodeFetched db.withBitfields ctx stale insn isa opcode
    (r.1 = true ↔ row.Accepted db opcode ctx.itblock.isIn) ∧ (r.1 = true →
      ((row.Names opcode ((r.2.insn.arguments row.bitfield.slot).get Cell.imm)
          ((r.2.insn.arguments (row.bitfield.slot + 1)).get Cell.imm) ↔ row.InRange opcode) ∧
        (r.2.insn.attributes.isUnpredictable = true ↔ row.UsesPc opcode))) := by
  let s := startState ctx stale insn isa opcode
  have hfirst : (decodeFetched db.withBitfields ctx stale insn isa opcode).1 =
      (decodeEncoding db.withBitfields row.encoding s).1 := by
    rw [← hlookup]
    rfl
  refine ⟨hfirst ▸ decodeEncoding_fst_iff db.withBitfields row.encoding s, fun h => ?_⟩
  have haccepted := hfirst.symm.trans h
  obtain ⟨hlsb, htop, hmark⟩ := decodeEncoding_row db row s haccepted rfl
  have hinsn : (decodeFetched db.withBitfields ctx stale insn isa opcode).2.insn =
      (decodeEncoding db.withBitfields row.encoding s).2.insn := by
    have hstep : (decodeFetched db.withBitfields ctx stale insn isa opcode).2 =
        aliasStep db.withBitfields ctx row.encoding
          (decodeEncoding db.withBitfields row.encoding s).2 := by
      unfold decodeFetched
      dsimp only
      rw [hlookup, if_pos haccepted]
    have hnone : wantsAlias db.withBitfields ctx row.encoding
        (decodeEncoding db.withBitfields row.encoding s).2 = false := by
      obtain ⟨_, _, _, _, _, hentry⟩ := withBitfields_encodings db row
      unfold wantsAlias
      rw [hentry]
      simp
    rw [hstep, aliasStep, hnone]
    rfl
  rw [hinsn, hlsb, htop]
  exact ⟨names_iff row (rawValue_lsb db row opcode) (rawValue_top db row opcode), hmark⟩

end Bitfield

/-! ## Whole runs -/

open Bitfield in
/-- Every accepted bit field instruction names its field, or is unpredictable. -/
def NamesFields (db : Db) (ctx : Context) (stale : Internal) (insn : Insn) : Prop :=
  ∀ (row : Row) isa opcode, fetchOpcode ctx = some (isa, opcode) →
    db.withBitfields.lookup isa opcode = row.encoding →
      (decodeInsn db.withBitfields ctx stale insn).1 = true →
        let decoded := (decodeInsn db.withBitfields ctx stale insn).2.1
        row.Names opcode ((decoded.arguments row.bitfield.slot).get Cell.imm)
            ((decoded.arguments (row.bitfield.slot + 1)).get Cell.imm) ∨
          decoded.attributes.isUnpredictable = true

open Bitfield in
/-- The fields are named just where the encoded ones are fields of the register, apart from
instructions on the program counter. -/
theorem namesFields_iff (db : Db) (ctx : Context) (stale : Internal) (insn : Insn) :
    NamesFields db ctx stale insn ↔
      ∀ (row : Row) isa opcode, ctx.length ≠ 0 → fetchOpcode ctx = some (isa, opcode) →
        db.withBitfields.lookup isa opcode = row.encoding →
          row.Accepted db opcode ctx.itblock.isIn → row.InRange opcode ∨ row.UsesPc opcode := by
  have hrun {isa : Isa} {opcode : BitVec 32} (hlength : ctx.length ≠ 0)
      (hfetch : fetchOpcode ctx = some (isa, opcode)) :
      decodeInsn db.withBitfields ctx stale insn =
        ((decodeFetched db.withBitfields ctx stale insn isa opcode).1,
          (decodeFetched db.withBitfields ctx stale insn isa opcode).2.insn,
          (decodeFetched db.withBitfields ctx stale insn isa opcode).2.context) := by
    rw [decodeInsn, if_neg hlength, hfetch]
  constructor
  · intro h row isa opcode hlength hfetch hlookup haccepted
    obtain ⟨hfirst, hrest⟩ := decodeFetched_row db row ctx stale insn hlookup
    have hok := hfirst.mpr haccepted
    obtain ⟨hnames, hmark⟩ := hrest hok
    have hdecoded := h row isa opcode hfetch hlookup
    rw [hrun hlength hfetch] at hdecoded
    exact (hdecoded hok).imp hnames.mp hmark.mp
  · intro h row isa opcode hfetch hlookup hok
    have hlength : ctx.length ≠ 0 := by
      intro hzero
      rw [decodeInsn, if_pos hzero] at hok
      cases hok
    obtain ⟨hfirst, hrest⟩ := decodeFetched_row db row ctx stale insn hlookup
    rw [hrun hlength hfetch] at hok ⊢
    obtain ⟨hnames, hmark⟩ := hrest hok
    exact (h row isa opcode hlength hfetch hlookup (hfirst.mp hok)).imp hnames.mpr hmark.mpr

/-- Tables that find `BFC` of `A32`. -/
def bfcTables : Db :=
  { Excerpt.tables with
    trees := fun _ => .ifThen (.entry 0x0fe0007f 0x07c0001f []) (.leaf 77) .empty }

/-- `BFC R0` from bit 8 up to bit 0 is decoded with a width that wrapped around. -/
theorem not_namesFields_bfc :
    ¬ NamesFields bfcTables { (default : Context) with
      machineMode := .mode32, length := 4, address := Excerpt.addressOf [0x041f, 0xe7c0] }
      Excerpt.blank default := by
  intro h
  have hrun := h ⟨.bfc, false⟩ .a32 0xe7c0041f (by decide +kernel) (by decide +kernel)
    (by decide +kernel)
  rcases hrun with hnames | hmark
  · exact absurd hnames.fits (by decide +kernel)
  · exact absurd hmark (by decide +kernel)

end Amed.AArch32

import Amed.X86.Ranges

/-!
# Register numbers

The architecture's number of a register operand, and when `decode_node_register_value` reads it.

## Implementation notes

Outside 64-bit mode a register field has three bits: the top bit of vvvv and of is4 is ignored.
Bit 3 of a number comes from R, X or B, and bit 4, for vector registers, from the bits that only
EVEX and MVEX define.
-/

namespace Amed.X86

open Bytes

/-! ## The numbers of the architecture -/

/-- Registers that are numbered one after the other. `extended` classes have numbers above 7,
`high` ones above 15. -/
structure RegisterClass where
  first : Nat
  count : Nat
  extended : Bool := false
  high : Bool := false
  deriving DecidableEq, Repr

/-- The general purpose registers of a size. -/
def gprClass (sz : Nat) : RegisterClass where
  first := [Register.ax, Register.eax, Register.rax].getD sz 0
  count := 16
  extended := true

/-- The class a symbol requests, for the effective address and operand size. The byte registers
and the named registers are not numbered one after the other. -/
def Symbol.registerClass (asz osz : Nat) : Symbol → Option RegisterClass
  | .gpr16 => some (gprClass 0)
  | .gpr32 => some (gprClass 1)
  | .gpr64 => some (gprClass 2)
  | .gpra => some (gprClass asz)
  | .gprv => some (gprClass osz)
  | .gpry => some (gprClass (if osz = 2 then 2 else 1))
  | .gprz => some (gprClass (if osz = 0 then 0 else 1))
  | .segreg => some ⟨Register.es, 6, false, false⟩
  | .fpreg => some ⟨Register.st0, 8, false, false⟩
  | .mmxreg => some ⟨Register.mm0, 8, false, false⟩
  | .maskreg => some ⟨Register.k0, 8, false, false⟩
  | .bndreg => some ⟨Register.bnd0, 4, false, false⟩
  | .creg => some ⟨Register.cr0, 16, true, false⟩
  | .dreg => some ⟨Register.dr0, 16, true, false⟩
  | .xmmreg => some ⟨Register.xmm0, 32, true, true⟩
  | .ymmreg => some ⟨Register.ymm0, 32, true, true⟩
  | .zmmreg => some ⟨Register.zmm0, 32, true, true⟩
  | _ => Option.none

/-- The register AX to DI or IP of a size, by its place in the family. -/
def namedRegister (sz place : Nat) : Nat :=
  if place = 8 then [Register.ip, Register.eip, Register.rip].getD sz 0
  else (gprClass sz).first + place

/-- The bits of a register field, before the mode cuts them. -/
def Diagram.rawField (d : Diagram) (is4 : UInt8) : Encodedin → Nat
  | .opcode => d.opcode.toNat % 8
  | .reg => d.reg
  | .rm => d.rm
  | .sibBase => d.base
  | .sibIndex => d.index
  | .aaa => d.aaa
  | .vvvv => d.vvvv
  | .is4 => is4.toNat / 16
  | _ => 0

/-- The register field. -/
def Diagram.registerField (d : Diagram) (is4 : UInt8) (place : Encodedin) : Nat :=
  if d.longMode then d.rawField is4 place else d.rawField is4 place % 8

/-- Bit 3 of the number in a field: R, X or B. -/
def Diagram.extension3 (d : Diagram) : Encodedin → Bool
  | .opcode => d.b
  | .reg => d.r
  | .rm => d.b
  | .sibBase => d.b
  | .sibIndex => d.x
  | _ => false

/-- Bit 4 of the number in a field, as EVEX and MVEX define it: R', X or V'. -/
def Diagram.extension4 (d : Diagram) : Encodedin → Bool
  | .reg => d.rp
  | .rm => d.x
  | .sibIndex => d.vp
  | .vvvv => d.vp
  | _ => false

/-- The encodings that define bit 4. -/
def Diagram.definesHigh (d : Diagram) : Bool :=
  d.enc = encodingEvex || d.enc = encodingMvex

/-- The number of a register in a field. -/
def Diagram.registerNumber (d : Diagram) (is4 : UInt8) (place : Encodedin)
    (extended high : Bool) : Nat :=
  d.registerField is4 place
    + (if d.longMode && extended && d.extension3 place then 8 else 0)
    + (if d.longMode && high && d.definesHigh && d.extension4 place then 16 else 0)

/-- The register of a class with a number, or none. -/
def RegisterClass.register (c : RegisterClass) (n : Nat) : Nat :=
  if n < c.count then c.first + n else Register.none

/-- The byte register with a number: SPL to R15B exist with a REX or vector prefix in 64-bit
mode, AH to BH otherwise. -/
def Diagram.byteRegister (d : Diagram) (n : Nat) : Nat :=
  if d.longMode && d.hasRex then r8rex n
  else if n < 8 then Register.al + n
  else Register.none

/-- The register a node requests. -/
def Diagram.architecturalRegister (d : Diagram) (is4 : UInt8) (node : DbReg) : Nat :=
  match node.symbol.fromAxa, node.symbol.fromAxv with
  | some place, _ => namedRegister d.asz place
  | none, some place => namedRegister d.osz place
  | none, none =>
      if node.symbol = .gpr8 then
        d.byteRegister (d.registerNumber is4 node.encodedin true false)
      else
        match node.symbol.registerClass d.asz d.osz with
        | some c => c.register (d.registerNumber is4 node.encodedin c.extended c.high)
        | none => Register.none

/-! ## The numbers the code reads -/

/-- The diagram as the prefix decoders and the opcode fetch fill it, as far as a register in a
field depends on it. -/
structure Diagram.Filled (d : Diagram) (place : Encodedin) : Prop where
  field_lt : d.rawField 0 place < 16
  narrow : place ≠ .vvvv → place ≠ .is4 → d.rawField 0 place < 8
  asz_le : d.asz ≤ 2
  osz_le : d.osz ≤ 2
  unextended : d.hasRex = false → d.r = false ∧ d.x = false ∧ d.b = false
  low : d.definesHigh = false → d.rp = false ∧ d.vp = false
  vector : d.definesHigh = true → d.hasRex = true

/-- The place `decode_node_register_value` reads. -/
def Diagram.codePlace (d : Diagram) (is4 : UInt8) : Encodedin → RegisterPlace
  | .is4 => { idx := is4.toNat / 16 }
  | place => d.registerPlace place

theorem registerAt_getIs4Value (buf : Buffer) (s : Internal) (node : DbReg) (place : RegisterPlace) :
    (getIs4Value buf s).2.diagram.registerAt node place = s.diagram.registerAt node place := by
  unfold getIs4Value
  split
  · rfl
  · split
    · rename_i htake
      obtain ⟨-, -, rfl⟩ := takeBytes_eq_some.mp htake
      rfl
    · rfl

theorem decodeNodeRegisterValue_fst (buf : Buffer) (s : Internal) {node : DbReg}
    (h : node.hasEncodedin = true) :
    (decodeNodeRegisterValue buf s node).1 =
      s.diagram.registerAt node (s.diagram.codePlace (getIs4Value buf s).1 node.encodedin) := by
  unfold decodeNodeRegisterValue
  rw [h]
  cases hplace : node.encodedin with
  | is4 => exact registerAt_getIs4Value buf s node _
  | _ => rfl

theorem or_eight {n : Nat} (h : n < 8) (b : Bool) : n ||| 8 * b.toNat = n + 8 * b.toNat := by
  rw [Nat.or_comm, Nat.add_comm]
  exact (Nat.two_pow_add_eq_or_of_lt (i := 3) h b.toNat).symm

theorem or_sixteen {n : Nat} (h : n < 16) (b : Bool) : n ||| 16 * b.toNat = n + 16 * b.toNat := by
  rw [Nat.or_comm, Nat.add_comm]
  exact (Nat.two_pow_add_eq_or_of_lt (i := 4) h b.toNat).symm

theorem ite_eq_mul_toNat (b : Bool) (n : Nat) : (if b then n else 0) = n * b.toNat := by
  cases b <;> simp

section Filled

variable {d : Diagram} {p : Encodedin} (is4 : UInt8)

theorem codePlace_idx (d : Diagram) (p : Encodedin) : (d.codePlace is4 p).idx = d.rawField is4 p := by
  cases p <;> rfl

/-- The first extension is bit 3 of the number, or bit 4 for vvvv. -/
theorem codePlace_extension (d : Diagram) (p : Encodedin) :
    (d.codePlace is4 p).extension =
      if p = .vvvv then 16 * d.vp.toNat else 8 * (d.extension3 p).toNat := by
  cases p <;> rfl

/-- The second extension is bit 4 of the number, but for vvvv. -/
theorem codePlace_extension2 (d : Diagram) (p : Encodedin) :
    (d.codePlace is4 p).extension2 = if p = .vvvv then 0 else 16 * (d.extension4 p).toNat := by
  cases p <;> rfl

theorem Diagram.Filled.rawField_lt (h : d.Filled p) : d.rawField is4 p < 16 := by
  have hfield := h.field_lt
  cases p <;> first | exact hfield | exact Nat.div_lt_of_lt_mul is4.toNat_lt

theorem Diagram.Filled.rawField_narrow (h : d.Filled p) (hv : p ≠ .vvvv) (h4 : p ≠ .is4) :
    d.rawField is4 p < 8 := by
  have hfield := h.narrow hv h4
  cases p <;> first | exact hfield | exact absurd rfl h4

/-- The first extension lies above the field. -/
theorem or_extension (h : d.Filled p) :
    d.rawField is4 p ||| (d.codePlace is4 p).extension =
      d.rawField is4 p + (d.codePlace is4 p).extension := by
  rw [codePlace_extension]
  split
  · exact or_sixteen (h.rawField_lt is4) d.vp
  · rename_i hv
    by_cases h4 : p = .is4
    · subst h4
      exact Nat.or_zero _
    · exact or_eight (h.rawField_narrow is4 hv h4) (d.extension3 p)

/-- The second extension lies above both. -/
theorem or_extension2 (h : d.Filled p) :
    d.rawField is4 p ||| (d.codePlace is4 p).extension ||| (d.codePlace is4 p).extension2 =
      d.rawField is4 p + (d.codePlace is4 p).extension + (d.codePlace is4 p).extension2 := by
  rw [or_extension is4 h, codePlace_extension2]
  split
  · rw [Nat.or_zero, Nat.add_zero]
  · rename_i hv
    apply or_sixteen
    rw [codePlace_extension, if_neg hv]
    by_cases h4 : p = .is4
    · subst h4
      exact h.rawField_lt is4
    · have hlt := h.rawField_narrow is4 hv h4
      have hb : (d.extension3 p).toNat ≤ 1 := Bool.toNat_le _
      omega

/-! ## When a field is read right -/

/-- Outside 64-bit mode the top bit of the field is clear. -/
def Diagram.TopBitClear (d : Diagram) (is4 : UInt8) (p : Encodedin) : Prop :=
  d.longMode = false → d.rawField is4 p < 8

/-- A field that numbers a register of a class of 16: V' does not extend vvvv. -/
def Diagram.ReadsExtended (d : Diagram) (is4 : UInt8) (p : Encodedin) : Prop :=
  d.TopBitClear is4 p ∧ (d.longMode = true → p = .vvvv → d.vp = false)

/-- A field that numbers a vector register: X extends the rm field under EVEX and MVEX only. -/
def Diagram.ReadsHigh (d : Diagram) (is4 : UInt8) (p : Encodedin) : Prop :=
  d.TopBitClear is4 p ∧ (d.longMode = true → p = .rm → d.x = true → d.definesHigh = true)

theorem readsExtended_iff (h : d.Filled p) :
    (d.rawField is4 p ||| if d.longMode then (d.codePlace is4 p).extension else 0) =
      d.registerNumber is4 p true false ↔ d.ReadsExtended is4 p := by
  have hlt := h.rawField_lt is4
  unfold Diagram.registerNumber Diagram.registerField Diagram.ReadsExtended Diagram.TopBitClear
  cases hlong : d.longMode with
  | false =>
      simp
      omega
  | true =>
      rw [if_pos rfl, or_extension is4 h, codePlace_extension]
      by_cases hv : p = .vvvv
      · subst hv
        cases hvp : d.vp <;> simp [Diagram.extension3]
      · cases hb : d.extension3 p <;> simp [hv]

theorem readsHigh_iff (h : d.Filled p) :
    ((d.rawField is4 p ||| if d.longMode then (d.codePlace is4 p).extension else 0) |||
        if d.longMode then (d.codePlace is4 p).extension2 else 0) =
      d.registerNumber is4 p true true ↔ d.ReadsHigh is4 p := by
  have hlt := h.rawField_lt is4
  unfold Diagram.registerNumber Diagram.registerField Diagram.ReadsHigh Diagram.TopBitClear
  cases hlong : d.longMode with
  | false =>
      simp
      omega
  | true =>
      rw [if_pos rfl, if_pos rfl, or_extension2 is4 h, codePlace_extension, codePlace_extension2]
      cases hhigh : d.definesHigh with
      | false =>
          obtain ⟨hrp, hvp⟩ := h.low hhigh
          cases p <;> cases hx : d.x <;>
            simp_all [Diagram.extension3, Diagram.extension4, ite_eq_mul_toNat]
      | true => cases p <;> simp [Diagram.extension3, Diagram.extension4, ite_eq_mul_toNat]

theorem registerNumber_plain (h : d.Filled p) {n : Nat} (hn : n ≤ 8) :
    (d.registerNumber is4 p false false < n ∧
        d.rawField is4 p = d.registerNumber is4 p false false) ↔ d.rawField is4 p < n := by
  have hlt := h.rawField_lt is4
  simp only [Diagram.registerNumber, Diagram.registerField, Bool.and_false, Bool.false_and,
    Bool.false_eq_true, if_false, Nat.add_zero]
  split <;> omega

theorem registerNumber_extended_lt (h : d.Filled p) : d.registerNumber is4 p true false < 16 := by
  have hlt := h.rawField_lt is4
  simp only [Diagram.registerNumber, Diagram.registerField, Bool.and_false, Bool.false_and,
    Bool.false_eq_true, if_false, Nat.add_zero, Bool.and_true, ite_eq_mul_toNat]
  by_cases hv : p = .vvvv
  · subst hv
    simp only [Diagram.extension3, Bool.and_false, Bool.toNat_false]
    split <;> omega
  · by_cases h4 : p = .is4
    · subst h4
      simp only [Diagram.extension3, Bool.and_false, Bool.toNat_false]
      split <;> omega
    · have hnarrow := h.rawField_narrow is4 hv h4
      have hbit := Bool.toNat_le (d.longMode && d.extension3 p)
      split <;> omega

/-- Bit 3 is of 64-bit mode. -/
theorem registerNumber_lt_eight (hlong : d.longMode = false) (extended high : Bool) :
    d.registerNumber is4 p extended high < 8 := by
  have hmod := Nat.mod_lt (d.rawField is4 p) (by decide : 0 < 8)
  simpa [Diagram.registerNumber, Diagram.registerField, hlong] using hmod

/-- Bit 4 is of EVEX and MVEX. -/
theorem registerNumber_lt_sixteen (h : d.Filled p) (hhigh : d.definesHigh = false)
    (extended high : Bool) : d.registerNumber is4 p extended high < 16 := by
  have hle : d.registerNumber is4 p extended high ≤ d.registerNumber is4 p true false := by
    cases extended <;> simp [Diagram.registerNumber, hhigh]
  exact hle.trans_lt (registerNumber_extended_lt is4 h)

theorem registerNumber_high_lt (h : d.Filled p) : d.registerNumber is4 p true true < 32 := by
  have hlt := registerNumber_extended_lt is4 h
  have hle : d.registerNumber is4 p true true ≤ d.registerNumber is4 p true false + 16 := by
    have hbit := Bool.toNat_le (d.longMode && d.definesHigh && d.extension4 p)
    simp only [Diagram.registerNumber, Bool.and_true, Bool.and_false, Bool.false_and,
      ite_eq_mul_toNat]
    omega
  omega

end Filled

/-! ## Classes -/

theorem symbolRegister_vosz2gpr (hasRex : Bool) (value idx extension extension2 : Nat) {sz : Nat}
    (hsz : sz ≤ 2) :
    symbolRegister hasRex value idx extension extension2 (vosz2gpr sz) =
      (gprClass sz).first + (idx ||| extension) := by
  obtain rfl | rfl | rfl : sz = 0 ∨ sz = 1 ∨ sz = 2 := by omega
  all_goals rfl

theorem yosz2gpr_eq {sz : Nat} (hsz : sz ≤ 2) : yosz2gpr sz = vosz2gpr (if sz = 2 then 2 else 1) := by
  obtain rfl | rfl | rfl : sz = 0 ∨ sz = 1 ∨ sz = 2 := by omega
  all_goals rfl

theorem zosz2gpr_eq {sz : Nat} (hsz : sz ≤ 2) : zosz2gpr sz = vosz2gpr (if sz = 0 then 0 else 1) := by
  obtain rfl | rfl | rfl : sz = 0 ∨ sz = 1 ∨ sz = 2 := by omega
  all_goals rfl

/-- What the numbered classes have in common. -/
structure RegisterClass.Shape (c : RegisterClass) : Prop where
  first_pos : 0 < c.first
  high : c.high = true → c.extended = true ∧ c.count = 32
  extended : c.high = false → c.extended = true → c.count = 16
  plain : c.extended = false → c.count ≤ 8

theorem gprClass_shape {sz : Nat} (hsz : sz ≤ 2) : (gprClass sz).Shape := by
  obtain rfl | rfl | rfl : sz = 0 ∨ sz = 1 ∨ sz = 2 := by omega
  all_goals constructor <;> decide

theorem registerClass_shape {symbol : Symbol} {asz osz : Nat} {c : RegisterClass} (hasz : asz ≤ 2)
    (hosz : osz ≤ 2) (h : symbol.registerClass asz osz = some c) : c.Shape := by
  unfold Symbol.registerClass at h
  split at h
  case h_6 =>
    cases h
    apply gprClass_shape
    split <;> decide
  case h_7 =>
    cases h
    apply gprClass_shape
    split <;> decide
  case h_4 => cases h; exact gprClass_shape hasz
  case h_5 => cases h; exact gprClass_shape hosz
  all_goals cases h <;> constructor <;> decide

/-- The register of a class that is given by the size is read from the family of the size. -/
theorem registerAt_of_class {d : Diagram} {node : DbReg} {c : RegisterClass} (place : RegisterPlace)
    (hasz : d.asz ≤ 2) (hosz : d.osz ≤ 2) (hseg : node.symbol ≠ .segreg)
    (h : node.symbol.registerClass d.asz d.osz = some c) :
    d.registerAt node place = c.first +
      (place.idx ||| (if d.longMode && c.extended then place.extension else 0) |||
        (if d.longMode && c.high then place.extension2 else 0)) := by
  have hv (sz : Nat) (hsz : sz ≤ 2) (hc : c = gprClass sz) :
      symbolRegister d.hasRex node.value place.idx (if d.longMode then place.extension else 0)
          (if d.longMode then place.extension2 else 0) (vosz2gpr sz) =
        c.first + (place.idx ||| (if d.longMode && c.extended then place.extension else 0) |||
          (if d.longMode && c.high then place.extension2 else 0)) := by
    rw [hc, symbolRegister_vosz2gpr _ _ _ _ _ hsz]
    simp [gprClass]
  unfold Diagram.registerAt resolveSymbol
  cases hs : node.symbol <;> rw [hs] at h hseg <;>
    simp only [Symbol.registerClass, Option.some.injEq, reduceCtorEq] at h
  case gpra => exact hv d.asz hasz h.symm
  case gprv => exact hv d.osz hosz h.symm
  case gpry =>
    have hy := hv (if d.osz = 2 then 2 else 1) (by split <;> decide) h.symm
    rwa [← yosz2gpr_eq hosz] at hy
  case gprz =>
    have hz := hv (if d.osz = 0 then 0 else 1) (by split <;> decide) h.symm
    rwa [← zosz2gpr_eq hosz] at hz
  case gpr16 => exact hv 0 (by decide) h.symm
  case gpr32 => exact hv 1 (by decide) h.symm
  case gpr64 => exact hv 2 (by decide) h.symm
  case segreg => exact absurd rfl hseg
  all_goals
    rw [← h]
    simp [Symbol.fromAxa, Symbol.fromAxv, symbolRegister]

/-- A number below the count of its class gives the register behind the first one. -/
theorem register_eq_iff {c : RegisterClass} (hpos : 0 < c.first) (m n : Nat) :
    c.first + m = c.register n ↔ n < c.count ∧ m = n := by
  unfold RegisterClass.register
  have hnone : Register.none = 0 := rfl
  split <;> omega

/-! ## When a register is read right -/

/-- A field numbers a register of a class. -/
def Diagram.ReadsClass (d : Diagram) (is4 : UInt8) (node : DbReg) (c : RegisterClass) : Prop :=
  if c.high then d.ReadsHigh is4 node.encodedin
  else if c.extended then d.ReadsExtended is4 node.encodedin
  else if node.symbol = .segreg then
    d.longMode = false → d.rawField is4 node.encodedin < 8 ∨ 13 < d.rawField is4 node.encodedin
  else d.rawField is4 node.encodedin < c.count

/-- A field numbers a byte register. A vector prefix outside 64-bit mode counts as REX there, so that
the codes 4 to 7 would be SPL to DIL. -/
def Diagram.ReadsByte (d : Diagram) (is4 : UInt8) (p : Encodedin) : Prop :=
  d.ReadsExtended is4 p ∧
    (d.hasRex = true → d.longMode = false → d.rawField is4 p < 4) ∧
    (d.hasRex = false → d.rawField is4 p < 8)

/-- A register named by its place in the family of a size: the place is no field that an extension
belongs to, and IP is not in the family. -/
def Diagram.ReadsNamed (d : Diagram) (p : Encodedin) (place : Nat) : Prop :=
  place < 8 ∧ (d.longMode = true → d.extension3 p = false ∧ (p = .vvvv → d.vp = false))

/-- The register a node requests is read. -/
def Diagram.ReadsNumber (d : Diagram) (is4 : UInt8) (node : DbReg) : Prop :=
  match node.symbol.fromAxa, node.symbol.fromAxv with
  | some place, _ => d.ReadsNamed node.encodedin place
  | none, some place => d.ReadsNamed node.encodedin place
  | none, none =>
      if node.symbol = .gpr8 then d.ReadsByte is4 node.encodedin
      else
        match node.symbol.registerClass d.asz d.osz with
        | some c => d.ReadsClass is4 node c
        | none => True

/-- A symbol that requests a register in a field. -/
def Symbol.RequestsRegister (symbol : Symbol) : Prop :=
  symbol.fromAxa.isSome ∨ symbol.fromAxv.isSome ∨ symbol = .gpr8 ∨
    (symbol.registerClass 0 0).isSome

section Node

variable {d : Diagram} {node : DbReg} (is4 : UInt8)

theorem registerAt_segreg (hsymbol : node.symbol = .segreg) (place : RegisterPlace) :
    d.registerAt node place =
      if 5 < place.idx then Register.none else Register.es + place.idx := by
  unfold Diagram.registerAt resolveSymbol
  rw [hsymbol]
  rfl

/-- A register of a numbered class. -/
theorem readsClass_iff (h : d.Filled node.encodedin) {c : RegisterClass}
    (hc : node.symbol.registerClass d.asz d.osz = some c) :
    d.registerAt node (d.codePlace is4 node.encodedin) =
        c.register (d.registerNumber is4 node.encodedin c.extended c.high) ↔
      d.ReadsClass is4 node c := by
  have hshape := registerClass_shape h.asz_le h.osz_le hc
  unfold Diagram.ReadsClass
  by_cases hseg : node.symbol = .segreg
  · -- a segment register: the code tests the number, so that a reserved one may be cut
    have hlt := h.rawField_lt is4
    rw [hseg] at hc
    obtain rfl := Option.some.inj hc
    rw [registerAt_segreg hseg, codePlace_idx]
    simp only [hseg, if_true, Bool.false_eq_true, if_false, RegisterClass.register,
      Diagram.registerNumber, Diagram.registerField, Bool.and_false, Bool.false_and, Nat.add_zero]
    have hnone : Register.none = 0 := rfl
    have hes : Register.es = 69 := rfl
    cases hlong : d.longMode <;> simp only [Bool.false_eq_true, if_false, if_true, true_imp_iff,
      false_imp_iff, iff_true, reduceCtorEq] <;> split <;> split <;> omega
  · rw [registerAt_of_class _ h.asz_le h.osz_le hseg hc, register_eq_iff hshape.first_pos,
      codePlace_idx]
    cases hhigh : c.high with
    | true =>
        obtain ⟨hext, hcount⟩ := hshape.high hhigh
        have hread := readsHigh_iff is4 h
        rw [hext, hcount]
        simp only [Bool.and_true, if_true]
        rw [and_iff_right (registerNumber_high_lt is4 h)]
        exact hread
    | false =>
        cases hext : c.extended with
        | true =>
            have hread := readsExtended_iff is4 h
            rw [hshape.extended hhigh hext]
            simp only [Bool.and_true, Bool.and_false, Bool.false_eq_true, if_false, if_true,
              Nat.or_zero]
            rw [and_iff_right (registerNumber_extended_lt is4 h)]
            exact hread
        | false =>
            simp only [Bool.and_false, Bool.false_eq_true, if_false, Nat.or_zero, hseg]
            exact registerNumber_plain is4 h (hshape.plain hext)

/-- The extension of a place is there where its bit is set. -/
theorem extension_eq_zero_iff (p : Encodedin) :
    (if d.longMode then (d.codePlace is4 p).extension else 0) = 0 ↔
      (d.longMode = true → d.extension3 p = false ∧ (p = .vvvv → d.vp = false)) := by
  rw [codePlace_extension]
  cases d.longMode with
  | false => simp
  | true =>
      by_cases hv : p = .vvvv
      · subst hv
        simp [Diagram.extension3]
      · simp [hv]

theorem extension_cases (p : Encodedin) :
    (if d.longMode then (d.codePlace is4 p).extension else 0) ∈ [0, 8, 16] := by
  rw [codePlace_extension]
  cases d.longMode with
  | false => simp
  | true =>
      by_cases hv : p = .vvvv
      · subst hv
        cases d.vp <;> simp
      · cases d.extension3 p <;> simp [hv]

theorem family_eq_named_iff {sz place e : Nat} (hsz : sz ≤ 2) (hplace : place ≤ 8)
    (he : e ∈ [0, 8, 16]) :
    (gprClass sz).first + (place ||| e) = namedRegister sz place ↔ place < 8 ∧ e = 0 := by
  have hlist : e = 0 ∨ e = 8 ∨ e = 16 := by simpa using he
  by_cases h8 : place = 8
  · subst h8
    refine iff_of_false ?_ fun h => absurd h.1 (by decide)
    obtain rfl | rfl | rfl : sz = 0 ∨ sz = 1 ∨ sz = 2 := by omega
    all_goals rcases hlist with rfl | rfl | rfl <;> decide
  · have hlt : place < 8 := by omega
    rw [namedRegister, if_neg h8, and_iff_right hlt, Nat.add_left_cancel_iff]
    rcases hlist with rfl | rfl | rfl
    · exact iff_of_true (Nat.or_zero place) rfl
    · have hor := or_eight hlt true
      simp only [Bool.toNat_true, Nat.mul_one] at hor
      omega
    · have hor := or_sixteen (by omega : place < 16) true
      simp only [Bool.toNat_true, Nat.mul_one] at hor
      omega

/-- A register named by its place. -/
theorem readsNamed_iff {sz place : Nat} (hsz : sz ≤ 2) (hplace : place ≤ 8) (p : Encodedin) :
    (gprClass sz).first + (place ||| if d.longMode then (d.codePlace is4 p).extension else 0) =
        namedRegister sz place ↔ d.ReadsNamed p place := by
  rw [family_eq_named_iff hsz hplace (extension_cases is4 p), extension_eq_zero_iff]
  rfl

theorem fromAxa_le {symbol : Symbol} {place : Nat} (h : symbol.fromAxa = some place) : place ≤ 8 := by
  cases symbol <;> simp only [Symbol.fromAxa, Option.some.injEq, reduceCtorEq] at h <;> omega

theorem fromAxv_le {symbol : Symbol} {place : Nat} (h : symbol.fromAxv = some place) : place ≤ 8 := by
  cases symbol <;> simp only [Symbol.fromAxv, Option.some.injEq, reduceCtorEq] at h <;> omega

theorem r8rex_eq (i : Nat) : r8rex i = if i < 4 then 1 + i else if i < 16 then 5 + i else 0 := by
  by_cases hi : i < 16
  · have hall : ∀ i < 16, r8rex i = if i < 4 then 1 + i else if i < 16 then 5 + i else 0 := by decide
    exact hall i hi
  · rw [if_neg (by omega), if_neg hi]
    rw [r8rex, List.getD_eq_getElem?_getD, List.getElem?_eq_none (by simpa using hi)]
    rfl

theorem r8rex_eq_iff {m n : Nat} (hn : n < 16) : r8rex m = r8rex n ↔ m = n := by
  rw [r8rex_eq, r8rex_eq]
  split_ifs <;> omega

theorem registerAt_gpr8 (hsymbol : node.symbol = .gpr8) (place : RegisterPlace) :
    d.registerAt node place =
      if d.hasRex then r8rex (place.idx ||| if d.longMode then place.extension else 0)
      else Register.al + place.idx := by
  unfold Diagram.registerAt resolveSymbol
  rw [hsymbol]
  rfl

/-- A byte register. Without REX there is no extension, and a vector prefix counts as REX. -/
theorem readsByte_iff (h : d.Filled node.encodedin) (hsymbol : node.symbol = .gpr8) :
    d.registerAt node (d.codePlace is4 node.encodedin) =
        d.byteRegister (d.registerNumber is4 node.encodedin true false) ↔
      d.ReadsByte is4 node.encodedin := by
  have hextended := readsExtended_iff is4 h
  have hlt := h.rawField_lt is4
  have hal : Register.al = 1 := rfl
  have hnone : Register.none = 0 := rfl
  rw [registerAt_gpr8 hsymbol, codePlace_idx]
  unfold Diagram.ReadsByte Diagram.byteRegister
  cases hrex : d.hasRex with
  | true =>
      cases hlong : d.longMode with
      | true =>
          rw [hlong] at hextended
          simp only [if_true, Bool.and_self, reduceCtorEq, false_imp_iff, implies_true, and_true]
          rw [r8rex_eq_iff (registerNumber_extended_lt is4 h)]
          exact hextended
      | false =>
          simp only [Diagram.ReadsExtended, Diagram.TopBitClear, Diagram.registerNumber,
            Diagram.registerField, hlong, Bool.false_and, Bool.false_eq_true, if_false, if_true,
            true_imp_iff, false_imp_iff, and_true, Nat.or_zero, Nat.add_zero, r8rex_eq, reduceCtorEq]
          split <;> split <;> omega
  | false =>
      obtain ⟨hr, hx, hb⟩ := h.unextended hrex
      have hhigh : d.definesHigh = false := by
        cases hdefines : d.definesHigh with
        | false => rfl
        | true => exact absurd (h.vector hdefines) (by rw [hrex]; decide)
      obtain ⟨hrp, hvp⟩ := h.low hhigh
      have hext : d.extension3 node.encodedin = false := by
        cases node.encodedin <;> first | exact hr | exact hx | exact hb | rfl
      simp only [Diagram.ReadsExtended, Diagram.TopBitClear, Diagram.registerNumber,
        Diagram.registerField, hext, hvp, Bool.and_false, Bool.false_and, Bool.false_eq_true, if_false,
        true_imp_iff, false_imp_iff, implies_true, and_true, true_and, Nat.add_zero]
      cases hlong : d.longMode <;> simp only [if_true, Bool.false_eq_true, if_false, true_imp_iff,
        false_imp_iff, true_and, reduceCtorEq] <;> split <;> omega

/-- The register a node requests is read exactly under the condition of its symbol. -/
theorem registerAt_iff (h : d.Filled node.encodedin) (hrequest : node.symbol.RequestsRegister) :
    d.registerAt node (d.codePlace is4 node.encodedin) = d.architecturalRegister is4 node ↔
      d.ReadsNumber is4 node := by
  have hfamily {sz place : Nat} (hsz : sz ≤ 2) (hplace : place ≤ 8)
      (hresolve : resolveSymbol d.asz d.osz node.symbol
        (d.codePlace is4 node.encodedin).idx = (vosz2gpr sz, place)) :
      d.registerAt node (d.codePlace is4 node.encodedin) = namedRegister sz place ↔
        d.ReadsNamed node.encodedin place := by
    unfold Diagram.registerAt
    rw [hresolve]
    dsimp only
    rw [symbolRegister_vosz2gpr _ _ _ _ _ hsz]
    exact readsNamed_iff is4 hsz hplace node.encodedin
  unfold Diagram.architecturalRegister Diagram.ReadsNumber
  cases haxa : node.symbol.fromAxa with
  | some place =>
      apply hfamily h.asz_le (fromAxa_le haxa)
      unfold resolveSymbol
      rw [haxa]
  | none =>
      cases haxv : node.symbol.fromAxv with
      | some place =>
          apply hfamily h.osz_le (fromAxv_le haxv)
          unfold resolveSymbol
          rw [haxa, haxv]
      | none =>
          dsimp only
          by_cases hgpr8 : node.symbol = .gpr8
          · rw [if_pos hgpr8, if_pos hgpr8]
            exact readsByte_iff is4 h hgpr8
          · rw [if_neg hgpr8, if_neg hgpr8]
            cases hclass : node.symbol.registerClass d.asz d.osz with
            | some c => exact readsClass_iff is4 h hclass
            | none =>
                have hsome : (node.symbol.registerClass 0 0).isSome := by
                  simpa [Symbol.RequestsRegister, haxa, haxv, hgpr8] using hrequest
                exact absurd hsome (by
                  cases hs : node.symbol <;> rw [hs] at hclass <;>
                    simp [Symbol.registerClass] at hclass ⊢)

end Node

/-! ## Every state -/

/-- The places an encoding has. -/
def Diagram.Encodes (d : Diagram) : Encodedin → Prop
  | .vvvv => d.enc ≠ encodingNone
  | .aaa => d.definesHigh = true
  | .sibBase | .sibIndex => d.hasSib = true
  | _ => True

theorem definesHigh_iff (d : Diagram) :
    d.definesHigh = true ↔ d.enc = encodingEvex ∨ d.enc = encodingMvex := by
  simp [Diagram.definesHigh]

/-- The places are filled by what reads them. -/
theorem Diagram.Ranged.filled {d : Diagram} {p : Encodedin} (h : d.Ranged) (hf : d.Fields)
    (hp : d.Encodes p) : d.Filled p := by
  have hopcode : d.opcode.toNat % 8 < 8 := Nat.mod_lt _ (by decide)
  have hnarrow : p ≠ .vvvv → p ≠ .is4 → d.rawField 0 p < 8 := by
    intro hv h4
    cases p with
    | opcode => exact hopcode
    | reg => exact hf.reg_lt
    | rm => exact hf.rm_lt
    | sibBase => exact (hf.sib hp).1
    | sibIndex => exact (hf.sib hp).2
    | aaa => exact h.mask ((definesHigh_iff d).mp hp)
    | vvvv => exact absurd rfl hv
    | is4 => exact absurd rfl h4
    | vPrefix => exact Nat.zero_lt_succ 7
    | other => exact Nat.zero_lt_succ 7
  constructor
  · by_cases hv : p = .vvvv
    · subst hv
      exact (h.vector hp).2
    · by_cases h4 : p = .is4
      · subst h4
        exact Nat.zero_lt_succ 15
      · exact (hnarrow hv h4).trans (by decide)
  · exact hnarrow
  · exact h.asz_le
  · exact h.osz_le
  · exact h.unextended
  · intro hhigh
    rw [← Bool.not_eq_true, definesHigh_iff, not_or] at hhigh
    exact h.low hhigh.1 hhigh.2
  · intro hhigh
    refine (h.vector ?_).1
    rcases (definesHigh_iff d).mp hhigh with henc | henc <;> rw [henc] <;> decide

/-- A register is the one of the architecture, which has bit 3 in its number in 64-bit mode only
and bit 4 under EVEX and MVEX only. -/
structure Diagram.NumbersRegister (d : Diagram) (is4 : UInt8) (node : DbReg) (value : Nat) : Prop where
  value : value = d.architecturalRegister is4 node
  bit3 : ∀ extended high, 8 ≤ d.registerNumber is4 node.encodedin extended high → d.longMode = true
  bit4 : ∀ extended high,
    16 ≤ d.registerNumber is4 node.encodedin extended high → d.definesHigh = true

/-- A register in a field is the one of the architecture exactly under the condition of its
symbol. -/
theorem registerNumber_iff (buf : Buffer) (s : Internal) (node : DbReg)
    (hranged : s.diagram.Ranged) (hfields : s.diagram.Fields)
    (hplace : s.diagram.Encodes node.encodedin) (hnode : node.hasEncodedin = true)
    (hrequest : node.symbol.RequestsRegister) :
    s.diagram.NumbersRegister (getIs4Value buf s).1 node (decodeNodeRegisterValue buf s node).1 ↔
      s.diagram.ReadsNumber (getIs4Value buf s).1 node := by
  have hfilled := hranged.filled hfields hplace
  rw [← registerAt_iff _ hfilled hrequest, decodeNodeRegisterValue_fst buf s hnode]
  constructor
  · exact fun h => h.value
  · intro hvalue
    refine ⟨hvalue, ?_, ?_⟩
    · intro extended high hle
      by_contra hlong
      rw [Bool.not_eq_true] at hlong
      exact absurd (registerNumber_lt_eight _ hlong extended high) (Nat.not_lt.mpr hle)
    · intro extended high hle
      by_contra hhigh
      rw [Bool.not_eq_true] at hhigh
      exact absurd (registerNumber_lt_sixteen _ hfilled hhigh extended high) (Nat.not_lt.mpr hle)

/-- Every state in which the arguments of an accepted instruction are decoded is such a state. -/
theorem accepted_outline {db : Db} {ctx : Context} {stale s t : Internal} {insn : Insn}
    (h : accepted db ctx stale insn = some s) (hfeat : FeatureBits ctx.features)
    (ht : t.outline = (beginTemplate db (decodeRealModrm db (contextBuffer ctx) s)).outline) :
    t.diagram.Ranged ∧ t.diagram.Fields := by
  obtain ⟨hranged, hfields⟩ := decodeRealModrm_ranged h hfeat
  have hdiagram : t.outline.diagram =
      (beginTemplate db (decodeRealModrm db (contextBuffer ctx) s)).outline.diagram := by rw [ht]
  have hr : t.outline.diagram.Ranged := by
    rw [hdiagram]
    exact ⟨hranged.asz_le, hranged.osz_le, hranged.unextended, hranged.low, hranged.vector,
      hranged.mask, hranged.length⟩
  have hf : t.outline.diagram.Fields := by
    rw [hdiagram]
    exact ⟨hfields.mod_lt, hfields.reg_lt, hfields.rm_lt, hfields.sib⟩
  exact ⟨⟨hr.asz_le, hr.osz_le, hr.unextended, hr.low, hr.vector, hr.mask, hr.length⟩,
    ⟨hf.mod_lt, hf.reg_lt, hf.rm_lt, hf.sib⟩⟩

/-! ## `ADDPS xmm0, xmm1` with REX.X -/

namespace Excerpt

/-- The bytes 42 0F 58 C1 in 64-bit mode. -/
def addpsContext : Context := contextOf .mode64 [0x42, 0x0f, 0x58, 0xc1] 4

/-- A vector register in a field. -/
def xmmNode (place : Nat) : DbReg := { symbol := .xmmreg, hasEncodedin := true, value := place }

theorem addps_isSome : (accepted tables addpsContext default default).isSome := by decide

/-- The state in which the template is selected. -/
def addpsState : Internal := (accepted tables addpsContext default default).get addps_isSome

theorem addps_ranged : addpsState.diagram.Ranged ∧ addpsState.diagram.Fields :=
  accepted_ranged (Option.some_get addps_isSome).symm (by decide)

end Excerpt

open Excerpt in
/-- The `reg` operand is XMM0. -/
theorem registerNumber_addps :
    addpsState.diagram.NumbersRegister (getIs4Value (contextBuffer addpsContext) addpsState).1
      (xmmNode 6) (decodeNodeRegisterValue (contextBuffer addpsContext) addpsState (xmmNode 6)).1 :=
  (registerNumber_iff (contextBuffer addpsContext) addpsState (xmmNode 6) addps_ranged.1
    addps_ranged.2 trivial rfl (by right; right; right; rfl)).mpr
    (by
      change addpsState.diagram.ReadsHigh _ _
      exact ⟨fun hlong => absurd hlong (by decide), fun _ hrm => absurd hrm (by decide)⟩)

open Excerpt in
/-- The `rm` operand is read as XMM17: X is taken for bit 4 without EVEX. -/
theorem not_registerNumber_addps :
    ¬∀ (buf : Buffer) (s : Internal) (node : DbReg), s.diagram.Ranged → s.diagram.Fields →
      s.diagram.Encodes node.encodedin → node.hasEncodedin = true →
      node.symbol.RequestsRegister →
      s.diagram.NumbersRegister (getIs4Value buf s).1 node
        (decodeNodeRegisterValue buf s node).1 := by
  intro h
  have hnumber := h (contextBuffer addpsContext) addpsState (xmmNode 7) addps_ranged.1
    addps_ranged.2 trivial rfl (by right; right; right; rfl)
  exact absurd hnumber.value (by decide)

end Amed.X86

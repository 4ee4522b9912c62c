import Mathlib.Data.Int.ModEq
import Mathlib.Tactic.Ring
import Amed.AArch32.Outcome
import Amed.AArch32.Excerpt

/-!
# Branch labels

The offset of a 32-bit branch: `I1` and `I2` are made of `J1`, `J2` and the sign, and stand between
the sign and the immediate.

## Implementation notes

`decode_arg_label` clears the places of `I1` and `I2`, and then shifts the two bits right where they
should go left.
-/

namespace Amed.AArch32

open BitFields

/-! ## The fields -/

/-- The fields `S`, `J1` and `J2`. -/
def signField : Field := ⟨26, 1⟩
def j1Field : Field := ⟨13, 1⟩
def j2Field : Field := ⟨11, 1⟩

/-- A node of kind `labelj`, with the row S:J1:J2:imm. -/
structure LabeljNode (db : Db) (node : DbAny) where
  fields : List Field
  piece : DbEncodedin
  rest : List DbEncodedin
  symbol : node.symbol = .labelj
  signpos : node.signpos = true
  row : db.encodedins node.encodedin = [⟨0x04002800, 3⟩, piece] ++ ⟨0, 0⟩ :: rest
  reads : ReadsFields piece fields
  fits : totalWidth fields ≤ 29

theorem readsFields_sign : ReadsFields ⟨0x04002800, 3⟩ [signField, j1Field, j2Field] := by
  refine ⟨by decide, by decide, fun w => ?_⟩
  have hmask : (0x04002800 : BitVec 32).toNat =
      signField.mask ||| j1Field.mask ||| j2Field.mask := by
    decide
  have hsign : j1Field.Below signField.mask := Field.below_mask (by decide)
  have hj1 : j2Field.Below (signField.mask ||| j1Field.mask) :=
    (Field.below_mask (by decide)).or (Field.below_mask (by decide))
  rw [hmask, gather_or_mask hj1 (by decide), gather_or_mask hsign (by decide),
    gather_mask (by decide)]
  simp [concat]

/-- The scale of a label. -/
def labelScale (node : DbAny) : Nat := if node.scale ≠ 0 then node.scale.toNat else 1

variable {db : Db} {node : DbAny} (h : LabeljNode db node) (opcode : BitVec 32)

/-- The immediate, and its width. -/
def LabeljNode.width : Nat := totalWidth h.fields
def LabeljNode.imm : Nat := concat h.fields opcode.toNat

/-- `SignExtend(S:I1:I2:imm)` with `I1 = NOT(J1 EOR S)` and `I2 = NOT(J2 EOR S)`. -/
def LabeljNode.offset : Int :=
  let s := signField.get opcode.toNat
  let i1 := if j1Field.get opcode.toNat = s then 1 else 0
  let i2 := if j2Field.get opcode.toNat = s then 1 else 0
  ((i1 * 2 + i2) * 2 ^ h.width + h.imm opcode : Nat) - (s * 2 ^ (h.width + 2) : Nat)

/-- What is read. -/
theorem LabeljNode.read :
    (readEncodedinValue (db.encodedins node.encodedin) opcode).1.toNat =
        2 ^ h.width * (signField.get opcode.toNat * 4 + (j1Field.get opcode.toNat * 2 +
          j2Field.get opcode.toNat)) + h.imm opcode ∧
      (readEncodedinValue (db.encodedins node.encodedin) opcode).2 = h.width + 3 := by
  have hpieces : List.Forall₂ ReadsFields [⟨0x04002800, 3⟩, h.piece]
      [[signField, j1Field, j2Field], h.fields] := .cons readsFields_sign (.cons h.reads .nil)
  have hfits := h.fits
  have hthree : totalWidth [signField, j1Field, j2Field] = 3 := by decide
  have hwidth : totalWidth ([] : List Field) +
      totalWidth [[signField, j1Field, j2Field], h.fields].flatten ≤ 32 := by
    rw [List.flatten_cons, List.flatten_cons, List.flatten_nil, List.append_nil,
      totalWidth_append, hthree]
    change 0 + _ ≤ 32
    omega
  have hread := readPieces_eq hpieces h.rest opcode [] hwidth 0 rfl
  rw [List.nil_append, List.flatten_cons, List.flatten_cons, List.flatten_nil, List.append_nil,
    concat_append, totalWidth_append, hthree] at hread
  rw [h.row, readEncodedinValue]
  refine ⟨hread.1.trans ?_, hread.2.trans (Nat.add_comm _ _)⟩
  rw [Nat.mul_comm, LabeljNode.width, LabeljNode.imm]
  simp only [concat, List.foldl_cons, List.foldl_nil, signField, j1Field, j2Field]
  ring

/-! ## What the code makes of them -/

/-- A bit that is shifted right is lost. -/
theorem bit_ushiftRight (p : Prop) [Decidable p] {k : Nat} (hk : 0 < k) :
    (if p then (1 : BitVec 32) else 0) >>> k = 0 := by
  have hpow : 2 ^ 1 ≤ 2 ^ k := Nat.pow_le_pow_right (by decide) hk
  apply BitVec.eq_of_toNat_eq
  rw [BitVec.toNat_ushiftRight, Nat.shiftRight_eq_div_pow]
  split
  · exact Nat.div_eq_of_lt (Nat.lt_of_lt_of_le (by decide) hpow)
  · exact Nat.zero_div _

theorem joinLabel_eq (value : BitVec 32) {w : Nat} (hw : 0 < w) :
    joinLabel value (w + 3) = value &&& ~~~((3 : BitVec 32) <<< w) := by
  have hor : (0 : BitVec 32) ||| 0 = 0 := by decide
  rw [joinLabel, bit_ushiftRight _ (by omega), bit_ushiftRight _ (by omega), hor]
  exact BitVec.or_zero

/-- The places of `I1` and `I2` are cleared, and stay so. -/
theorem toNat_joinLabel {value : BitVec 32} {w s j imm : Nat} (hw : 0 < w) (hfits : w ≤ 29)
    (hs : s < 2) (hj : j < 4) (himm : imm < 2 ^ w)
    (hvalue : value.toNat = 2 ^ w * (s * 4 + j) + imm) :
    (joinLabel value (w + 3)).toNat = 2 ^ w * (s * 4) + imm := by
  have hquad : ∀ a < 4, ∀ i, (s * 4 + a).testBit i =
      if i < 2 then a.testBit i else s.testBit (i - 2) := by
    intro a ha i
    have hsmall : a < 2 ^ 2 := ha
    rw [Nat.mul_comm s 4]
    exact Nat.testBit_two_pow_mul_add s hsmall i
  rw [joinLabel_eq value hw]
  apply Nat.eq_of_testBit_eq
  intro i
  rw [BitVec.testBit_toNat, BitVec.getLsbD_and, BitVec.getLsbD_not, BitVec.getLsbD_shiftLeft,
    ← BitVec.testBit_toNat, hvalue, Nat.testBit_two_pow_mul_add _ himm,
    Nat.testBit_two_pow_mul_add _ himm]
  by_cases hlow : i < w
  · simp [hlow, (by omega : i < 32)]
  · have hthree : (3 : BitVec 32).getLsbD (i - w) = decide (i - w < 2) :=
      Nat.testBit_two_pow_sub_one 2 (i - w)
    have hclear := hquad 0 (by decide) (i - w)
    rw [Nat.add_zero] at hclear
    rw [if_neg hlow, if_neg hlow, hquad j hj, hclear, hthree, decide_eq_false hlow]
    by_cases hplace : i - w < 2
    · simp [hplace, (by omega : i < 32)]
    · by_cases hsign : i - w = 2
      · simp [hsign, (by omega : i < 32)]
      · have hhigh : s.testBit (i - w - 2) = false := by
          apply Nat.testBit_lt_two_pow
          calc s < 2 ^ 1 := hs
            _ ≤ 2 ^ (i - w - 2) := Nat.pow_le_pow_right (by decide) (by omega)
        rw [if_neg hplace, if_neg hplace, hhigh, Bool.false_and]

/-- A set sign takes the place of all the bits above it. -/
theorem toNat_or_signMask {x : BitVec 64} {i y : Nat} (hi : i < 64) (hy : y < 2 ^ i)
    (hx : x.toNat = 2 ^ i * 1 + y) :
    (x ||| BitVec.allOnes 64 <<< i).toNat = 2 ^ i * (2 ^ (64 - i) - 1) + y := by
  apply Nat.eq_of_testBit_eq
  intro j
  rw [BitVec.testBit_toNat, BitVec.getLsbD_or, ← BitVec.testBit_toNat, hx,
    Nat.testBit_two_pow_mul_add _ hy, Nat.testBit_two_pow_mul_add _ hy, BitVec.getLsbD_shiftLeft,
    BitVec.getLsbD_allOnes, Nat.testBit_two_pow_sub_one]
  by_cases hlow : j < i
  · simp [hlow]
  · rw [if_neg hlow, if_neg hlow, decide_eq_false hlow, Bool.not_false, Bool.and_true]
    by_cases hin : j < 64
    · simp [hin, (by omega : j - i < 64), (by omega : j - i < 64 - i)]
    · have hone : (1 : Nat).testBit (j - i) = false := by
        apply Nat.testBit_lt_two_pow
        calc 1 < 2 ^ 1 := by decide
          _ ≤ 2 ^ (j - i) := Nat.pow_le_pow_right (by decide) (by omega)
      rw [hone, decide_eq_false hin, decide_eq_false (by omega : ¬j - i < 64 - i)]
      rfl

/-- `sign_extend64` of a sign and the bits below it. -/
theorem toNat_signExtend64 {x : BitVec 64} {i s y : Nat} (hi : i < 63) (hs : s < 2)
    (hy : y < 2 ^ i) (hx : x.toNat = 2 ^ i * s + y) :
    ((signExtend64 x i).toNat : Int) = ((y : Int) - (2 ^ i * s : Nat)) % 2 ^ 64 := by
  have hsmall : 2 ^ i ≤ 2 ^ 62 := Nat.pow_le_pow_right (by decide) (by omega)
  have hbit : x.getLsbD i = decide (s = 1) := by
    rw [← BitVec.testBit_toNat, hx, Nat.testBit_two_pow_mul_add _ hy, if_neg (Nat.lt_irrefl i),
      Nat.sub_self, Nat.testBit_zero, decide_eq_decide]
    omega
  rw [signExtend64, hbit]
  by_cases hone : s = 1
  · subst hone
    have hsplit : 2 ^ i * (2 ^ (64 - i) - 1) = 2 ^ 64 - 2 ^ i := by
      rw [Nat.mul_sub, ← Nat.pow_add, Nat.add_sub_cancel' (by omega), Nat.mul_one]
    rw [decide_eq_true rfl, if_pos rfl, toNat_or_signMask (by omega) hy hx, hsplit]
    omega
  · have hzero : s = 0 := by omega
    subst hzero
    rw [decide_eq_false (by decide), if_neg Bool.false_ne_true, hx]
    omega

/-! ## The condition -/

/-- The label is decoded to the offset, times the scale. -/
structure LabelExact (o : Operand) : Prop where
  decoded : (decodeArgLabel db o node).1 = true
  offset : ((decodeArgLabel db o node).2.argument.get Cell.imm : Int) =
    h.offset o.internal.opcode * labelScale node % 2 ^ 64

/-- The value is that of the sign and the immediate only. -/
theorem toNat_signedLabel {value scale : BitVec 32} {s j : Nat} (hs : s < 2) (hj : j < 4)
    (hvalue : value.toNat = 2 ^ h.width * (s * 4 + j) + h.imm opcode) :
    ((signedLabel node (joinLabel value (h.width + 3)) scale (h.width + 3)).1.toNat : Int) =
      ((h.imm opcode : Int) - (s * 2 ^ (h.width + 2) : Nat)) * scale.toNat % 2 ^ 64 := by
  have hpos : 0 < h.width := by
    rw [LabeljNode.width, ← h.reads.size]
    exact h.reads.size_pos
  have himm : h.imm opcode < 2 ^ h.width := concat_lt _ _
  have hjoin := toNat_joinLabel hpos h.fits hs hj himm hvalue
  have hquad : 2 ^ (h.width + 2) = 2 ^ h.width * 4 := Nat.pow_add 2 _ 2
  have hwide : ((joinLabel value (h.width + 3)).setWidth 64).toNat =
      2 ^ (h.width + 2) * s + h.imm opcode := by
    rw [BitVec.toNat_setWidth_of_le (by decide), hjoin, hquad]
    ring
  have hfits : h.width ≤ 29 := h.fits
  have hsigned := toNat_signExtend64 (i := h.width + 2) (by omega) hs (by omega) hwide
  rw [signedLabel, if_pos h.signpos, BitVec.toNat_mul, Int.natCast_emod, Nat.cast_mul,
    BitVec.toNat_setWidth_of_le (by decide), Nat.mul_comm s]
  have hmod := (Int.mod_modEq ((h.imm opcode : Int) - (2 ^ (h.width + 2) * s : Nat))
    (2 ^ 64)).mul_right (scale.toNat : Int)
  rw [← hsigned] at hmod
  exact hmod

/-- The offset is stored as it is. -/
theorem decodeArgLabel_of_offset {o : Operand} {imm : BitVec 64} {dt : Datatype}
    (hoffset : labelOffset node (readEncodedinValue (db.encodedins node.encodedin)
      o.internal.opcode).1 (readEncodedinValue (db.encodedins node.encodedin) o.internal.opcode).2 =
        some (imm, dt)) :
    (decodeArgLabel db o node).1 = true ∧
      (decodeArgLabel db o node).2.argument.get Cell.imm = imm.toNat := by
  have hlt : imm.toNat < 256 ^ Cell.imm.width := imm.isLt
  rw [decodeArgLabel]
  dsimp only
  rw [hoffset]
  exact ⟨rfl, (Argument.get_put _ _ _).trans (Nat.mod_eq_of_lt hlt)⟩

/-- What is decoded. -/
theorem decodeArgLabel_labelj (o : Operand) :
    (decodeArgLabel db o node).1 = true ∧
      ((decodeArgLabel db o node).2.argument.get Cell.imm : Int) =
        ((h.imm o.internal.opcode : Int) -
          (signField.get o.internal.opcode.toNat * 2 ^ (h.width + 2) : Nat)) *
            labelScale node % 2 ^ 64 := by
  obtain ⟨hvalue, hnb⟩ := h.read o.internal.opcode
  have hs : signField.get o.internal.opcode.toNat < 2 := Field.get_lt _ _
  have hj1 : j1Field.get o.internal.opcode.toNat < 2 := Field.get_lt _ _
  have hj2 : j2Field.get o.internal.opcode.toNat < 2 := Field.get_lt _ _
  have hscale : labelScale node = (if node.scale ≠ 0 then node.scale else 1).toNat := by
    rw [labelScale]
    split <;> rfl
  have hlabel : labelOffset node (readEncodedinValue (db.encodedins node.encodedin)
      o.internal.opcode).1 (readEncodedinValue (db.encodedins node.encodedin) o.internal.opcode).2 =
        some (signedLabel node (joinLabel (readEncodedinValue (db.encodedins node.encodedin)
          o.internal.opcode).1 (h.width + 3)) (if node.scale ≠ 0 then node.scale else 1)
          (h.width + 3)) := by
    rw [labelOffset, h.symbol, hnb]
  obtain ⟨hdecoded, hstored⟩ := decodeArgLabel_of_offset hlabel
  rw [hstored, hscale]
  exact ⟨hdecoded, toNat_signedLabel h o.internal.opcode hs (by omega) hvalue⟩

/-- What is lost from the offset is less than a word: it makes a difference unless it is nothing. -/
theorem lost_iff {lost scale w : Nat} (decoded : Int) (hlost : lost ≤ 3) (hw : w ≤ 29)
    (hpos : 0 < scale) (hscale : scale < 2 ^ 32) :
    decoded * scale % 2 ^ 64 = ((lost * 2 ^ w : Nat) + decoded) * scale % 2 ^ 64 ↔ lost = 0 := by
  constructor
  · intro heq
    have hpow : 2 ^ w ≤ 2 ^ 29 := Nat.pow_le_pow_right (by decide) hw
    have hbound : lost * 2 ^ w * scale < 2 ^ 64 := by
      calc lost * 2 ^ w * scale ≤ 3 * 2 ^ 29 * 2 ^ 32 :=
            Nat.mul_le_mul (Nat.mul_le_mul hlost hpow) (Nat.le_of_lt hscale)
        _ < 2 ^ 64 := by decide
    have hsub := Int.emod_eq_emod_iff_emod_sub_eq_zero.1 heq.symm
    have hdiff : ((lost * 2 ^ w : Nat) + decoded) * scale - decoded * scale =
        ((lost * 2 ^ w * scale : Nat) : Int) := by
      push_cast
      ring
    rw [hdiff] at hsub
    have hzero : lost * 2 ^ w * scale = 0 := by omega
    rcases Nat.mul_eq_zero.1 hzero with hprod | hnone
    · exact (Nat.mul_eq_zero.1 hprod).resolve_right (Nat.two_pow_pos w).ne'
    · exact absurd hnone hpos.ne'
  · rintro rfl
    rw [Nat.zero_mul, Nat.cast_zero, Int.zero_add]

theorem labelScale_pos (node : DbAny) : 0 < labelScale node := by
  rw [labelScale]
  split
  · rename_i hne
    exact Nat.pos_of_ne_zero fun hzero => hne (BitVec.eq_of_toNat_eq hzero)
  · decide

theorem labelScale_lt (node : DbAny) : labelScale node < 2 ^ 32 := by
  rw [labelScale]
  split
  · exact node.scale.isLt
  · decide

/-- `I1` and `I2`, that the code loses. -/
def lostBits (opcode : Nat) : Nat :=
  (if j1Field.get opcode = signField.get opcode then 1 else 0) * 2 +
    (if j2Field.get opcode = signField.get opcode then 1 else 0)

theorem LabeljNode.offset_eq : h.offset opcode = (lostBits opcode.toNat * 2 ^ h.width : Nat) +
    ((h.imm opcode : Int) - (signField.get opcode.toNat * 2 ^ (h.width + 2) : Nat)) := by
  rw [LabeljNode.offset, lostBits, Nat.cast_add]
  exact Int.add_sub_assoc _ _ _

theorem lostBits_le (opcode : Nat) : lostBits opcode ≤ 3 := by
  rw [lostBits]
  split <;> split <;> decide

theorem lostBits_eq_zero_iff (opcode : Nat) : lostBits opcode = 0 ↔
    j1Field.get opcode ≠ signField.get opcode ∧ j2Field.get opcode ≠ signField.get opcode := by
  rw [lostBits]
  split <;> split <;> simp [*]

/-- Where the label of a branch is right. -/
theorem labelExact_iff (o : Operand) :
    LabelExact h o ↔
      j1Field.get o.internal.opcode.toNat ≠ signField.get o.internal.opcode.toNat ∧
        j2Field.get o.internal.opcode.toNat ≠ signField.get o.internal.opcode.toNat := by
  obtain ⟨hdecoded, hstored⟩ := decodeArgLabel_labelj h o
  rw [← lostBits_eq_zero_iff]
  have hlost := lost_iff ((h.imm o.internal.opcode : Int) -
    (signField.get o.internal.opcode.toNat * 2 ^ (h.width + 2) : Nat))
    (lostBits_le o.internal.opcode.toNat) h.fits (labelScale_pos node) (labelScale_lt node)
  rw [← hlost]
  constructor
  · rintro ⟨-, hoffset⟩
    rw [hstored, LabeljNode.offset_eq] at hoffset
    exact hoffset
  · intro heq
    refine ⟨hdecoded, ?_⟩
    rw [hstored, LabeljNode.offset_eq]
    exact heq

/-! ## The label of `B.W` -/

namespace LabelExcerpt

/-- The row S:J1:J2:imm10:imm11. -/
def tables : Db :=
  { Excerpt.tables with
    encodedins := fun i =>
      if i = 45 then [⟨0x04002800, 3⟩, ⟨0x03ff07ff, 21⟩, ⟨0, 0⟩] else Excerpt.encodedins i }

def label : DbAny :=
  { symbol := .labelj, datatype := .i32, pair := true, hasEncodedin := true, encodedin := 45
    scale := 2 }

theorem readsFields_imm : ReadsFields ⟨0x03ff07ff, 21⟩ [⟨16, 10⟩, ⟨0, 11⟩] := by
  refine ⟨by decide, by decide, fun w => ?_⟩
  have hmask : (0x03ff07ff : BitVec 32).toNat =
      (⟨16, 10⟩ : Field).mask ||| (⟨0, 11⟩ : Field).mask := by
    decide
  rw [hmask, gather_or_mask (Field.below_mask (by decide)) (by decide), gather_mask (by decide)]
  simp [concat]

def labelNode : LabeljNode tables label where
  fields := [⟨16, 10⟩, ⟨0, 11⟩]
  piece := ⟨0x03ff07ff, 21⟩
  rest := []
  symbol := rfl
  signpos := rfl
  row := rfl
  reads := readsFields_imm
  fits := by decide

end LabelExcerpt

/-- `B.W` forward by 12 MiB is decoded to a branch to itself. -/
theorem not_labelExact_forward : ¬∀ (db : Db) (node : DbAny) (h : LabeljNode db node) (o : Operand),
    LabelExact h o := by
  intro h
  have hlabel := (h LabelExcerpt.tables LabelExcerpt.label LabelExcerpt.labelNode
    { internal := { Excerpt.blank with opcode := 0xf0009000 }, argument := default }).offset
  revert hlabel
  decide +kernel

end Amed.AArch32

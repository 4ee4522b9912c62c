import Amed.AArch64.Bitfield

/-!
# The operands of bit fields

The operands `lsb` and `width` of an alias of `SBFM`, `UBFM` or `BFM`, and the fields they are
encoded in. The width of an extraction depends on the operand before it.
-/

namespace Amed.AArch64

open BitFields Search

/-! ## The fields -/

/-- An encoded value in one piece is that of the field. -/
theorem readEncodedinValue_field {f : Field} {mask : BitVec 32} (hmask : mask.toNat = f.mask)
    (hpos : 0 < f.width) (hfit : f.pos + f.width ≤ 32) (opcode : BitVec 32) :
    (readEncodedinValue [⟨mask, f.width⟩] opcode).1.toNat = f.get opcode.toNat := by
  have hsize : f.width ≠ 0 := by omega
  have hread : (readEncodedinValue [⟨mask, f.width⟩] opcode).1 = getMaskedValue opcode mask := by
    rw [readEncodedinValue, readPieces]
    dsimp only
    rw [if_neg hsize]
    exact (congrArg (· ||| _) (BitVec.zero_shiftLeft _)).trans (BitVec.zero_or)
  rw [hread, toNat_getMaskedValue, hmask, gather_mask hfit]

/-! ## The aliases -/

/-- The mnemonics of the aliases that insert, and of those that extract. -/
def insertMnemonics : List Nat := [Mnemonic.sbfiz, Mnemonic.ubfiz, Mnemonic.bfc, Mnemonic.bfi]
def extractMnemonics : List Nat := [Mnemonic.sbfx, Mnemonic.ubfx, Mnemonic.bfxil]

/-- The nodes of the two operands. -/
def lsbNode : DbAny :=
  { symbol := .lsb, datatype := .u8, hasEncodedin := true, encodedin := 19 }
def widthNode : DbAny :=
  { symbol := .width, datatype := .u8, hasEncodedin := true, encodedin := 15 }

/-- The tables hold an alias with the two operands, as the generator writes it. -/
structure BitfieldAlias (db : Db) (encoding : Nat) where
  template : Nat
  registers : List DbAny
  other : Nat → BitVec 32 → Bool
  templates : candidates db (db.encodings encoding) = [template]
  bitdiffs : (db.templates template).bitdiffs = 0
  arguments : db.arguments (db.templates template).arguments =
    registers.map .reg ++ [.imm lsbNode, .imm widthNode]
  immr : db.encodedins 19 = [⟨0x003f0000, 6⟩]
  imms : db.encodedins 15 = [⟨0x0000fc00, 6⟩]
  word : (db.encodings encoding).mask.getLsbD 31 = true
  datasize : (db.encodings encoding).datasize =
    if (db.encodings encoding).opcode.getLsbD 31 then 2 else 1
  condition : db.aliascond (db.encodings encoding).aliascond =
    isAliasConditionOk other (db.encodings encoding).aliascond
  kind : db.iform2mnem (db.templates template).iform ∈ insertMnemonics ∧
      (db.encodings encoding).aliascond = 3 ∨
    db.iform2mnem (db.templates template).iform ∈ extractMnemonics ∧
      ((db.encodings encoding).aliascond = 4 ∨ (db.encodings encoding).aliascond = 14)

/-- The mnemonic of the alias. -/
def BitfieldAlias.mnemonic {db : Db} {encoding : Nat} (h : BitfieldAlias db encoding) : Nat :=
  db.iform2mnem (db.templates h.template).iform

/-! ## The operands of a word -/

/-- The fields that the definition of the alias encodes the operands in. -/
def encodeImmr (mnemonic datasize lsb : Nat) : Nat :=
  if mnemonic ∈ insertMnemonics then (datasize - lsb) % datasize else lsb
def encodeImms (mnemonic lsb width : Nat) : Nat :=
  if mnemonic ∈ insertMnemonics then width - 1 else lsb + width - 1

/-- The operands are in range and are encoded in the fields of the word. -/
structure RoundTrips (opcode : BitVec 32) (mnemonic datasize lsb width : Nat) : Prop where
  lsb_lt : lsb < datasize
  width_pos : 1 ≤ width
  width_le : width ≤ datasize - lsb
  immr : encodeImmr mnemonic datasize lsb = fieldImmr opcode
  imms : encodeImms mnemonic lsb width = fieldImms opcode

section Formulas

variable {mnemonic : Nat} (lsb datasize value : BitVec 32)

theorem decodeImmLsb_insert (hm : mnemonic ∈ insertMnemonics) :
    decodeImmLsb mnemonic datasize value = (datasize - value) &&& (datasize - 1) := if_pos hm

theorem decodeImmLsb_extract (hm : mnemonic ∉ insertMnemonics) :
    decodeImmLsb mnemonic datasize value = value := if_neg hm

theorem decodeImmWidth_insert (hm : mnemonic ∈ insertMnemonics) :
    decodeImmWidth mnemonic lsb value = value + 1 := if_pos hm

theorem decodeImmWidth_extract (hm : mnemonic ∉ insertMnemonics) (he : mnemonic ∈ extractMnemonics) :
    decodeImmWidth mnemonic lsb value = value + 1 - lsb := (if_neg hm).trans (if_pos he)

end Formulas

/-- The operands as the code computes them from the fields. -/
def lsbOf (mnemonic : Nat) (opcode : BitVec 32) : BitVec 32 :=
  decodeImmLsb mnemonic (BitVec.ofNat 32 (registerSize (fieldSf opcode)))
    (BitVec.ofNat 32 (fieldImmr opcode))
def widthOf (mnemonic : Nat) (opcode : BitVec 32) : BitVec 32 :=
  decodeImmWidth mnemonic (lsbOf mnemonic opcode) (BitVec.ofNat 32 (fieldImms opcode))

theorem fieldImmr_lt {opcode : BitVec 32} (h : AllocatedBitfield opcode) :
    fieldImmr opcode < registerSize (fieldSf opcode) := by
  have hlt : fieldImmr opcode < 64 := Nat.mod_lt _ (by decide)
  cases hsf : fieldSf opcode with
  | true => exact hlt
  | false => exact (h.word hsf).1

/-- The rotation that puts a field to `immr` from the top. -/
theorem toNat_negate {sf : Bool} {immr : Nat} (h : immr < registerSize sf) :
    ((BitVec.ofNat 32 (registerSize sf) - BitVec.ofNat 32 immr) &&&
        (BitVec.ofNat 32 (registerSize sf) - 1)).toNat =
      (registerSize sf - immr) % registerSize sf := by
  obtain ⟨k, hk, hpow⟩ : ∃ k, k < 7 ∧ registerSize sf = 2 ^ k := by
    cases sf
    · exact ⟨5, by decide, rfl⟩
    · exact ⟨6, by decide, rfl⟩
  have hsize : 2 ^ k ≤ 2 ^ 6 := Nat.pow_le_pow_right (by decide) (by omega)
  have hone : 1 ≤ 2 ^ k := Nat.one_le_two_pow
  rw [hpow] at h ⊢
  have hsub : (BitVec.ofNat 32 (2 ^ k) - BitVec.ofNat 32 immr).toNat = 2 ^ k - immr := by
    rw [BitVec.toNat_sub, BitVec.toNat_ofNat, BitVec.toNat_ofNat,
      Nat.mod_eq_of_lt (by omega : immr < 2 ^ 32), Nat.mod_eq_of_lt (by omega : 2 ^ k < 2 ^ 32)]
    omega
  have hmask : (BitVec.ofNat 32 (2 ^ k) - 1).toNat = 2 ^ k - 1 := by
    rw [BitVec.toNat_sub, BitVec.toNat_ofNat, Nat.mod_eq_of_lt (by omega : 2 ^ k < 2 ^ 32)]
    change (2 ^ 32 - 1 + 2 ^ k) % 2 ^ 32 = _
    omega
  rw [BitVec.toNat_and, hsub, hmask, Nat.and_two_pow_sub_one_eq_mod]

theorem roundTrips_of_insert {opcode : BitVec 32} {mnemonic : Nat} (hm : mnemonic ∈ insertMnemonics)
    (hword : AllocatedBitfield opcode) (h : fieldImms opcode < fieldImmr opcode) :
    RoundTrips opcode mnemonic (registerSize (fieldSf opcode)) (lsbOf mnemonic opcode).toNat
      (widthOf mnemonic opcode).toNat := by
  have hr := fieldImmr_lt hword
  have hsize := registerSize_eq (fieldSf opcode)
  have hlsb : (lsbOf mnemonic opcode).toNat = registerSize (fieldSf opcode) - fieldImmr opcode := by
    rw [lsbOf, decodeImmLsb_insert _ _ hm, toNat_negate hr, Nat.mod_eq_of_lt (by omega)]
  have hwidth : (widthOf mnemonic opcode).toNat = fieldImms opcode + 1 := by
    rw [widthOf, decodeImmWidth_insert _ _ hm, BitVec.toNat_add, BitVec.toNat_ofNat]
    change (fieldImms opcode % 2 ^ 32 + 1) % 2 ^ 32 = _
    omega
  rw [hlsb, hwidth]
  constructor
  · omega
  · omega
  · omega
  · rw [encodeImmr, if_pos hm, Nat.mod_eq_of_lt (by omega)]
    omega
  · rw [encodeImms, if_pos hm]
    rfl

theorem roundTrips_of_extract {opcode : BitVec 32} {mnemonic : Nat}
    (hm : mnemonic ∈ extractMnemonics) (hword : AllocatedBitfield opcode)
    (h : fieldImmr opcode ≤ fieldImms opcode) :
    RoundTrips opcode mnemonic (registerSize (fieldSf opcode)) (lsbOf mnemonic opcode).toNat
      (widthOf mnemonic opcode).toNat := by
  have hs := fieldImms_lt hword
  have hsize := registerSize_eq (fieldSf opcode)
  have hother : ∀ m ∈ extractMnemonics, m ∉ insertMnemonics := by decide
  have hnot := hother mnemonic hm
  have hlsb : (lsbOf mnemonic opcode).toNat = fieldImmr opcode := by
    rw [lsbOf, decodeImmLsb_extract _ _ hnot, BitVec.toNat_ofNat, Nat.mod_eq_of_lt (by omega)]
  have hwidth : (widthOf mnemonic opcode).toNat = fieldImms opcode + 1 - fieldImmr opcode := by
    rw [widthOf, decodeImmWidth_extract _ _ hnot hm, BitVec.toNat_sub, hlsb, BitVec.toNat_add,
      BitVec.toNat_ofNat]
    change (2 ^ 32 - _ + (fieldImms opcode % 2 ^ 32 + 1) % 2 ^ 32) % 2 ^ 32 = _
    omega
  rw [hlsb, hwidth]
  constructor
  · omega
  · omega
  · omega
  · rw [encodeImmr, if_neg hnot]
  · rw [encodeImms, if_neg hnot]
    omega

/-! ## The operands the decoder writes -/

section Nodes

theorem Fills.mnemonic {s s' : Internal} (h : Fills s s') : s'.insn.mnemonic = s.insn.mnemonic :=
  congrArg (fun f => f.2.2.2.2.2.mnemonic) h.outline

theorem Fills.datasize {s s' : Internal} (h : Fills s s') : s'.datasize = s.datasize :=
  congrArg (fun f => f.2.2.2.2.1) h.outline

variable (db : Db) (stale : Argument)

/-- Registers are decoded one after another. -/
theorem decodeNodesFrom_registers (registers : List DbAny) (nodes : List DbNode) (i : Nat)
    (s : Internal) :
    ∃ s', Fills s s' ∧ decodeNodesFrom db stale (registers.map .reg ++ nodes) i s =
      decodeNodesFrom db stale nodes (i + registers.length) s' := by
  induction registers generalizing i s with
  | nil => exact ⟨s, ⟨rfl, .refl _⟩, rfl⟩
  | cons register registers ih =>
      obtain ⟨s', hfills, hrest⟩ := ih (i + 1) (afterNode db stale s i (.reg register))
      refine ⟨s', (afterNode_fills db stale s i _).trans hfills, ?_⟩
      have hdecodes : decodes db s.opcode (.reg register) = true := rfl
      have hnext : i + 1 + registers.length = i + (register :: registers).length := by
        rw [List.length_cons]
        omega
      rw [List.map_cons, List.cons_append, decodeNodesFrom_cons, if_pos hdecodes, hrest, hnext]

variable {db}

theorem decodeAny_field {opcode : BitVec 32} {node : DbAny} {f : Field} {mask : BitVec 32}
    (hnode : node.hasEncodedin = true) (htable : node.table = none)
    (hpieces : db.encodedins node.encodedin = [⟨mask, f.width⟩]) (hmask : mask.toNat = f.mask)
    (hpos : 0 < f.width) (hfit : f.pos + f.width ≤ 32) :
    decodeAny db opcode node =
      some ⟨.encodedin, BitVec.ofNat 32 (f.get opcode.toNat), f.width⟩ := by
  have hvalue := readEncodedinValue_field hmask hpos hfit opcode
  have hsize : (readEncodedinValue [⟨mask, f.width⟩] opcode).2 = f.width := by
    have hnonzero : f.width ≠ 0 := by omega
    rw [readEncodedinValue, readPieces]
    dsimp only
    rw [if_neg hnonzero, readPieces, Nat.zero_add]
  have hread : (readEncodedinValue [⟨mask, f.width⟩] opcode).1 =
      BitVec.ofNat 32 (f.get opcode.toNat) := by
    rw [← hvalue, BitVec.ofNat_toNat, BitVec.setWidth_eq]
  rw [decodeAny, if_pos hnode, hpieces, htable]
  dsimp only
  rw [hread, hsize]

/-- What an encoded immediate is decoded to. -/
theorem afterNode_imm {node : DbAny} {value : BitVec 32} {nb : Nat} {s : Internal} (i : Nat)
    (h : decodeAny db s.opcode node = some ⟨.encodedin, value, nb⟩) :
    afterNode db stale s i (.imm node) =
      (decodeEncodedImm ⟨s, { (clearArgument (s.insn.arguments i)).put Cell.imm 0 with
        type := .immediate
        datatype := node.datatype
        attributes.read := true }⟩ node value nb).store i := by
  rw [afterNode, decodeNode]
  dsimp only
  rw [decodeArgImm]
  dsimp only
  rw [h]

/-- The node of `lsb` sets the register of the decoder and its slot. -/
theorem afterNode_lsb {encoding : Nat} (h : BitfieldAlias db encoding) (s : Internal) (i : Nat) :
    (afterNode db stale s i (.imm lsbNode)).lsb =
        decodeImmLsb s.insn.mnemonic (BitVec.ofNat 32 s.datasize)
          (BitVec.ofNat 32 (fieldImmr s.opcode)) ∧
      ((afterNode db stale s i (.imm lsbNode)).insn.arguments i).get Cell.immWord =
        (decodeImmLsb s.insn.mnemonic (BitVec.ofNat 32 s.datasize)
          (BitVec.ofNat 32 (fieldImmr s.opcode))).toNat := by
  have hany := @decodeAny_field db s.opcode lsbNode ⟨16, 6⟩ 0x003f0000 rfl rfl h.immr (by decide)
    (by decide) (by decide)
  rw [afterNode_imm stale i hany]
  refine ⟨rfl, ?_⟩
  rw [Operand.store, Insn.setArgument_same]
  exact (Argument.get_put _ _ _).trans (Nat.mod_eq_of_lt (BitVec.isLt _))

/-- The node of `width` sets its slot. -/
theorem afterNode_width {encoding : Nat} (h : BitfieldAlias db encoding) (s : Internal) (i : Nat) :
    ((afterNode db stale s i (.imm widthNode)).insn.arguments i).get Cell.immWord =
      (decodeImmWidth s.insn.mnemonic s.lsb (BitVec.ofNat 32 (fieldImms s.opcode))).toNat := by
  have hany := @decodeAny_field db s.opcode widthNode ⟨10, 6⟩ 0x0000fc00 rfl rfl h.imms (by decide)
    (by decide) (by decide)
  rw [afterNode_imm stale i hany, Operand.store, Insn.setArgument_same]
  exact (Argument.get_put _ _ _).trans (Nat.mod_eq_of_lt (BitVec.isLt _))

/-- Both operands, behind the registers. -/
theorem decodeNodesFrom_bitfield {encoding : Nat} (h : BitfieldAlias db encoding) (s : Internal) :
    let final := (decodeNodesFrom db stale (h.registers.map .reg ++
      [.imm lsbNode, .imm widthNode]) 0 s).2
    let lsb := decodeImmLsb s.insn.mnemonic (BitVec.ofNat 32 s.datasize)
      (BitVec.ofNat 32 (fieldImmr s.opcode))
    (final.insn.arguments h.registers.length).get Cell.immWord = lsb.toNat ∧
      (final.insn.arguments (h.registers.length + 1)).get Cell.immWord =
        (decodeImmWidth s.insn.mnemonic lsb (BitVec.ofNat 32 (fieldImms s.opcode))).toNat := by
  obtain ⟨s', hfills, hregisters⟩ :=
    decodeNodesFrom_registers db stale h.registers [.imm lsbNode, .imm widthNode] 0 s
  rw [Nat.zero_add] at hregisters
  generalize h.registers.length = k at hregisters
  obtain ⟨hlsb, hslot⟩ := afterNode_lsb stale h s' k
  have hbetween := afterNode_fills db stale s' k (.imm lsbNode)
  have hwidth := afterNode_width stale h (afterNode db stale s' k (.imm lsbNode)) (k + 1)
  rw [hfills.mnemonic, hfills.datasize, hfills.opcode] at hlsb hslot
  rw [hbetween.mnemonic, hfills.mnemonic, hlsb, hbetween.opcode, hfills.opcode] at hwidth
  have htrue : ∀ opcode node, decodes db opcode (.imm node) = true := fun _ _ => rfl
  dsimp only
  rw [hregisters, decodeNodesFrom_cons, if_pos (htrue _ _), decodeNodesFrom_cons,
    if_pos (htrue _ _)]
  constructor
  · rw [decodeNodesFrom_below db stale [] _ _ (by omega), afterNode_arguments _ _ _ _ _ (by omega),
      hslot]
  · rw [decodeNodesFrom_below db stale [] _ _ (by omega), hwidth]

end Nodes

/-! ## The operands of an instruction -/

section Steps

variable {db : Db} {ctx : Context} {stale : Argument} {insn : Insn} {encoding : Nat}

theorem enterTemplate_datasize (db : Db) (template : Nat) (s : Internal) :
    (enterTemplate db template s).datasize = s.datasize := by
  rw [enterTemplate, beginTemplate, decodeCondition]
  split <;> rfl

/-- The alias has a word of the size it is chosen for, and its condition holds. -/
theorem chosenAlias_word (h : BitfieldAlias db encoding)
    (hchosen : chosenAlias db ctx stale insn = some encoding) :
    (db.encodings encoding).datasize * 2 ^ 5 = registerSize (fieldSf (fetchOpcode ctx)) ∧
      isAliasConditionOk h.other (db.encodings encoding).aliascond (fetchOpcode ctx) = true := by
  rw [chosenAlias] at hchosen
  split at hchosen
  · have hfound := List.find?_some hchosen
    rw [Bool.and_eq_true, decide_eq_true_eq, h.condition] at hfound
    obtain ⟨hmatch, hcondition⟩ := hfound
    refine ⟨?_, hcondition⟩
    have hbit : (db.encodings encoding).opcode.getLsbD 31 = fieldSf (fetchOpcode ctx) := by
      rw [← hmatch, BitVec.getLsbD_and, h.word, Bool.and_true]
      rfl
    rw [h.datasize, hbit, registerSize]
    split <;> rfl
  · cases hchosen

/-- What a chosen alias leaves in the instruction. -/
theorem decodeInsn_bitfield (h : BitfieldAlias db encoding)
    (hok : (decodeInsn db ctx stale insn).1 = true)
    (hchosen : chosenAlias db ctx stale insn = some encoding) :
    (decodeInsn db ctx stale insn).2.mnemonic = h.mnemonic ∧
      ((decodeInsn db ctx stale insn).2.arguments h.registers.length).get Cell.immWord =
        (lsbOf h.mnemonic (fetchOpcode ctx)).toNat ∧
      ((decodeInsn db ctx stale insn).2.arguments (h.registers.length + 1)).get Cell.immWord =
        (widthOf h.mnemonic (fetchOpcode ctx)).toNat := by
  rw [decodeInsn_fst, decide_eq_true_eq] at hok
  obtain ⟨hlength, hmatch⟩ := hok
  obtain ⟨hsize, -⟩ := chosenAlias_word h hchosen
  have hopcode := (baseState_holds db ctx stale insn hmatch).1
  rw [decodeInsn_of_match db ctx stale insn hlength hmatch,
    aliasStep_of_some db ctx stale insn hmatch hchosen]
  generalize hentered : enterEncoding db encoding (baseState db ctx stale insn) = s
  have hs : s.opcode = fetchOpcode ctx := by
    rw [← hentered]
    exact hopcode
  have hdatasize : s.datasize = registerSize (fieldSf (fetchOpcode ctx)) := by
    rw [← hentered]
    exact hsize
  have hcond : conditionsHold db s.opcode h.template = true := by
    rw [conditionsHold, h.bitdiffs]
    rfl
  have hdecodes : templateDecodes db s.opcode h.template = true := by
    rw [templateDecodes, hcond, h.arguments, Bool.true_and, List.all_append, List.all_map]
    simp [decodes]
  have haccepted : (decodeTemplate db stale h.template s).1 = true := by
    rw [decodeTemplate_fst, hdecodes]
  have htry : tryEncoding db stale encoding (baseState db ctx stale insn) =
      finishTemplate db (enteredNodes db stale h.template s).2 := by
    rw [tryEncoding, h.templates, hentered, tryEach_of_accepted _ haccepted, decodeTemplate_eq,
      if_pos hcond, if_pos hdecodes]
  obtain ⟨hop, -, -, -, -, -, hmnemonic⟩ := enterTemplate_fixed db h.template s
  have hnodes := decodeNodesFrom_bitfield stale h (enterTemplate db h.template s)
  have hfills := enteredNodes_fills db stale h.template s
  rw [hop, hmnemonic, enterTemplate_datasize, hdatasize, hs, ← h.arguments] at hnodes
  rw [htry]
  exact ⟨hfills.mnemonic.trans hmnemonic, hnodes⟩

/-- The operands of a bit field are in range and are encoded in the fields of the word. -/
theorem bitfield_roundTrips (h : BitfieldAlias db encoding)
    (hword : AllocatedBitfield (fetchOpcode ctx)) (hok : (decodeInsn db ctx stale insn).1 = true)
    (hchosen : chosenAlias db ctx stale insn = some encoding) :
    RoundTrips (fetchOpcode ctx) (decodeInsn db ctx stale insn).2.mnemonic
      (registerSize (fieldSf (fetchOpcode ctx)))
      (((decodeInsn db ctx stale insn).2.arguments h.registers.length).get Cell.immWord)
      (((decodeInsn db ctx stale insn).2.arguments (h.registers.length + 1)).get
        Cell.immWord) := by
  obtain ⟨hmnemonic, hlsb, hwidth⟩ := decodeInsn_bitfield h hok hchosen
  obtain ⟨-, hcondition⟩ := chosenAlias_word h hchosen
  rw [hmnemonic, hlsb, hwidth]
  rcases h.kind with ⟨hm, hindex⟩ | ⟨hm, hindex | hindex⟩
  · rw [hindex] at hcondition
    exact roundTrips_of_insert hm hword (of_decide_eq_true hcondition)
  · rw [hindex] at hcondition
    exact roundTrips_of_extract hm hword (of_decide_eq_true hcondition)
  · rw [hindex] at hcondition
    have hpreferred := (bfxPreferred_eq_true_iff _ _ (fieldImms_lt hword)).mp hcondition
    exact roundTrips_of_extract hm hword hpreferred.1

end Steps

/-! ## The tables of `BFM` -/

namespace BfmExcerpt

/-- The record of an alias. -/
def aliasRecord (opcode mask : BitVec 32) (cclass template aliascond datasize : Nat) : DbEncoding :=
  { opcode := opcode, mask := mask, iclass := 8, cclass := cclass, firstTemplate := template
    templateCount := 1, aliascond := aliascond, datasize := datasize, categories := [29, 5, 0, 0]
    page := true }

/-- `BFM` of both sizes, and its aliases `BFC`, `BFI` and `BFXIL`. -/
def encodings : Nat → DbEncoding
  | 47 => { opcode := 0x33000000, mask := 0xffc00000, iclass := 8, cclass := 27
            firstTemplate := 49, templateCount := 1, aliascond := 29, hasAlias := true
            datasize := 1, categories := [29, 5, 18, 0], page := true }
  | 48 => { opcode := 0xb3400000, mask := 0xffc00000, iclass := 8, cclass := 27
            firstTemplate := 50, templateCount := 1, aliascond := 33, hasAlias := true
            datasize := 2, categories := [29, 5, 18, 0], page := true }
  | 599 => aliasRecord 0x330003e0 0xffc003e0 314 619 3 1
  | 600 => aliasRecord 0xb34003e0 0xffc003e0 314 620 3 2
  | 601 => aliasRecord 0x33000000 0xffc00000 315 621 3 1
  | 602 => aliasRecord 0xb3400000 0xffc00000 315 622 3 2
  | 603 => aliasRecord 0x33000000 0xffc00000 316 623 4 1
  | 604 => aliasRecord 0xb3400000 0xffc00000 316 624 4 2
  | _ => { opcode := 0, mask := 0, firstTemplate := 0, templateCount := 1, page := true }

def templates : Nat → DbTemplate
  | 49 => { iform := 32, arguments := 101 }
  | 50 => { iform := 32, arguments := 106 }
  | 619 => { iform := 389, arguments := 1220 }
  | 620 => { iform := 389, arguments := 1224 }
  | 621 => { iform := 390, arguments := 1228 }
  | 622 => { iform := 390, arguments := 1233 }
  | 623 => { iform := 391, arguments := 1238 }
  | 624 => { iform := 391, arguments := 1243 }
  | _ => { iform := 1, bitdiffs := 1 }

/-- The registers of the bits 4:0, written, and 9:5, read. -/
def destination (symbol : Symbol) : DbAny :=
  { symbol := symbol, write := true, hasEncodedin := true, encodedin := 1 }
def source (symbol : Symbol) : DbAny :=
  { symbol := symbol, read := true, hasEncodedin := true, encodedin := 3 }

/-- The fields of the base, as they are. -/
def fieldNodes : List DbNode :=
  [.imm { datatype := .u8, hasEncodedin := true, encodedin := 19 },
    .imm { datatype := .u8, hasEncodedin := true, encodedin := 15 }]

def arguments : Nat → List DbNode
  | 101 => [destination .gpr32, source .gpr32].map .reg ++ fieldNodes
  | 106 => [destination .gpr64, source .gpr64].map .reg ++ fieldNodes
  | 1220 => [destination .gpr32].map .reg ++ [.imm lsbNode, .imm widthNode]
  | 1224 => [destination .gpr64].map .reg ++ [.imm lsbNode, .imm widthNode]
  | 1228 | 1238 => [destination .gpr32, source .gpr32].map .reg ++ [.imm lsbNode, .imm widthNode]
  | 1233 | 1243 => [destination .gpr64, source .gpr64].map .reg ++ [.imm lsbNode, .imm widthNode]
  | _ => []

def encodedins : Nat → List DbEncodedin
  | 1 => [⟨0x0000001f, 5⟩]
  | 3 => [⟨0x000003e0, 5⟩]
  | 15 => [⟨0x0000fc00, 6⟩]
  | 19 => [⟨0x003f0000, 6⟩]
  | _ => []

def mnemonics : Nat → Nat
  | 32 => 28
  | 389 => Mnemonic.bfc
  | 390 => Mnemonic.bfi
  | 391 => Mnemonic.bfxil
  | _ => 1

def tables : Db where
  encodings := encodings
  templates := templates
  bitdiffs := fun _ => ⟨0, 0⟩
  encodedins := encodedins
  arguments := arguments
  aliases := fun i => if i = 29 then [599, 601, 603] else if i = 33 then [600, 602, 604] else []
  reginfo := fun _ => { symbol := .none, size := 0, isEven := false, isLast := false }
  iform2mnem := mnemonics
  iflags := fun _ => []
  aliascond := isAliasConditionOk fun _ _ => false
  a64 := .ifThen (.entry 0xffc00000 0x33000000 []) (.leaf 47)
    (.ifThen (.entry 0xffc00000 0xb3400000 []) (.leaf 48) .empty)

/-- The record of the 64-bit `BFI`. -/
def bfiAlias : BitfieldAlias tables 602 where
  template := 622
  registers := [destination .gpr64, source .gpr64]
  other := fun _ _ => false
  templates := rfl
  bitdiffs := rfl
  arguments := rfl
  immr := rfl
  imms := rfl
  word := by decide
  datasize := by decide
  condition := rfl
  kind := Or.inl (by decide)

end BfmExcerpt

open BfmExcerpt in
/-- `BFI X0, X1, #60, #3`. -/
theorem bitfield_roundTrips_bfi : RoundTrips 0xb3440820 Mnemonic.bfi 64 60 3 :=
  @bitfield_roundTrips tables (Excerpt.contextOf 0x20 0x08 0x44 0xb3 4 true) default default 602
    bfiAlias ⟨by decide, by decide, by decide, by decide⟩ (by decide) (by decide)

end Amed.AArch64

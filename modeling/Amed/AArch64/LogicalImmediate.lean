import Amed.Library.Runs
import Amed.Arm.Miss

/-!
# Logical immediates

`decode_logimm` against the bit masks it should make: a run of ones, moved down inside an element
and repeated up to the register size.

## Implementation notes

The function has one way to fail, an element size that does not exist. It lets the other reserved
patterns through, and `decode_arg_imm` does not look at its outcome.
-/

namespace Amed.AArch64

open Runs

/-! ## Bit masks -/

/-- The fields of `N:imms:immr`. -/
def immN (value : BitVec 32) : Nat := value.toNat / 2 ^ 12 % 2
def immS (value : BitVec 32) : Nat := value.toNat / 2 ^ 6 % 2 ^ 6
def immR (value : BitVec 32) : Nat := value.toNat % 2 ^ 6

/-- `N:NOT(imms)`, whose highest bit gives the element size. -/
def sizeBits (value : BitVec 32) : Nat := immN value * 2 ^ 6 + (63 - immS value)

/-- The size of an element. -/
def elementSize (value : BitVec 32) : Nat := 2 ^ Nat.log2 (sizeBits value)

/-- No bit stands for an element size of at least 2. -/
def NoElementSize (value : BitVec 32) : Prop := sizeBits value < 2

/-- The patterns that are not allocated. -/
def Reserved (value : BitVec 32) (datasize : Nat) : Prop :=
  NoElementSize value ∨ immN value = 1 ∧ datasize = 32 ∨
    immS value % elementSize value = elementSize value - 1

instance (value : BitVec 32) : Decidable (NoElementSize value) :=
  inferInstanceAs (Decidable (_ < _))

instance (value : BitVec 32) (datasize : Nat) : Decidable (Reserved value datasize) :=
  inferInstanceAs (Decidable (_ ∨ _))

/-- A position of the mask holds a one. -/
def MaskBit (value : BitVec 32) (i : Nat) : Prop :=
  InRun (elementSize value) (immS value % elementSize value) (immR value % elementSize value) i

instance (value : BitVec 32) (i : Nat) : Decidable (MaskBit value i) :=
  inferInstanceAs (Decidable (InRun _ _ _ _))

/-- `DecodeBitMasks`: the run, repeated up to the register size. -/
def decodeBitMasks (value : BitVec 32) (datasize : Nat) : BitVec 64 :=
  (BitVec.ofBoolListLE ((List.range datasize).map fun i => decide (MaskBit value i))).setWidth 64

theorem getLsbD_decodeBitMasks {value : BitVec 32} {datasize i : Nat} (hi : i < 64) :
    (decodeBitMasks value datasize).getLsbD i =
      (decide (i < datasize) && decide (MaskBit value i)) := by
  rw [decodeBitMasks, BitVec.getLsbD_setWidth, BitVec.getLsbD_ofBoolListLE, decide_eq_true hi,
    Bool.true_and]
  by_cases hlt : i < datasize
  · simp [hlt]
  · simp [hlt]

/-! ## What the code makes -/

theorem getLsbD_replicate64 {count i : Nat} (hcount : count ≤ 64) :
    (replicate64 count).getLsbD i = decide (i < count) := by
  rw [replicate64, BitVec.getLsbD_ushiftRight, BitVec.getLsbD_allOnes]
  congr 1
  rw [eq_iff_iff]
  omega

theorem getLsbD_ror64 {e s r i : Nat} (he : e ≤ 64) (hs : s < e) (hr : r < e) :
    (ror64 (replicate64 (s + 1)) r e).getLsbD i = (decide (i < e) && decide (InRun e s r i)) := by
  have hcount : s + 1 ≤ 64 := by omega
  rw [← Bool.decide_and]
  by_cases hzero : r = 0
  · subst hzero
    rw [ror64, if_pos rfl, getLsbD_replicate64 hcount, decide_eq_decide, InRun]
    constructor
    · intro hi
      rw [Nat.mod_eq_of_lt (by omega)]
      omega
    · rintro ⟨hi, hrun⟩
      rw [Nat.mod_eq_of_lt (by omega)] at hrun
      omega
  · rw [ror64, if_neg hzero, BitVec.getLsbD_and, BitVec.getLsbD_or, BitVec.getLsbD_ushiftRight,
      BitVec.getLsbD_shiftLeft, getLsbD_replicate64 hcount, getLsbD_replicate64 hcount,
      getLsbD_replicate64 he, Bool.and_comm]
    by_cases hi : i < e
    · rw [decide_eq_true hi, Bool.true_and, decide_eq_true (by omega : i < 64), Bool.true_and]
      rcases Nat.lt_or_ge (i + r) e with hin | hwrap
      · -- the bits that are shifted right
        have hrun : InRun e s r i ↔ r + i < s + 1 := by
          rw [InRun, Nat.mod_eq_of_lt hin]
          omega
        simp [hrun, hi, (by omega : i < e - r)]
      · -- the bits that come in from the left
        have hrun : InRun e s r i ↔ i - (e - r) < s + 1 := by
          rw [InRun, Nat.mod_eq_sub_mod hwrap, Nat.mod_eq_of_lt (by omega)]
          omega
        rw [decide_eq_false (by omega : ¬i < e - r), decide_eq_false (by omega : ¬r + i < s + 1)]
        simp [hrun, hi]
    · simp [hi]

/-- Lanes that are put one above the other. -/
theorem getLsbD_lanes {lane : BitVec 64} {e : Nat} (hlane : ∀ j, e ≤ j → lane.getLsbD j = false)
    (he : 0 < e) {j : Nat} (hj : j < 64) (number : Nat) :
    ((List.range number).foldl (fun limm i => limm ||| lane <<< (i * e)) 0).getLsbD j =
      (decide (j < number * e) && lane.getLsbD (j % e)) := by
  induction number with
  | zero => simp
  | succ number ih =>
      rw [List.range_succ, List.foldl_append, List.foldl_cons, List.foldl_nil, BitVec.getLsbD_or,
        ih, BitVec.getLsbD_shiftLeft, decide_eq_true hj, Bool.true_and]
      have hsucc : (number + 1) * e = number * e + e := Nat.succ_mul number e
      by_cases hlow : j < number * e
      · simp [hlow, (by omega : j < (number + 1) * e)]
      · rw [decide_eq_false hlow, Bool.false_and, Bool.false_or, Bool.not_false, Bool.true_and]
        by_cases hhigh : j < (number + 1) * e
        · have hmod : j % e = j - number * e := by
            have hsplit : j = (j - number * e) + number * e := by omega
            rw [hsplit, Nat.add_mul_mod_self_right, Nat.add_sub_cancel,
              Nat.mod_eq_of_lt (by omega)]
          rw [decide_eq_true hhigh, Bool.true_and, hmod]
        · rw [decide_eq_false hhigh, Bool.false_and]
          exact hlane _ (by omega)

theorem sizeBits_lt (value : BitVec 32) : sizeBits value < 2 ^ 7 := by
  have hn : immN value < 2 := Nat.mod_lt _ (by decide)
  rw [sizeBits]
  omega

theorem elementSize_le (value : BitVec 32) : elementSize value ≤ 64 := by
  rw [elementSize]
  by_cases hzero : sizeBits value = 0
  · rw [hzero]
    decide
  · have hlog := (Nat.log2_lt hzero).mpr (sizeBits_lt value)
    calc 2 ^ Nat.log2 (sizeBits value) ≤ 2 ^ 6 := Nat.pow_le_pow_right (by decide) (by omega)
      _ = 64 := by decide

/-- An element fits into the register. -/
theorem elementSize_dvd {value : BitVec 32} {datasize : Nat} (hds : datasize = 32 ∨ datasize = 64)
    (hn : ¬(immN value = 1 ∧ datasize = 32)) : elementSize value ∣ datasize := by
  rw [elementSize]
  by_cases hzero : sizeBits value = 0
  · rw [hzero]
    exact one_dvd datasize
  · have hlog := (Nat.log2_lt hzero).mpr (sizeBits_lt value)
    rcases hds with rfl | rfl
    · have hsmall : sizeBits value < 2 ^ 6 := by
        have hlt : immN value < 2 := Nat.mod_lt _ (by decide)
        rw [sizeBits]
        omega
      have hlog' := (Nat.log2_lt hzero).mpr hsmall
      exact Nat.pow_dvd_pow 2 (by omega : Nat.log2 (sizeBits value) ≤ 5)
    · exact Nat.pow_dvd_pow 2 (by omega : Nat.log2 (sizeBits value) ≤ 6)

theorem getHiBitPos_lt_one_iff (value : BitVec 32) :
    getHiBitPos (sizeBits value) < 1 ↔ NoElementSize value := by
  rw [getHiBitPos, NoElementSize]
  by_cases hzero : sizeBits value = 0
  · rw [hzero]
    decide
  · exact Nat.log2_lt hzero

/-- The element, cut to a lane where it has at least a byte. -/
def element (value : BitVec 32) : BitVec 64 :=
  let e := elementSize value
  let eimm := ror64 (replicate64 (immS value % e + 1)) (immR value % e) e
  if e < 8 then eimm else eimm &&& replicate64 e

theorem decodeLogimm_eq {value : BitVec 32} {datasize : Nat} (hds : datasize ≠ 0) :
    decodeLogimm value datasize =
      if NoElementSize value then none
      else some ((List.range (datasize / elementSize value)).foldl
        (fun limm i => limm ||| element value <<< (i * elementSize value)) 0) := by
  have hlen := getHiBitPos_lt_one_iff value
  rw [decodeLogimm, if_neg hds]
  by_cases hsize : NoElementSize value
  · rw [if_pos hsize]
    exact if_pos (hlen.mpr hsize)
  · rw [if_neg hsize]
    exact if_neg (mt hlen.mp hsize)

theorem getLsbD_element (value : BitVec 32) (i : Nat) :
    (element value).getLsbD i =
      (decide (i < elementSize value) && decide (MaskBit value i)) := by
  have hpos : 0 < elementSize value := Nat.two_pow_pos _
  have hle := elementSize_le value
  have hror : (ror64 (replicate64 (immS value % elementSize value + 1))
        (immR value % elementSize value) (elementSize value)).getLsbD i =
      (decide (i < elementSize value) && decide (MaskBit value i)) :=
    getLsbD_ror64 hle (Nat.mod_lt _ hpos) (Nat.mod_lt _ hpos)
  rw [element]
  split
  · exact hror
  · rw [BitVec.getLsbD_and, getLsbD_replicate64 hle, hror]
    cases decide (i < elementSize value) <;> simp

/-- `decode_logimm` fails just where there is no element size. -/
theorem decodeLogimm_eq_none_iff {value : BitVec 32} {datasize : Nat} (hds : datasize ≠ 0) :
    decodeLogimm value datasize = none ↔ NoElementSize value := by
  rw [decodeLogimm_eq hds]
  split
  · rename_i h
    exact iff_of_true rfl h
  · rename_i h
    exact iff_of_false (fun hnone => by cases hnone) h

/-- And makes the mask of every pattern that is not reserved. -/
theorem decodeLogimm_of_not_reserved {value : BitVec 32} {datasize : Nat}
    (hds : datasize = 32 ∨ datasize = 64) (h : ¬Reserved value datasize) :
    decodeLogimm value datasize = some (decodeBitMasks value datasize) := by
  rw [Reserved, not_or, not_or] at h
  obtain ⟨hsize, hn, -⟩ := h
  have hpos : 0 < elementSize value := Nat.two_pow_pos _
  rw [decodeLogimm_eq (by omega), if_neg hsize]
  congr 1
  apply BitVec.eq_of_getLsbD_eq
  intro i hi
  have hhigh : ∀ j, elementSize value ≤ j → (element value).getLsbD j = false := by
    intro j hj
    rw [getLsbD_element, decide_eq_false (by omega), Bool.false_and]
  have hmask : MaskBit value (i % elementSize value) ↔ MaskBit value i := by
    rw [MaskBit, MaskBit, InRun, InRun, Nat.mod_add_mod]
  rw [getLsbD_lanes hhigh hpos hi, Nat.div_mul_cancel (elementSize_dvd hds hn), getLsbD_element,
    getLsbD_decodeBitMasks hi, decide_eq_true (Nat.mod_lt i hpos), Bool.true_and]
  simp only [hmask]

/-! ## Reserved values and values without an element size -/

/-- `decode_logimm` does what is specified. -/
structure LogimmAgrees (value : BitVec 32) (datasize : Nat) : Prop where
  defined : ¬Reserved value datasize →
    decodeLogimm value datasize = some (decodeBitMasks value datasize)
  fails_iff : decodeLogimm value datasize = none ↔ Reserved value datasize

theorem logimmAgrees_iff {value : BitVec 32} {datasize : Nat}
    (hds : datasize = 32 ∨ datasize = 64) :
    LogimmAgrees value datasize ↔ (Reserved value datasize → NoElementSize value) := by
  have hnone := @decodeLogimm_eq_none_iff value datasize (by omega)
  constructor
  · intro h hreserved
    exact hnone.mp (h.fails_iff.mpr hreserved)
  · intro h
    exact ⟨decodeLogimm_of_not_reserved hds, hnone.trans ⟨Or.inl, h⟩⟩

section Instructions

variable (db : Db) (ctx : Context) (stale : Argument) (insn : Insn)

/-- The value of `N:imms:immr` that a node hands to `decode_logimm`. -/
def logicalValue (opcode : BitVec 32) (node : DbAny) : Option (BitVec 32) :=
  if node.symbol = .aimm then
    match decodeAny db opcode node with
    | some ⟨.encodedin, value, _⟩ => some value
    | _ => none
  else none

/-- The immediate of a node. -/
def immediateOf : DbNode → Option DbAny
  | .imm node | .fpimm node | .label node => some node
  | .immsh node => some node.op
  | _ => none

/-- The template an instruction is decoded with. -/
def selectedTemplate : Option Nat :=
  (candidates db (db.encodings (selectedEncoding db ctx stale insn))).find?
    (templateDecodes db (fetchOpcode ctx))

/-- The instruction has a logical immediate that is reserved. -/
def HoldsReserved : Prop :=
  ∃ template, selectedTemplate db ctx stale insn = some template ∧
    ∃ node ∈ db.arguments (db.templates template).arguments, ∃ imm value,
      immediateOf node = some imm ∧ logicalValue db (fetchOpcode ctx) imm = some value ∧
        Reserved value ((db.encodings (selectedEncoding db ctx stale insn)).datasize * 2 ^ 5)

/-- An instruction with a reserved logical immediate is not a defined one. -/
def ReservedCaught : Prop :=
  (decodeInsn db ctx stale insn).1 = true → HoldsReserved db ctx stale insn →
    (decodeInsn db ctx stale insn).2.attributes.isUndefined = true

/-- No instruction with one is caught. -/
theorem reservedCaught_iff :
    ReservedCaught db ctx stale insn ↔
      ctx.length = 0 ∨ ¬MatchesLookup db ctx ∨ ¬HoldsReserved db ctx stale insn := by
  by_cases hlength : ctx.length = 0
  · simp [ReservedCaught, decodeInsn_fst, hlength]
  · by_cases hmatch : MatchesLookup db ctx
    · rw [ReservedCaught, decodeInsn_of_match db ctx stale insn hlength hmatch,
        aliasStep_isUndefined ctx stale insn db hmatch]
      simp [hlength, hmatch]
    · simp [ReservedCaught, decodeInsn_fst, hmatch]

/-- Where the reserved patterns are reported: those of `decode_logimm` that have no element size,
and no instruction. -/
theorem logicalImmediate_iff {value : BitVec 32} {datasize : Nat}
    (hds : datasize = 32 ∨ datasize = 64) :
    (LogimmAgrees value datasize ↔ (Reserved value datasize → NoElementSize value)) ∧
      (ReservedCaught db ctx stale insn ↔
        ctx.length = 0 ∨ ¬MatchesLookup db ctx ∨ ¬HoldsReserved db ctx stale insn) :=
  ⟨logimmAgrees_iff hds, reservedCaught_iff db ctx stale insn⟩

open Excerpt in
theorem logicalImmediate_iff_ones : ¬LogimmAgrees 0x7c0 32 := by
  intro h
  have hiff := @logicalImmediate_iff tables (contextOf 0x2c 0x05 0x10 0x5e 4 true) default default
    0x7c0 32 (Or.inl rfl)
  exact absurd (hiff.1.mp h (by decide)) (by decide)

end Instructions

/-- A word of ones is made of `imms` = 31, which is reserved. -/
theorem not_logimmAgrees_ones :
    ¬∀ (value : BitVec 32) (datasize : Nat), datasize = 32 ∨ datasize = 64 →
      LogimmAgrees value datasize := by
  intro h
  have hnone := (h 0x7c0 32 (Or.inl rfl)).fails_iff.mpr (by decide)
  exact absurd hnone (by decide)

end Amed.AArch64

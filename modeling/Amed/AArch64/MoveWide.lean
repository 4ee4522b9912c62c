import Amed.AArch64.LogicalImmediate
import Amed.AArch64.AliasConditions

/-!
# Logical immediates and wide moves

When `MoveWidePreferred` says that a logical immediate could also be moved by a `MOVZ` or a `MOVN`.
A 16-bit immediate in a halfword makes the patterns whose ones lie in that halfword, its inverse
those whose zeros do.

## Implementation notes

The C remainder of a negative number is not positive, so the test on the ones is always passed. The
test on the zeros allows for 14 of them, where its comment speaks of 16.
-/

namespace Amed.AArch64

open Runs

/-- The size of a register. -/
def registerSize (sf : Bool) : Nat := if sf then 64 else 32

/-! ## What a wide move makes -/

/-- `hw:imm16`. -/
def wideField (hw imm16 : Nat) : BitVec 32 := BitVec.ofNat 32 (hw * 2 ^ 16 + imm16)

/-- The value of a wide move is that of the logical immediate, modulo the register size. -/
def WideRepresentable (value : BitVec 32) (datasize : Nat) : Prop :=
  ∃ (hw imm16 : Nat) (inverted : Bool), hw * 16 < datasize ∧ imm16 < 2 ^ 16 ∧
    (decodeWideImmAlias (wideField hw imm16) datasize inverted).toNat % 2 ^ datasize =
      (decodeBitMasks value datasize).toNat

variable {datasize : Nat}

theorem decodeWideImmAlias_wideField {hw imm16 : Nat} (hds : datasize = 32 ∨ datasize = 64)
    (hhw : hw * 16 < datasize) (himm : imm16 < 2 ^ 16) (inverted : Bool) :
    decodeWideImmAlias (wideField hw imm16) datasize inverted =
      if inverted then ~~~(BitVec.ofNat 64 imm16 <<< (hw * 16))
      else BitVec.ofNat 64 imm16 <<< (hw * 16) := by
  have hsmall : hw < 4 := by omega
  have hvalue : (wideField hw imm16).toNat = hw * 2 ^ 16 + imm16 := by
    rw [wideField, BitVec.toNat_ofNat, Nat.mod_eq_of_lt (by omega)]
  have hhigh : (hw * 2 ^ 16 + imm16) / 2 ^ 16 % 4 = hw := by omega
  have hlow : (hw * 2 ^ 16 + imm16) % 2 ^ 16 = imm16 := by omega
  have hshift : ¬(2 ≤ hw ∧ datasize = 32) := by omega
  rw [decodeWideImmAlias, hvalue, hhigh, hlow, if_neg hshift]

/-- The bits of a 16-bit immediate in a halfword. -/
theorem getLsbD_wide {hw imm16 i : Nat} (himm : imm16 < 2 ^ 16) (hi : i < 64) :
    (BitVec.ofNat 64 imm16 <<< (hw * 16)).getLsbD i =
      (decide (i / 16 = hw) && imm16.testBit (i - hw * 16)) := by
  rw [BitVec.getLsbD_shiftLeft, BitVec.getLsbD_ofNat, decide_eq_true hi, Bool.true_and,
    decide_eq_true (by omega : i - hw * 16 < 64), Bool.true_and]
  rcases Nat.lt_or_ge i (hw * 16) with hlow | hge
  · rw [decide_eq_true hlow, decide_eq_false (by omega : ¬i / 16 = hw)]
    rfl
  · rw [decide_eq_false (by omega : ¬i < hw * 16), Bool.not_false, Bool.true_and]
    by_cases hin : i / 16 = hw
    · rw [decide_eq_true hin, Bool.true_and]
    · have hlarge : 16 ≤ i - hw * 16 := by omega
      rw [decide_eq_false hin, Bool.false_and]
      apply Nat.testBit_lt_two_pow
      calc imm16 < 2 ^ 16 := himm
        _ ≤ 2 ^ (i - hw * 16) := Nat.pow_le_pow_right (by decide) hlarge

/-- A bit pattern is made by a 16-bit immediate just where its ones lie in one halfword. -/
theorem exists_wide_iff (hds : datasize = 32 ∨ datasize = 64) (p : Nat → Prop) [DecidablePred p] :
    (∃ hw imm16 : Nat, hw * 16 < datasize ∧ imm16 < 2 ^ 16 ∧ ∀ i < datasize,
      (BitVec.ofNat 64 imm16 <<< (hw * 16)).getLsbD i = decide (p i)) ↔
      ∃ k, ∀ i < datasize, p i → i / 16 = k := by
  constructor
  · rintro ⟨hw, imm16, hhw, himm, hbits⟩
    refine ⟨hw, fun i hi hp => ?_⟩
    have hbit := hbits i hi
    rw [getLsbD_wide himm (by omega), decide_eq_true hp, Bool.and_eq_true] at hbit
    exact of_decide_eq_true hbit.1
  · rintro ⟨k, hk⟩
    by_cases hin : k * 16 < datasize
    · let field := BitVec.ofBoolListLE ((List.range 16).map fun j => decide (p (k * 16 + j)))
      have hfield : field.toNat < 2 ^ 16 := by
        calc field.toNat < 2 ^ ((List.range 16).map fun j => decide (p (k * 16 + j))).length :=
              field.isLt
          _ = 2 ^ 16 := by rw [List.length_map, List.length_range]
      refine ⟨k, field.toNat, hin, hfield, fun i hi => ?_⟩
      rw [getLsbD_wide hfield (by omega)]
      by_cases hblock : i / 16 = k
      · have hpos : k * 16 + (i - k * 16) = i := by omega
        have hlt : i - k * 16 < 16 := by omega
        have hbit : field.toNat.testBit (i - k * 16) = decide (p i) := by
          rw [BitVec.testBit_toNat, BitVec.getLsbD_ofBoolListLE]
          simp [hlt, hpos]
        rw [decide_eq_true hblock, Bool.true_and, hbit]
      · have hnot : ¬p i := fun hp => hblock (hk i hi hp)
        rw [decide_eq_false hblock, Bool.false_and, decide_eq_false hnot]
    · refine ⟨0, 0, by omega, by decide, fun i hi => ?_⟩
      have hnot : ¬p i := fun hp => by
        have hblock := hk i hi hp
        omega
      rw [decide_eq_false hnot]
      simp

theorem toNat_mod_eq_iff {x y : BitVec 64} (hy : ∀ i, datasize ≤ i → y.getLsbD i = false) :
    x.toNat % 2 ^ datasize = y.toNat ↔ ∀ i < datasize, x.getLsbD i = y.getLsbD i := by
  constructor
  · intro h i hi
    have hbit : (x.toNat % 2 ^ datasize).testBit i = y.toNat.testBit i := by rw [h]
    rwa [Nat.testBit_mod_two_pow, decide_eq_true hi, Bool.true_and, BitVec.testBit_toNat,
      BitVec.testBit_toNat] at hbit
  · intro h
    apply Nat.eq_of_testBit_eq
    intro i
    rw [Nat.testBit_mod_two_pow, BitVec.testBit_toNat, BitVec.testBit_toNat]
    by_cases hi : i < datasize
    · rw [decide_eq_true hi, Bool.true_and, h i hi]
    · rw [decide_eq_false hi, Bool.false_and, hy i (by omega)]

/-- The ones, or the zeros, of the mask lie in one halfword. -/
theorem wideRepresentable_iff (hds : datasize = 32 ∨ datasize = 64) (value : BitVec 32) :
    WideRepresentable value datasize ↔
      (∃ k, ∀ i < datasize, MaskBit value i → i / 16 = k) ∨
        ∃ k, ∀ i < datasize, ¬MaskBit value i → i / 16 = k := by
  have hmask : ∀ i < datasize,
      (decodeBitMasks value datasize).getLsbD i = decide (MaskBit value i) := by
    intro i hi
    rw [getLsbD_decodeBitMasks (by omega), decide_eq_true hi, Bool.true_and]
  have hhigh : ∀ i, datasize ≤ i → (decodeBitMasks value datasize).getLsbD i = false := by
    intro i hi
    rcases Nat.lt_or_ge i 64 with hlt | hge
    · rw [getLsbD_decodeBitMasks hlt, decide_eq_false (by omega), Bool.false_and]
    · exact BitVec.getLsbD_of_ge _ i hge
  rw [← exists_wide_iff hds (MaskBit value), ← exists_wide_iff hds fun i => ¬MaskBit value i]
  constructor
  · rintro ⟨hw, imm16, inverted, hhw, himm, hvalue⟩
    rw [decodeWideImmAlias_wideField hds hhw himm, toNat_mod_eq_iff hhigh] at hvalue
    cases inverted with
    | false => exact Or.inl ⟨hw, imm16, hhw, himm, fun i hi => (hvalue i hi).trans (hmask i hi)⟩
    | true =>
        refine Or.inr ⟨hw, imm16, hhw, himm, fun i hi => ?_⟩
        have hbit := (hvalue i hi).trans (hmask i hi)
        rw [if_pos rfl, BitVec.getLsbD_not, decide_eq_true (by omega : i < 64), Bool.true_and]
          at hbit
        rw [decide_not, ← hbit, Bool.not_not]
  · rintro (⟨hw, imm16, hhw, himm, hbits⟩ | ⟨hw, imm16, hhw, himm, hbits⟩)
    · refine ⟨hw, imm16, false, hhw, himm, ?_⟩
      rw [decodeWideImmAlias_wideField hds hhw himm, toNat_mod_eq_iff hhigh]
      exact fun i hi => (hbits i hi).trans (hmask i hi).symm
    · refine ⟨hw, imm16, true, hhw, himm, ?_⟩
      rw [decodeWideImmAlias_wideField hds hhw himm, toNat_mod_eq_iff hhigh]
      intro i hi
      rw [if_pos rfl, BitVec.getLsbD_not, decide_eq_true (by omega : i < 64), Bool.true_and,
        hbits i hi, hmask i hi, decide_not, Bool.not_not]

/-! ## Elements below the register size -/

/-- The mask of a pattern that is not reserved has a one and a zero in every element. -/
theorem exists_maskBit (value : BitVec 32) : ∃ i < elementSize value, MaskBit value i := by
  exact exists_inRun (Nat.two_pow_pos _) _ _

theorem exists_not_maskBit {value : BitVec 32} (h : ¬Reserved value datasize) :
    ∃ i < elementSize value, ¬MaskBit value i := by
  have hpos : 0 < elementSize value := Nat.two_pow_pos _
  have hlt := Nat.mod_lt (immS value) hpos
  rw [Reserved, not_or, not_or] at h
  exact exists_not_inRun (by omega) _

theorem maskBit_add {value : BitVec 32} {d : Nat} (hd : elementSize value ∣ d) (i : Nat) :
    MaskBit value (i + d) ↔ MaskBit value i := by
  obtain ⟨q, rfl⟩ := hd
  rw [MaskBit, MaskBit, InRun, InRun, Nat.add_right_comm, Nat.add_mul_mod_self_left]

/-- The elements below the register size put ones, and zeros, into two halfwords. -/
theorem not_wideRepresentable (hds : datasize = 32 ∨ datasize = 64) {value : BitVec 32}
    (h : ¬Reserved value datasize) (hsize : elementSize value < datasize) :
    ¬WideRepresentable value datasize := by
  -- a distance that repeats the elements and leaves the halfword
  obtain ⟨d, hdvd, hlow, hle, hhalf⟩ : ∃ d, elementSize value ∣ d ∧ 16 ≤ d ∧
      elementSize value ≤ d ∧ 2 * d ≤ datasize := by
    rw [elementSize] at hsize ⊢
    rcases Nat.lt_or_ge (Nat.log2 (sizeBits value)) 5 with hlog | hlog
    · refine ⟨2 ^ 4, Nat.pow_dvd_pow 2 (by omega), by decide,
        Nat.pow_le_pow_right (by decide) (by omega), by omega⟩
    · have hbig : 2 ^ 5 ≤ 2 ^ Nat.log2 (sizeBits value) := Nat.pow_le_pow_right (by decide) hlog
      have hsix : Nat.log2 (sizeBits value) < 6 := by
        by_contra hnot
        have hlarge : 2 ^ 6 ≤ 2 ^ Nat.log2 (sizeBits value) :=
          Nat.pow_le_pow_right (by decide) (by omega)
        omega
      have heq : Nat.log2 (sizeBits value) = 5 := by omega
      rw [heq] at hsize ⊢
      exact ⟨2 ^ 5, dvd_refl _, by decide, le_refl _, by omega⟩
  have hspread : ∀ p : Nat → Prop, (∀ i, p (i + d) ↔ p i) → (∃ i < elementSize value, p i) →
      ¬∃ k, ∀ i < datasize, p i → i / 16 = k := by
    rintro p hperiod ⟨i, hi, hp⟩ ⟨k, hk⟩
    have hfirst := hk i (by omega) hp
    have hsecond := hk (i + d) (by omega) ((hperiod i).mpr hp)
    omega
  rw [wideRepresentable_iff hds, not_or]
  constructor
  · exact hspread _ (maskBit_add hdvd) (exists_maskBit value)
  · exact hspread _ (fun i => not_congr (maskBit_add hdvd i)) (exists_not_maskBit h)

/-! ## Elements of the register size -/

theorem elementSize_eq_iff {value : BitVec 32} (hpos : sizeBits value ≠ 0) (k : Nat) :
    elementSize value = 2 ^ k ↔ 2 ^ k ≤ sizeBits value ∧ sizeBits value < 2 ^ (k + 1) := by
  rw [elementSize, ← Nat.log2_eq_iff hpos]
  exact ⟨fun h => Nat.pow_right_injective (le_refl 2) h, fun h => by rw [h]⟩

/-- The fields that have one element. -/
theorem elementSize_eq_registerSize_iff {sf : Bool} {value : BitVec 32}
    (h : ¬Reserved value (registerSize sf)) :
    elementSize value = registerSize sf ↔
      if sf then immN value = 1 else immN value = 0 ∧ immS value < 32 := by
  have hn : immN value < 2 := Nat.mod_lt _ (by decide)
  have hs : immS value < 64 := Nat.mod_lt _ (by decide)
  rw [Reserved, NoElementSize, not_or, not_or] at h
  obtain ⟨hsize, hword, -⟩ := h
  have hpos : sizeBits value ≠ 0 := by omega
  cases sf with
  | true =>
      have hiff := elementSize_eq_iff hpos 6
      rw [registerSize, if_pos rfl, if_pos rfl]
      refine hiff.trans ?_
      rw [sizeBits]
      omega
  | false =>
      have hiff := elementSize_eq_iff hpos 5
      rw [registerSize, if_neg Bool.false_ne_true] at hword ⊢
      rw [if_neg Bool.false_ne_true]
      refine hiff.trans ?_
      rw [sizeBits]
      omega

/-- One element is made by a wide move just where its ones, or its zeros, do not leave a
halfword. -/
theorem wideRepresentable_iff_of_eq {m : Nat} (hds : 16 * m = 32 ∨ 16 * m = 64) {value : BitVec 32}
    (h : ¬Reserved value (16 * m)) (hsize : elementSize value = 16 * m) :
    WideRepresentable value (16 * m) ↔
      start (16 * m) (immR value) % 16 + immS value % (16 * m) < 16 ∨
        start (16 * m) (immR value + (16 * m - immS value % (16 * m) - 1)) % 16 +
          (16 * m - immS value % (16 * m) - 2) < 16 := by
  have hm : 2 ≤ m := by omega
  rw [Reserved, not_or, not_or] at h
  obtain ⟨-, -, hones⟩ := h
  rw [hsize] at hones
  have hlt : immS value % (16 * m) < 16 * m := Nat.mod_lt _ (by omega)
  have hmask : ∀ i, MaskBit value i ↔
      InRun (16 * m) (immS value % (16 * m)) (immR value) i := by
    intro i
    rw [MaskBit, InRun, InRun, hsize, Nat.add_mod_mod]
  rw [wideRepresentable_iff hds]
  have hshort : immS value % (16 * m) + 1 < 16 * m := by omega
  simp only [hmask, not_inRun_iff hshort]
  exact or_congr (confined_iff (by decide) hm hlt) (confined_iff (by decide) hm (by omega))

/-! ## The condition -/

/-- `MoveWidePreferred` says whether a wide move makes the value. -/
def MoveWideExact (sf : Bool) (value : BitVec 32) : Prop :=
  ¬Reserved value (registerSize sf) →
    (moveWidePreferred sf (immN value = 1) (immS value) (immR value) = true ↔
      WideRepresentable value (registerSize sf))

/-- The condition: the elements are below the register size, the up to 16 ones do not leave their
halfword, or the zeros do not fill it up to the last bit or to the last bit but one. -/
def MoveWideSound (sf : Bool) (value : BitVec 32) : Prop :=
  Reserved value (registerSize sf) ∨ elementSize value < registerSize sf ∨
    if immS value < 16 then (16 - immR value % 16) % 16 + immS value ≤ 15
    else
      immR value % 16 + (registerSize sf - 1 - immS value) ≠ 15 ∧
        immR value % 16 + (registerSize sf - 1 - immS value) ≠ 16

/-- The test, where there is one element. -/
theorem moveWidePreferred_eq_true_iff {sf : Bool} {value : BitVec 32}
    (h : ¬Reserved value (registerSize sf)) :
    moveWidePreferred sf (immN value = 1) (immS value) (immR value) = true ↔
      elementSize value = registerSize sf ∧ (immS value < 16 ∨
        registerSize sf - 15 ≤ immS value ∧
          immR value % 16 ≤ immS value - (registerSize sf - 15)) := by
  have hneg : (-(immR value : Int)).tmod 16 = -((immR value % 16 : Nat) : Int) := by
    rw [Int.neg_tmod, Int.tmod_eq_emod_of_nonneg (by omega)]
    omega
  have hpos : (immR value : Int).tmod 16 = ((immR value % 16 : Nat) : Int) := by
    rw [Int.tmod_eq_emod_of_nonneg (by omega)]
    omega
  have hs : immS value < 64 := Nat.mod_lt _ (by decide)
  have hbit : (immS value).testBit 5 = decide (32 ≤ immS value) := by
    rw [Nat.testBit_eq_decide_div_mod_eq, decide_eq_decide]
    omega
  have hn : immN value < 2 := Nat.mod_lt _ (by decide)
  rw [elementSize_eq_registerSize_iff h, moveWidePreferred, hneg, hpos, hbit]
  cases sf with
  | true =>
      by_cases hone : immN value = 1
      · simp [registerSize, hone]
        split <;> omega
      · simp [hone]
  | false =>
      by_cases hone : immN value = 1
      · simp [hone]
      · have hzero : immN value = 0 := by omega
        simp [registerSize, hzero]
        split <;> omega

theorem registerSize_eq (sf : Bool) : registerSize sf = 32 ∨ registerSize sf = 64 := by
  cases sf
  · exact Or.inl rfl
  · exact Or.inr rfl

/-- One element leaves room for a zero. -/
theorem immS_lt {sf : Bool} {value : BitVec 32} (h : ¬Reserved value (registerSize sf))
    (hsize : elementSize value = registerSize sf) : immS value < registerSize sf - 1 := by
  have hs : immS value < 64 := Nat.mod_lt _ (by decide)
  have hfields := (elementSize_eq_registerSize_iff h).mp hsize
  rw [Reserved, not_or, not_or] at h
  obtain ⟨-, -, hones⟩ := h
  rw [hsize] at hones
  cases sf with
  | true =>
      rw [registerSize, if_pos rfl] at hones ⊢
      omega
  | false =>
      rw [if_neg Bool.false_ne_true] at hfields
      rw [registerSize, if_neg Bool.false_ne_true] at hones ⊢
      omega

/-- The places of the ones and the zeros, by the fields. -/
theorem wideRepresentable_iff_fields {sf : Bool} {value : BitVec 32}
    (h : ¬Reserved value (registerSize sf)) (hsize : elementSize value = registerSize sf) :
    WideRepresentable value (registerSize sf) ↔
      if immS value < 16 then (16 - immR value % 16) % 16 + immS value ≤ 15
      else immR value % 16 + (registerSize sf - 1 - immS value) ≤ 16 := by
  have hlt := immS_lt h hsize
  obtain ⟨m, hm, hwidth⟩ : ∃ m, (m = 2 ∨ m = 4) ∧ registerSize sf = 16 * m := by
    cases sf
    · exact ⟨2, Or.inl rfl, rfl⟩
    · exact ⟨4, Or.inr rfl, rfl⟩
  rw [hwidth] at h hsize hlt ⊢
  have hmod : immS value % (16 * m) = immS value := Nat.mod_eq_of_lt (by omega)
  rw [wideRepresentable_iff_of_eq (by omega) h hsize, hmod, start, start]
  rcases hm with rfl | rfl
  · split <;> omega
  · split <;> omega

/-- Where `MoveWidePreferred` is right. -/
theorem moveWideExact_iff (sf : Bool) (value : BitVec 32) :
    MoveWideExact sf value ↔ MoveWideSound sf value := by
  by_cases hreserved : Reserved value (registerSize sf)
  · exact iff_of_true (fun h => absurd hreserved h) (Or.inl hreserved)
  have hds := registerSize_eq sf
  have htest := moveWidePreferred_eq_true_iff hreserved
  by_cases hsize : elementSize value = registerSize sf
  · have hlt := immS_lt hreserved hsize
    rw [MoveWideExact, MoveWideSound, htest, wideRepresentable_iff_fields hreserved hsize]
    simp only [hreserved, hsize, not_false_eq_true, true_implies, true_and, false_or, lt_irrefl]
    split <;> omega
  · have hdvd : elementSize value ∣ registerSize sf := by
      rw [Reserved, not_or, not_or] at hreserved
      exact elementSize_dvd hds hreserved.2.1
    have hlt : elementSize value < registerSize sf :=
      lt_of_le_of_ne (Nat.le_of_dvd (by omega) hdvd) hsize
    rw [MoveWideExact, htest]
    exact iff_of_true (fun _ => iff_of_false (fun h => hsize h.1)
      (not_wideRepresentable hds hreserved hlt)) (Or.inr (Or.inl hlt))

/-- Two ones that are rotated over the end of a halfword: `ORR W0, WZR, #0x18000`. -/
theorem not_moveWideExact_18000 : ¬∀ (sf : Bool) (value : BitVec 32), MoveWideExact sf value := by
  intro h
  have hmade := (h false 0x51 (by decide)).mp (by decide)
  rw [wideRepresentable_iff_fields (by decide) (by decide)] at hmade
  exact absurd hmade (by decide)

end Amed.AArch64

import Amed.AArch64.MoveWide

/-!
# Bit masks and `DUP`

When `SVEMoveMaskPreferred` says that a bit mask is not made by a single `DUP` of an immediate. A
sign-extended byte makes the patterns whose positions from the sign on are alike.

## Implementation notes

`decode_logimm` is called without a size, and then makes 32 bits of the patterns with N = 0. The
tests on the sign look one position above it.
-/

namespace Amed.AArch64

open Runs

/-! ## What a `DUP` makes -/

/-- The value of `DUP` with an 8-bit immediate. -/
def dupImmediate (esize : Nat) (imm8 : BitVec 8) (shift : Nat) : BitVec 64 :=
  ((imm8.signExtend esize <<< shift).replicate (64 / esize)).setWidth 64

/-- A single `DUP` immediate makes the value. -/
def DupRepresentable (x : BitVec 64) : Prop :=
  ∃ esize ∈ [8, 16, 32, 64], ∃ (imm8 : BitVec 8) (shift : Nat),
    (shift = 0 ∨ shift = 8 ∧ 8 < esize) ∧ dupImmediate esize imm8 shift = x

/-- The positions that a `DUP` of one form makes. -/
structure Dups (esize shift : Nat) (p : Nat → Prop) : Prop where
  period : ∀ i < 64, (p i ↔ p (i % esize))
  low : ∀ j < shift, ¬p j
  sign : ∀ j, shift + 7 ≤ j → j < esize → (p j ↔ p (shift + 7))

theorem getLsbD_dupImmediate {esize shift i : Nat} (imm8 : BitVec 8) (hdvd : esize ∣ 64)
    (hi : i < 64) :
    (dupImmediate esize imm8 shift).getLsbD i =
      (decide (shift ≤ i % esize) && imm8.getLsbD (min (i % esize - shift) 7)) := by
  have hpos : 0 < esize := Nat.pos_of_dvd_of_pos hdvd (by decide)
  have hmod := Nat.mod_lt i hpos
  rw [dupImmediate, BitVec.getLsbD_setWidth, BitVec.getLsbD_replicate, BitVec.getLsbD_shiftLeft,
    BitVec.getLsbD_signExtend, Nat.mul_div_cancel' hdvd, decide_eq_true hi, decide_eq_true hmod,
    decide_eq_true (by omega : i % esize - shift < esize), ← decide_not]
  simp only [Bool.true_and, Nat.not_lt]
  by_cases hsmall : i % esize - shift < 8
  · rw [if_pos hsmall, Nat.min_eq_left (by omega)]
  · rw [if_neg hsmall, Nat.min_eq_right (by omega), BitVec.msb_eq_getLsbD_last]

/-- A value is that of a `DUP` of one form just where its positions are. -/
theorem exists_dupImmediate_iff {esize shift : Nat} (hdvd : esize ∣ 64) (hroom : shift + 8 ≤ esize)
    {x : BitVec 64} {p : Nat → Prop} (hx : ∀ i < 64, (x.getLsbD i = true ↔ p i)) :
    (∃ imm8 : BitVec 8, dupImmediate esize imm8 shift = x) ↔ Dups esize shift p := by
  have hle : esize ≤ 64 := Nat.le_of_dvd (by decide) hdvd
  have hpos : 0 < esize := by omega
  constructor
  · rintro ⟨imm8, rfl⟩
    have hbit : ∀ j < esize, (p j ↔ shift ≤ j ∧ imm8.getLsbD (min (j - shift) 7) = true) := by
      intro j hj
      rw [← hx j (by omega), getLsbD_dupImmediate imm8 hdvd (by omega), Nat.mod_eq_of_lt hj,
        Bool.and_eq_true, decide_eq_true_eq]
    constructor
    · intro i hi
      have hmod := Nat.mod_lt i hpos
      rw [← hx i hi, ← hx _ (by omega), getLsbD_dupImmediate imm8 hdvd hi,
        getLsbD_dupImmediate imm8 hdvd (by omega), Nat.mod_mod]
    · intro j hj hp
      have hge := ((hbit j (by omega)).mp hp).1
      omega
    · intro j hge hlt
      rw [hbit j hlt, hbit _ (by omega), Nat.min_eq_right (by omega), Nat.min_eq_right (by omega)]
      simp only [(by omega : shift ≤ j), (by omega : shift ≤ shift + 7)]
  · intro h
    refine ⟨x.extractLsb' shift 8, ?_⟩
    apply BitVec.eq_of_getLsbD_eq
    intro i hi
    have hmod := Nat.mod_lt i hpos
    rw [getLsbD_dupImmediate _ hdvd hi, BitVec.getLsbD_extractLsb',
      decide_eq_true (by omega : min (i % esize - shift) 7 < 8), Bool.true_and, Bool.eq_iff_iff,
      Bool.and_eq_true, decide_eq_true_eq, hx i hi, hx _ (by omega), h.period i hi]
    generalize i % esize = j at hmod
    rcases Nat.lt_or_ge j shift with hlow | hge
    · exact iff_of_false (fun hp => by omega) (h.low j hlow)
    · rcases Nat.lt_or_ge j (shift + 7) with hbyte | hsign
      · rw [Nat.min_eq_left (by omega), Nat.add_sub_cancel' hge]
        exact and_iff_right hge
      · rw [Nat.min_eq_right (by omega), h.sign j hsign hmod]
        exact and_iff_right hge

theorem dupRepresentable_iff {x : BitVec 64} {p : Nat → Prop}
    (hx : ∀ i < 64, (x.getLsbD i = true ↔ p i)) :
    DupRepresentable x ↔ ∃ esize ∈ [8, 16, 32, 64], ∃ shift,
      (shift = 0 ∨ shift = 8 ∧ 8 < esize) ∧ Dups esize shift p := by
  have hform : ∀ esize ∈ [8, 16, 32, 64], ∀ shift, (shift = 0 ∨ shift = 8 ∧ 8 < esize) →
      ((∃ imm8 : BitVec 8, dupImmediate esize imm8 shift = x) ↔ Dups esize shift p) := by
    intro esize hesize shift hshift
    have hdvd : ∀ esize ∈ [8, 16, 32, 64], esize ∣ 64 := by decide
    have hbyte : ∀ esize ∈ [8, 16, 32, 64], 8 ≤ esize ∧ (8 < esize → 16 ≤ esize) := by decide
    have hroom := hbyte esize hesize
    exact exists_dupImmediate_iff (hdvd esize hesize) (by omega) hx
  constructor
  · rintro ⟨esize, hesize, imm8, shift, hshift, hmade⟩
    exact ⟨esize, hesize, shift, hshift, (hform esize hesize shift hshift).mp ⟨imm8, hmade⟩⟩
  · rintro ⟨esize, hesize, shift, hshift, hdups⟩
    obtain ⟨imm8, hmade⟩ := (hform esize hesize shift hshift).mpr hdups
    exact ⟨esize, hesize, imm8, shift, hshift, hmade⟩

/-! ## Which masks it makes -/

/-- The positions from `lo` on, below `hi`, hold zeros, or ones. -/
def Zeros (value : BitVec 32) (lo hi : Nat) : Prop := ∀ i < hi, lo ≤ i → ¬MaskBit value i
def Ones (value : BitVec 32) (lo hi : Nat) : Prop := ∀ i < hi, lo ≤ i → MaskBit value i

instance (value : BitVec 32) (lo hi : Nat) : Decidable (Zeros value lo hi) :=
  inferInstanceAs (Decidable (∀ i < hi, _))

instance (value : BitVec 32) (lo hi : Nat) : Decidable (Ones value lo hi) :=
  inferInstanceAs (Decidable (∀ i < hi, _))

/-- The end of the byte that the immediate is to be: the second one where the first is 0. -/
def byteEnd (value : BitVec 32) : Nat := if Zeros value 0 8 then 16 else 8

variable {value : BitVec 32}

theorem elementSize_dvd_64 (value : BitVec 32) : elementSize value ∣ 64 :=
  elementSize_dvd (Or.inr rfl) (fun h => absurd h.2 (by decide))

theorem maskBit_mod {d : Nat} (hd : elementSize value ∣ d) (i : Nat) :
    MaskBit value (i % d) ↔ MaskBit value i := by
  obtain ⟨q, rfl⟩ := hd
  rw [MaskBit, MaskBit, InRun, InRun, ← Nat.mod_add_mod, Nat.mod_mul_right_mod, Nat.mod_add_mod]

/-- A mask does not repeat within its elements. -/
theorem elementSize_le_of_period (h : ¬Reserved value 64) {d : Nat} (hd : 0 < d) (hd64 : d ∣ 64)
    (hperiod : ∀ i < 64, (MaskBit value i ↔ MaskBit value (i % d))) : elementSize value ≤ d := by
  by_contra hlt
  have hpos : 0 < elementSize value := Nat.two_pow_pos _
  have hs := Nat.mod_lt (immS value) hpos
  rw [Reserved, not_or, not_or] at h
  have hshort : immS value % elementSize value + 1 < elementSize value := by omega
  have hmod : ∀ i, MaskBit value (i % d) ↔ MaskBit value i := by
    intro i
    rw [← maskBit_mod (elementSize_dvd_64 value) i, hperiod _ (Nat.mod_lt i (by decide)),
      Nat.mod_mod_of_dvd i hd64]
  apply not_periodic (r := immR value % elementSize value) hshort hd (by omega)
  intro i
  calc MaskBit value (i + d) ↔ MaskBit value ((i + d) % d) := (hmod _).symm
    _ ↔ MaskBit value (i % d) := by rw [Nat.add_mod_right]
    _ ↔ MaskBit value i := hmod i

theorem elementSize_mem (value : BitVec 32) : elementSize value ∈ [1, 2, 4, 8, 16, 32, 64] := by
  have hle := elementSize_le value
  rw [elementSize] at hle ⊢
  have hlog : Nat.log2 (sizeBits value) ≤ 6 := by
    by_contra hlarge
    have hpow : 2 ^ 7 ≤ 2 ^ Nat.log2 (sizeBits value) :=
      Nat.pow_le_pow_right (by decide) (by omega)
    omega
  generalize Nat.log2 (sizeBits value) = k at hlog
  revert k
  decide

/-- The forms that make a mask with elements above a byte. -/
theorem dups_mask_iff (hroom : 16 ≤ elementSize value) {shift : Nat}
    (hshift : shift = 0 ∨ shift = 8) :
    Dups (elementSize value) shift (MaskBit value) ↔
      byteEnd value = shift + 8 ∧ (Zeros value (shift + 7) (elementSize value) ∨
        Ones value (shift + 7) (elementSize value)) := by
  constructor
  · intro h
    constructor
    · rw [byteEnd]
      rcases hshift with rfl | rfl
      · rw [if_neg]
        intro hzeros
        -- the sign is 0, and then all of the element
        have hsign : ¬MaskBit value 7 := hzeros 7 (by decide) (by decide)
        obtain ⟨i, hi, hone⟩ := exists_maskBit value
        rcases Nat.lt_or_ge i 7 with hlow | hge
        · exact hzeros i (by omega) (by omega) hone
        · exact hsign ((h.sign i hge hi).mp hone)
      · exact if_pos fun i hi _ => h.low i hi
    · by_cases hsign : MaskBit value (shift + 7)
      · exact Or.inr fun i hi hge => (h.sign i hge hi).mpr hsign
      · exact Or.inl fun i hi hge hone => hsign ((h.sign i hge hi).mp hone)
  · rintro ⟨hend, hsame⟩
    constructor
    · exact fun i _ => (maskBit_mod (dvd_refl _) i).symm
    · intro j hj
      rcases hshift with rfl | rfl
      · exact absurd hj (Nat.not_lt_zero j)
      · by_cases hzeros : Zeros value 0 8
        · exact hzeros j hj (Nat.zero_le j)
        · rw [byteEnd, if_neg hzeros] at hend
          omega
    · intro j hge hj
      have hin : shift + 7 < elementSize value := Nat.lt_of_lt_of_le (by omega) hroom
      rcases hsame with hzeros | hones
      · exact iff_of_false (hzeros j hj hge) (hzeros _ hin (le_refl _))
      · exact iff_of_true (hones j hj hge) (hones _ hin (le_refl _))

/-- Elements up to a byte are made by a `DUP`; larger ones if all their positions from the sign
on are alike. -/
theorem dupRepresentable_mask_iff (h : ¬Reserved value 64) :
    DupRepresentable (decodeBitMasks value 64) ↔
      elementSize value ≤ 8 ∨ Zeros value (byteEnd value - 1) (elementSize value) ∨
        Ones value (byteEnd value - 1) (elementSize value) := by
  have hx : ∀ i < 64, ((decodeBitMasks value 64).getLsbD i = true ↔ MaskBit value i) := by
    intro i hi
    rw [getLsbD_decodeBitMasks hi, decide_eq_true hi, Bool.true_and, decide_eq_true_eq]
  have hmem := elementSize_mem value
  rw [dupRepresentable_iff hx]
  rcases Nat.lt_or_ge 8 (elementSize value) with hlarge | hsmall
  · have hsizes : ∀ e ∈ [1, 2, 4, 8, 16, 32, 64], 8 < e → 16 ≤ e ∧ e ∈ [8, 16, 32, 64] := by decide
    obtain ⟨hroom, hsize⟩ := hsizes _ hmem hlarge
    rw [or_iff_right (by omega)]
    constructor
    · rintro ⟨esize, hesize, shift, hshift, hdups⟩
      have hfacts : ∀ e ∈ [8, 16, 32, 64], 0 < e ∧ e ∣ 64 := by decide
      obtain ⟨hpos, hdvd⟩ := hfacts esize hesize
      have hle := elementSize_le_of_period h hpos hdvd hdups.period
      have hown : Dups (elementSize value) shift (MaskBit value) :=
        ⟨fun i _ => (maskBit_mod (dvd_refl _) i).symm, hdups.low,
          fun j hge hj => hdups.sign j hge (by omega)⟩
      obtain ⟨hend, hsame⟩ := (dups_mask_iff hroom (by omega)).mp hown
      rwa [hend]
    · intro hsame
      by_cases hzeros : Zeros value 0 8
      · have hend : byteEnd value = 8 + 8 := if_pos hzeros
        rw [hend] at hsame
        exact ⟨_, hsize, 8, Or.inr ⟨rfl, hlarge⟩,
          (dups_mask_iff hroom (Or.inr rfl)).mpr ⟨hend, hsame⟩⟩
      · have hend : byteEnd value = 0 + 8 := if_neg hzeros
        rw [hend] at hsame
        exact ⟨_, hsize, 0, Or.inl rfl, (dups_mask_iff hroom (Or.inl rfl)).mpr ⟨hend, hsame⟩⟩
  · refine iff_of_true ⟨8, by decide, 0, Or.inl rfl, ?_, ?_, ?_⟩ (Or.inl hsmall)
    · have hdivides : ∀ e ∈ [1, 2, 4, 8, 16, 32, 64], e ≤ 8 → e ∣ 8 := by decide
      exact fun i _ => (maskBit_mod (hdivides _ hmem hsmall) i).symm
    · exact fun j hj => absurd hj (Nat.not_lt_zero j)
    · intro j hge hlt
      rw [(by omega : j = 0 + 7)]

/-! ## What the code tests -/

/-- The positions from `k` on. -/
theorem getLsbD_highMask {k i : Nat} (hi : i < 64) :
    (BitVec.allOnes 64 <<< k).getLsbD i = decide (k ≤ i) := by
  rw [BitVec.getLsbD_shiftLeft, BitVec.getLsbD_allOnes, decide_eq_true hi, Bool.true_and,
    decide_eq_true (by omega : i - k < 64), Bool.and_true, ← decide_not, decide_eq_decide,
    Nat.not_lt]

theorem and_mask_eq_zero_iff (x : BitVec 64) (k : Nat) :
    x &&& BitVec.allOnes 64 <<< k = 0 ↔ ∀ i < 64, k ≤ i → x.getLsbD i = false := by
  constructor
  · intro h i hi hge
    have hbit : (x &&& BitVec.allOnes 64 <<< k).getLsbD i = (0 : BitVec 64).getLsbD i := by rw [h]
    rw [BitVec.getLsbD_and, getLsbD_highMask hi, decide_eq_true hge, Bool.and_true] at hbit
    exact hbit.trans BitVec.getLsbD_zero
  · intro h
    apply BitVec.eq_of_getLsbD_eq
    intro i hi
    rw [BitVec.getLsbD_and, getLsbD_highMask hi]
    by_cases hge : k ≤ i
    · rw [h i hi hge, Bool.false_and]
      exact BitVec.getLsbD_zero.symm
    · rw [decide_eq_false hge, Bool.and_false]
      exact BitVec.getLsbD_zero.symm

theorem and_mask_eq_mask_iff (x : BitVec 64) (k : Nat) :
    x &&& BitVec.allOnes 64 <<< k = BitVec.allOnes 64 <<< k ↔
      ∀ i < 64, k ≤ i → x.getLsbD i = true := by
  constructor
  · intro h i hi hge
    have hbit : (x &&& BitVec.allOnes 64 <<< k).getLsbD i =
        (BitVec.allOnes 64 <<< k).getLsbD i := by rw [h]
    rwa [BitVec.getLsbD_and, getLsbD_highMask hi, decide_eq_true hge, Bool.and_true] at hbit
  · intro h
    apply BitVec.eq_of_getLsbD_eq
    intro i hi
    rw [BitVec.getLsbD_and, getLsbD_highMask hi]
    by_cases hge : k ≤ i
    · rw [h i hi hge, Bool.true_and]
    · rw [decide_eq_false hge, Bool.and_false]

/-- Without a size, `decode_logimm` makes 64 bits for N = 1, and else 32. -/
def ownSize (value : BitVec 32) : Nat := if immN value = 1 then 64 else 32

theorem decodeLogimm_zero (h : ¬Reserved value 64) :
    decodeLogimm value 0 = some (decodeBitMasks value (ownSize value)) := by
  have hsize : ownSize value = 32 ∨ ownSize value = 64 := by
    rw [ownSize]
    split
    · exact Or.inr rfl
    · exact Or.inl rfl
  have hsame : decodeLogimm value 0 = decodeLogimm value (ownSize value) := by
    have hnonzero : ownSize value ≠ 0 := by omega
    rw [decodeLogimm, decodeLogimm, if_pos rfl, if_neg hnonzero]
    rfl
  rw [hsame]
  apply decodeLogimm_of_not_reserved hsize
  rw [Reserved, not_or, not_or] at h ⊢
  refine ⟨h.1, fun hn => ?_, h.2.2⟩
  rw [ownSize, if_pos hn.1] at hn
  exact absurd hn.2 (by decide)

/-- N is 1 just for elements of 64 bits. -/
theorem elementSize_eq_64_iff (h : ¬Reserved value 64) : elementSize value = 64 ↔ immN value = 1 :=
  @elementSize_eq_registerSize_iff true value h

theorem elementSize_le_ownSize (h : ¬Reserved value 64) : elementSize value ≤ ownSize value := by
  have hsizes : ∀ e ∈ [1, 2, 4, 8, 16, 32, 64], e = 64 ∨ e ≤ 32 := by decide
  have hiff := elementSize_eq_64_iff h
  rw [ownSize]
  split
  · exact elementSize_le value
  · rename_i hn
    exact (hsizes _ (elementSize_mem value)).resolve_left (mt hiff.mp hn)

/-- The words of what it makes are never the same. -/
theorem extractLsb'_words_ne (h : ¬Reserved value 64) :
    (decodeBitMasks value (ownSize value)).extractLsb' 0 32 ≠
      (decodeBitMasks value (ownSize value)).extractLsb' 32 32 := by
  intro hsame
  have hbits : ∀ i < 32, ((i < ownSize value ∧ MaskBit value i) ↔
      (32 + i < ownSize value ∧ MaskBit value (32 + i))) := by
    intro i hi
    have hbit : ((decodeBitMasks value (ownSize value)).extractLsb' 0 32).getLsbD i =
        ((decodeBitMasks value (ownSize value)).extractLsb' 32 32).getLsbD i := by rw [hsame]
    rwa [BitVec.getLsbD_extractLsb', BitVec.getLsbD_extractLsb', decide_eq_true hi, Bool.true_and,
      Bool.true_and, Nat.zero_add, getLsbD_decodeBitMasks (by omega),
      getLsbD_decodeBitMasks (by omega), ← Bool.decide_and, ← Bool.decide_and,
      decide_eq_decide] at hbit
  have hle := elementSize_le_ownSize h
  by_cases hn : immN value = 1
  · rw [ownSize, if_pos hn] at hbits
    have hperiod : ∀ i < 64, (MaskBit value i ↔ MaskBit value (i % 32)) := by
      intro i hi
      rcases Nat.lt_or_ge i 32 with hlow | hhigh
      · rw [Nat.mod_eq_of_lt hlow]
      · have hpair := hbits (i - 32) (by omega)
        rw [Nat.add_sub_cancel' hhigh] at hpair
        rw [Nat.mod_eq_sub_mod hhigh, Nat.mod_eq_of_lt (by omega)]
        constructor
        · exact fun hone => (hpair.mpr ⟨hi, hone⟩).2
        · exact fun hone => (hpair.mp ⟨by omega, hone⟩).2
    have hshort := elementSize_le_of_period h (by decide) (by decide) hperiod
    have hfull := (elementSize_eq_64_iff h).mpr hn
    omega
  · rw [ownSize, if_neg hn] at hbits hle
    obtain ⟨i, hi, hone⟩ := exists_maskBit value
    have hpair := (hbits i (by omega)).mp ⟨by omega, hone⟩
    omega

theorem extractLsb'_byte_eq_zero_iff (value : BitVec 32) :
    (decodeBitMasks value (ownSize value)).extractLsb' 0 8 = 0 ↔ Zeros value 0 8 := by
  have hsize : 32 ≤ ownSize value := by
    rw [ownSize]
    split
    · decide
    · exact le_refl _
  have hbit : ∀ i < 8, ((decodeBitMasks value (ownSize value)).extractLsb' 0 8).getLsbD i =
      decide (MaskBit value i) := by
    intro i hi
    rw [BitVec.getLsbD_extractLsb', Nat.zero_add, getLsbD_decodeBitMasks (by omega),
      decide_eq_true hi, decide_eq_true (by omega : i < ownSize value), Bool.true_and, Bool.true_and]
  constructor
  · intro h i hi _ hone
    have hset := hbit i hi
    rw [h, decide_eq_true hone] at hset
    exact Bool.false_ne_true (BitVec.getLsbD_zero.symm.trans hset)
  · intro h
    apply BitVec.eq_of_getLsbD_eq
    intro i hi
    rw [hbit i hi, decide_eq_false (h i hi (Nat.zero_le i))]
    exact BitVec.getLsbD_zero.symm

/-- The test: all the positions behind the byte are alike. -/
theorem sveMoveMaskPreferred_eq_false_iff (h : ¬Reserved value 64) :
    sveMoveMaskPreferred value = false ↔
      (∀ i < 64, byteEnd value ≤ i → ¬(i < ownSize value ∧ MaskBit value i)) ∨
        ∀ i < 64, byteEnd value ≤ i → i < ownSize value ∧ MaskBit value i := by
  have hbit : ∀ i < 64, (decodeBitMasks value (ownSize value)).getLsbD i =
      decide (i < ownSize value ∧ MaskBit value i) := by
    intro i hi
    rw [getLsbD_decodeBitMasks hi, Bool.decide_and]
  have hwords := extractLsb'_words_ne h
  have hzero : ∀ k, (∀ i < 64, k ≤ i → (decodeBitMasks value (ownSize value)).getLsbD i = false) ↔
      ∀ i < 64, k ≤ i → ¬(i < ownSize value ∧ MaskBit value i) := by
    intro k
    refine forall_congr' fun i => forall_congr' fun hi => forall_congr' fun _ => ?_
    rw [hbit i hi, decide_eq_false_iff_not]
  have hone : ∀ k, (∀ i < 64, k ≤ i → (decodeBitMasks value (ownSize value)).getLsbD i = true) ↔
      ∀ i < 64, k ≤ i → i < ownSize value ∧ MaskBit value i := by
    intro k
    refine forall_congr' fun i => forall_congr' fun hi => forall_congr' fun _ => ?_
    rw [hbit i hi, decide_eq_true_eq]
  have hbyte : (0xFFFFFFFFFFFFFF00 : BitVec 64) = BitVec.allOnes 64 <<< 8 := by decide
  have hhalf : (0xFFFFFFFFFFFF0000 : BitVec 64) = BitVec.allOnes 64 <<< 16 := by decide
  have hlow := extractLsb'_byte_eq_zero_iff value
  rw [sveMoveMaskPreferred, decodeLogimm_zero h]
  dsimp only
  rw [byteEnd]
  by_cases hzeros : Zeros value 0 8
  · rw [if_neg (not_not.mpr (hlow.mpr hzeros)), if_pos hzeros, halfImmediate, hhalf]
    simp only [hwords, decide_false, Bool.false_and, Bool.or_false, Bool.not_eq_false',
      Bool.or_eq_true, decide_eq_true_eq, and_mask_eq_zero_iff, and_mask_eq_mask_iff, hzero, hone]
  · rw [if_pos (mt hlow.mp hzeros), if_neg hzeros, byteImmediate, hbyte]
    simp only [hwords, decide_false, Bool.false_and, Bool.or_false, Bool.not_eq_false',
      Bool.or_eq_true, decide_eq_true_eq, and_mask_eq_zero_iff, and_mask_eq_mask_iff, hzero, hone]

/-- Elements up to 16 bits are never found. -/
theorem sveMoveMaskPreferred_of_small (h : ¬Reserved value 64) (hsmall : elementSize value ≤ 16) :
    ¬sveMoveMaskPreferred value = false := by
  have hn : ¬immN value = 1 := fun hone => by
    have hfull := (elementSize_eq_64_iff h).mpr hone
    omega
  have hdivides : ∀ e ∈ [1, 2, 4, 8, 16, 32, 64], e ≤ 16 → e ∣ 16 := by decide
  have hend : byteEnd value ≤ 16 := by
    rw [byteEnd]
    split <;> decide
  rw [sveMoveMaskPreferred_eq_false_iff h, ownSize, if_neg hn]
  rintro (hzeros | hones)
  · obtain ⟨i, hi, hone⟩ := exists_maskBit value
    have hnext := (maskBit_add (hdivides _ (elementSize_mem value) hsmall) i).mpr hone
    exact hzeros (i + 16) (by omega) (by omega) ⟨by omega, hnext⟩
  · have htop := hones 63 (by decide) (by omega)
    exact absurd htop.1 (by decide)

theorem sveMoveMaskPreferred_of_32 (h : ¬Reserved value 64) (hsize : elementSize value = 32) :
    sveMoveMaskPreferred value = false ↔ Zeros value (byteEnd value) 32 := by
  have hn : ¬immN value = 1 := fun hone => by
    have hfull := (elementSize_eq_64_iff h).mpr hone
    omega
  have hend : byteEnd value ≤ 16 := by
    rw [byteEnd]
    split <;> decide
  rw [sveMoveMaskPreferred_eq_false_iff h, ownSize, if_neg hn]
  constructor
  · rintro (hzeros | hones)
    · exact fun i hi hge hone => hzeros i (by omega) hge ⟨hi, hone⟩
    · exact absurd (hones 63 (by decide) (by omega)).1 (by decide)
  · exact fun hzeros => Or.inl fun i _ hge hone => hzeros i hone.1 hge hone.2

theorem sveMoveMaskPreferred_of_64 (h : ¬Reserved value 64) (hsize : elementSize value = 64) :
    sveMoveMaskPreferred value = false ↔
      Zeros value (byteEnd value) 64 ∨ Ones value (byteEnd value) 64 := by
  rw [sveMoveMaskPreferred_eq_false_iff h, ownSize, if_pos ((elementSize_eq_64_iff h).mp hsize)]
  constructor
  · rintro (hzeros | hones)
    · exact Or.inl fun i hi hge hone => hzeros i hi hge ⟨hi, hone⟩
    · exact Or.inr fun i hi hge => (hones i hi hge).2
  · rintro (hzeros | hones)
    · exact Or.inl fun i hi hge hone => hzeros i hi hge hone.2
    · exact Or.inr fun i hi hge => ⟨hi, hones i hi hge⟩

/-! ## The condition -/

/-- `SVEMoveMaskPreferred` says whether a `DUP` makes the value. -/
def MoveMaskExact (value : BitVec 32) : Prop :=
  ¬Reserved value 64 →
    (sveMoveMaskPreferred value = false ↔ DupRepresentable (decodeBitMasks value 64))

/-- The condition, by the element size. It never holds up to 8 bits, which a `DUP` always makes. Of
16 bits it holds if no `DUP` makes them; of 32 bits if the immediate is not negative, but zeros
behind it do have a zero as the sign; of 64 bits if the sign is that of like positions above it. -/
def MoveMaskSound (value : BitVec 32) : Prop :=
  Reserved value 64 ∨
    elementSize value = 16 ∧ ¬Zeros value (byteEnd value - 1) 16 ∧
      ¬Ones value (byteEnd value - 1) 16 ∨
    elementSize value = 32 ∧ ¬(Zeros value (byteEnd value) 32 ∧ MaskBit value (byteEnd value - 1)) ∧
      ¬Ones value (byteEnd value - 1) 32 ∨
    elementSize value = 64 ∧ ¬(Zeros value (byteEnd value) 64 ∧ MaskBit value (byteEnd value - 1)) ∧
      ¬(Ones value (byteEnd value) 64 ∧ ¬MaskBit value (byteEnd value - 1))

theorem zeros_pred_iff {k hi : Nat} (hk : k < hi) :
    Zeros value (k - 1) hi ↔ ¬MaskBit value (k - 1) ∧ Zeros value k hi := by
  constructor
  · exact fun h => ⟨h _ (by omega) (le_refl _), fun i hi hge => h i hi (by omega)⟩
  · rintro ⟨hfirst, hrest⟩ i hi hge
    rcases Nat.lt_or_ge i k with hlt | hle
    · rwa [(by omega : i = k - 1)]
    · exact hrest i hi hle

theorem ones_pred_iff {k hi : Nat} (hk : k < hi) :
    Ones value (k - 1) hi ↔ MaskBit value (k - 1) ∧ Ones value k hi := by
  constructor
  · exact fun h => ⟨h _ (by omega) (le_refl _), fun i hi hge => h i hi (by omega)⟩
  · rintro ⟨hfirst, hrest⟩ i hi hge
    rcases Nat.lt_or_ge i k with hlt | hle
    · rwa [(by omega : i = k - 1)]
    · exact hrest i hi hle

/-- Where `SVEMoveMaskPreferred` is right. -/
theorem moveMaskExact_iff (value : BitVec 32) : MoveMaskExact value ↔ MoveMaskSound value := by
  by_cases hreserved : Reserved value 64
  · exact iff_of_true (fun h => absurd hreserved h) (Or.inl hreserved)
  have hend : byteEnd value ≤ 16 := by
    rw [byteEnd]
    split <;> decide
  have hapart : ∀ hi, 16 < hi → ¬(Zeros value (byteEnd value) hi ∧ Ones value (byteEnd value) hi) :=
    fun hi hlt h => h.1 _ (by omega) (le_refl _) (h.2 _ (by omega) (le_refl _))
  have hsizes : ∀ e ∈ [1, 2, 4, 8, 16, 32, 64], e ≤ 8 ∨ e = 16 ∨ e = 32 ∨ e = 64 := by decide
  rw [MoveMaskExact, imp_iff_right hreserved, dupRepresentable_mask_iff hreserved, MoveMaskSound,
    or_iff_right hreserved]
  rcases hsizes _ (elementSize_mem value) with hsize | hsize | hsize | hsize
  · have htest := sveMoveMaskPreferred_of_small hreserved (by omega)
    refine iff_of_false (fun h => htest (h.mpr (Or.inl hsize))) ?_
    rintro (h | h | h)
    all_goals omega
  · have htest := sveMoveMaskPreferred_of_small hreserved (by omega)
    simp [htest, hsize]
  · have hsame := hapart 32 (by decide)
    rw [sveMoveMaskPreferred_of_32 hreserved hsize, hsize, zeros_pred_iff (by omega),
      ones_pred_iff (by omega)]
    by_cases hsign : MaskBit value (byteEnd value - 1)
    · simp [hsign]
      tauto
    · simp [hsign]
  · have hsame := hapart 64 (by decide)
    rw [sveMoveMaskPreferred_of_64 hreserved hsize, hsize, zeros_pred_iff (by omega),
      ones_pred_iff (by omega)]
    by_cases hsign : MaskBit value (byteEnd value - 1)
    · simp [hsign]
      tauto
    · simp [hsign]
      tauto

/-- Alternate bits make a byte, which is not found. -/
theorem not_moveMaskExact_5555 : ¬∀ value : BitVec 32, MoveMaskExact value := by
  intro h
  have hreserved : ¬Reserved 0xf00 64 := by decide
  have hmade := (dupRepresentable_mask_iff hreserved).mpr (Or.inl (by decide))
  exact absurd ((h 0xf00 hreserved).mpr hmade) (by decide)

end Amed.AArch64

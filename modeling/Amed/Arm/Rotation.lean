import Amed.Library.Shifts
import Amed.AArch32.Arguments
import Amed.AArch64.LogicalImmediate

/-!
# Rotations of the immediate decoders

`replicate64`, `ror` and `ror64`, and the three decoders of immediates that call them, with every
shift of the helpers as C defines it: without a value where the amount reaches the width.

## Implementation notes

`ror` has no counterpart of the test with which `ror64` returns a value that is not rotated. The
definitions are beside those of the other modules, which let a shift by the whole word leave 0;
where no amount reaches the width the two agree.
-/

namespace Amed.Checked

open BitFields Shifts AArch32 AArch64

/-! ## The helpers -/

/-- `replicate64`. -/
def replicate64 (bitvalue count : Int) : Option (BitVec 64) :=
  shiftRight (BitVec.ofInt 64 (-bitvalue)) (64 - count)

/-- `ror`. -/
def ror (value : BitVec 32) (rotation : Nat) : Option (BitVec 32) := do
  let right ← shiftRight value rotation
  let left ← shiftLeft value (32 - rotation)
  return right ||| left

/-- `ror64`. -/
def ror64 (value : BitVec 64) (rotation datasize : Int) : Option (BitVec 64) :=
  if rotation = 0 then some value
  else do
    let right ← shiftRight value rotation
    let left ← shiftLeft value (datasize - rotation)
    let mask ← replicate64 1 datasize
    return (right ||| left) &&& mask

/-- `decode_a32_imm`. -/
def decodeA32Imm (imm12 : BitVec 32) : Option (BitVec 32) :=
  ror (imm12 &&& 0xff) (imm12.toNat / 2 ^ 8 % 2 ^ 4 * 2)

/-- `decode_t32_imm`. -/
def decodeT32Imm (imm12 : BitVec 32) : Option (BitVec 32) :=
  let imm8 := imm12 &&& 0xff
  if imm12 &&& 0xc00 = 0 then
    some
      (match imm12.toNat / 2 ^ 8 % 4 with
      | 0 => imm8
      | 1 => imm8 ||| imm8 <<< 16
      | 2 => imm8 <<< 8 ||| imm8 <<< 24
      | _ => imm8 ||| imm8 <<< 8 ||| imm8 <<< 16 ||| imm8 <<< 24)
  else ror (imm12 &&& 0x7f ||| 0x80) (imm12.toNat / 2 ^ 7 % 2 ^ 5)

/-- `decode_logimm`; the inner none is its failure. -/
def decodeLogimm (nImmsImmr : BitVec 32) (datasize : Nat) : Option (Option (BitVec 64)) :=
  let n := nImmsImmr.toNat / 2 ^ 12 % 2
  let s := BitVec.ofNat 64 (nImmsImmr.toNat / 2 ^ 6 % 2 ^ 6)
  let r := BitVec.ofNat 64 (nImmsImmr.toNat % 2 ^ 6)
  let datasize := if datasize = 0 then if n = 1 then 64 else 32 else datasize
  let len := getHiBitPos (n * 2 ^ 6 + (63 - s.toNat))
  if len < 1 then some none
  else do
    let esize : Nat := 2 ^ len
    let emask ← replicate64 1 len
    let s := (s &&& emask).toNat
    let r := (r &&& emask).toNat
    let eimm ← replicate64 1 (s + 1)
    let eimm ← ror64 eimm r esize
    -- lanes of a byte and more are stored, smaller ones are shifted in
    let lane := if esize < 8 then eimm else eimm &&& (BitVec.allOnes esize).setWidth 64
    return some
      ((List.range (datasize / esize)).foldl (fun limm i => limm ||| lane <<< (i * esize)) 0)

/-! ## Where they have a value -/

theorem replicate64_one {count : Nat} (hpos : 0 < count) (hle : count ≤ 64) :
    replicate64 1 count = some ((BitVec.allOnes count).setWidth 64) := by
  have hamount : (64 - count : Int) = ((64 - count : Nat) : Int) := by omega
  have hones : BitVec.ofInt 64 (-1) = BitVec.allOnes 64 := by decide
  rw [replicate64, hamount, hones, shiftRight_of_lt _ (by omega), allOnes_ushiftRight hle]

theorem replicate64_eq {count : Nat} (hpos : 0 < count) (hle : count ≤ 64) :
    replicate64 1 count = some (Amed.replicate64 count) := by
  rw [replicate64_one hpos hle, Amed.replicate64, allOnes_ushiftRight hle]

/-- A rotation by less than the word, and not by 0. -/
theorem ror_eq (value : BitVec 32) {rotation : Nat} (hpos : 0 < rotation) (hlt : rotation < 32) :
    ror value rotation = some (Amed.ror value rotation) := by
  have hamount : (32 - rotation : Int) = ((32 - rotation : Nat) : Int) := by omega
  rw [ror, hamount, shiftRight_of_lt _ hlt, shiftLeft_of_lt _ (by omega)]
  rfl

/-- Where nothing is rotated the left shift is by the whole word. -/
theorem ror_zero (value : BitVec 32) : ror value 0 = none := by
  have hleft : shiftLeft value (32 - (0 : Nat)) = none := shiftLeft_width value
  rw [ror, hleft]
  cases shiftRight value (0 : Nat) <;> rfl

theorem ror64_eq (value : BitVec 64) {rotation datasize : Nat} (hlt : rotation < datasize)
    (hle : datasize ≤ 64) :
    ror64 value rotation datasize = some (Amed.ror64 value rotation datasize) := by
  rw [ror64, Amed.ror64]
  by_cases hzero : rotation = 0
  · rw [if_pos hzero, if_pos (by omega)]
  · have hamount : (datasize - rotation : Int) = ((datasize - rotation : Nat) : Int) := by omega
    rw [if_neg hzero, if_neg (by omega), hamount, shiftRight_of_lt _ (by omega),
      shiftLeft_of_lt _ (by omega), replicate64_eq (by omega) hle]
    rfl

/-- The rotations of `decode_t32_imm` begin at 8. -/
theorem decodeT32Imm_eq (imm12 : BitVec 32) :
    decodeT32Imm imm12 = some (AArch32.decodeT32Imm imm12) := by
  rw [decodeT32Imm, AArch32.decodeT32Imm]
  by_cases hplain : imm12 &&& 0xc00 = 0
  · exact (if_pos hplain).trans (congrArg some (if_pos hplain).symm)
  · rw [if_neg hplain, if_neg hplain]
    refine ror_eq _ ?_ (Nat.mod_lt _ (by decide))
    have hget : imm12.toNat / 2 ^ 10 % 2 ^ 2 ≠ 0 := by
      intro hget
      apply hplain
      apply BitVec.eq_of_toNat_eq
      rw [BitVec.toNat_and]
      exact (Field.and_mask_eq_iff (f := ⟨10, 2⟩) (Nat.two_pow_pos 2) _).mpr hget
    omega

/-- A part of a word cut by the ones of an element. -/
theorem and_ones_toNat {v len : Nat} (hv : v < 2 ^ 64) (hlen : len ≤ 64) :
    (BitVec.ofNat 64 v &&& (BitVec.allOnes len).setWidth 64).toNat = v % 2 ^ len := by
  have hpow : 2 ^ len ≤ 2 ^ 64 := Nat.pow_le_pow_right Nat.two_pos hlen
  have hpos := Nat.two_pow_pos len
  rw [BitVec.toNat_and, BitVec.toNat_ofNat, BitVec.toNat_setWidth, BitVec.toNat_allOnes,
    Nat.mod_eq_of_lt hv, Nat.mod_eq_of_lt (by omega), Nat.and_two_pow_sub_one_eq_mod]

theorem getHiBitPos_le {bits : Nat} (h : bits < 2 ^ 7) : getHiBitPos bits ≤ 6 := by
  rw [getHiBitPos]
  by_cases hzero : bits = 0
  · rw [hzero]
    decide
  · have hlog := (Nat.log2_lt hzero).mpr h
    omega

/-- The element of `decode_logimm`: a run of at most 64 ones, rotated inside it. -/
theorem logimmElement_eq {s r len : Nat} (hs : s < 2 ^ 6) (hr : r < 2 ^ 6) (hpos : 0 < len)
    (hle : len ≤ 6) :
    (do
      let emask ← replicate64 1 len
      let eimm ← replicate64 1 ((BitVec.ofNat 64 s &&& emask).toNat + 1)
      ror64 eimm (BitVec.ofNat 64 r &&& emask).toNat (2 ^ len : Nat)) =
    some (Amed.ror64 (Amed.replicate64 (s % 2 ^ len + 1)) (r % 2 ^ len) (2 ^ len)) := by
  have hsize : 2 ^ len ≤ 64 := Nat.pow_le_pow_right Nat.two_pos hle
  have hslt : s % 2 ^ len < 2 ^ len := Nat.mod_lt _ (Nat.two_pow_pos len)
  have hrlt : r % 2 ^ len < 2 ^ len := Nat.mod_lt _ (Nat.two_pow_pos len)
  have hrun : replicate64 1 (s % 2 ^ len + 1 : Nat) =
      some (Amed.replicate64 (s % 2 ^ len + 1)) :=
    replicate64_eq (Nat.succ_pos _) (by omega)
  rw [Int.natCast_succ] at hrun
  rw [replicate64_one hpos (by omega), Option.bind_eq_bind, Option.bind_some,
    and_ones_toNat (by omega) (by omega), and_ones_toNat (by omega) (by omega), hrun,
    Option.bind_some, ror64_eq _ hrlt hsize]

/-- No shift of the helpers that `decode_logimm` calls reaches the width. -/
theorem decodeLogimm_eq (nImmsImmr : BitVec 32) (datasize : Nat) :
    decodeLogimm nImmsImmr datasize = some (AArch64.decodeLogimm nImmsImmr datasize) := by
  have hs : nImmsImmr.toNat / 2 ^ 6 % 2 ^ 6 < 2 ^ 6 := Nat.mod_lt _ (by decide)
  have hr : nImmsImmr.toNat % 2 ^ 6 < 2 ^ 6 := Nat.mod_lt _ (by decide)
  have hn : nImmsImmr.toNat / 2 ^ 12 % 2 < 2 := Nat.mod_lt _ (by decide)
  have hsize : (BitVec.ofNat 64 (nImmsImmr.toNat / 2 ^ 6 % 2 ^ 6)).toNat =
      nImmsImmr.toNat / 2 ^ 6 % 2 ^ 6 :=
    Nat.mod_eq_of_lt (by omega)
  rw [decodeLogimm, AArch64.decodeLogimm]
  dsimp only
  rw [hsize]
  have hle : getHiBitPos (nImmsImmr.toNat / 2 ^ 12 % 2 * 2 ^ 6 +
      (63 - nImmsImmr.toNat / 2 ^ 6 % 2 ^ 6)) ≤ 6 := getHiBitPos_le (by omega)
  generalize getHiBitPos (nImmsImmr.toNat / 2 ^ 12 % 2 * 2 ^ 6 +
    (63 - nImmsImmr.toNat / 2 ^ 6 % 2 ^ 6)) = len at hle ⊢
  by_cases hlen : len < 1
  · rw [if_pos hlen, if_pos hlen]
  · have hesize : 2 ^ len ≤ 64 := Nat.pow_le_pow_right Nat.two_pos hle
    have helement := logimmElement_eq hs hr (Nat.pos_of_ne_zero (by omega)) hle
    rw [if_neg hlen, if_neg hlen]
    simp only [Option.bind_eq_bind, Option.bind_eq_some_iff] at helement ⊢
    obtain ⟨emask, hemask, eimm, heimm, hror⟩ := helement
    refine ⟨emask, hemask, eimm, heimm, _, hror, ?_⟩
    have hmask : Amed.replicate64 (2 ^ len) = (BitVec.allOnes (2 ^ len)).setWidth 64 :=
      allOnes_ushiftRight hesize
    rw [hmask]
    rfl

/-! ## The uses -/

/-- A call of a helper inside its domain, or of a decoder that calls helpers. -/
inductive Use
  | ror (value : BitVec 32) (rotation : Nat) (hrotation : rotation < 32)
  | ror64 (value : BitVec 64) (rotation datasize : Nat) (hmin : 2 ≤ datasize) (hmax : datasize ≤ 64)
      (hvalue : value.toNat < 2 ^ datasize) (hrotation : rotation < datasize)
  | replicate64 (count : Nat) (hmin : 1 ≤ count) (hmax : count ≤ 64)
  | a32Imm (imm12 : BitVec 32)
  | t32Imm (imm12 : BitVec 32)
  | logimm (nImmsImmr : BitVec 32) (datasize : Nat)

/-- A helper rotates or replicates inside the word, and no call of a decoder has a shift whose
amount reaches the width. -/
def Use.StaysInside : Use → Prop
  | .ror value rotation _ => Checked.ror value rotation = some (value.rotateRight rotation)
  | .ror64 value rotation datasize _ _ _ _ => Checked.ror64 value rotation datasize =
      some (((value.setWidth datasize).rotateRight rotation).setWidth 64)
  | .replicate64 count _ _ =>
      Checked.replicate64 1 count = some ((BitVec.allOnes count).setWidth 64)
  | .a32Imm imm12 => (decodeA32Imm imm12).isSome
  | .t32Imm imm12 => (decodeT32Imm imm12).isSome
  | .logimm nImmsImmr datasize => (decodeLogimm nImmsImmr datasize).isSome

/-- A word that `ror` should rotate by 0. -/
def Use.RotatesByZero : Use → Prop
  | .ror _ rotation _ => rotation = 0
  | .a32Imm imm12 => imm12.toNat / 2 ^ 8 % 2 ^ 4 = 0
  | _ => False

theorem decodeA32Imm_isSome_iff (imm12 : BitVec 32) :
    (decodeA32Imm imm12).isSome ↔ imm12.toNat / 2 ^ 8 % 2 ^ 4 ≠ 0 := by
  rw [decodeA32Imm]
  have hlt : imm12.toNat / 2 ^ 8 % 2 ^ 4 < 2 ^ 4 := Nat.mod_lt _ (by decide)
  generalize imm12.toNat / 2 ^ 8 % 2 ^ 4 = rotate at hlt
  by_cases hzero : rotate = 0
  · rw [hzero, ror_zero]
    simp
  · rw [ror_eq _ (by omega) (by omega)]
    simp [hzero]

theorem ror_eq_rotateRight_iff (value : BitVec 32) {rotation : Nat} (h : rotation < 32) :
    ror value rotation = some (value.rotateRight rotation) ↔ rotation ≠ 0 := by
  by_cases hzero : rotation = 0
  · rw [hzero, ror_zero]
    simp
  · rw [ror_eq value (Nat.pos_of_ne_zero hzero) h, Amed.ror, or_shifts_eq_rotateRight value h]
    simp [hzero]

theorem ror64_eq_rotateRight {value : BitVec 64} {rotation datasize : Nat}
    (hmax : datasize ≤ 64) (hvalue : value.toNat < 2 ^ datasize) (hrotation : rotation < datasize) :
    ror64 value rotation datasize =
      some (((value.setWidth datasize).rotateRight rotation).setWidth 64) := by
  have hrotate := or_shifts_and_eq_rotateRight hvalue hrotation
  rw [ror64_eq value hrotation hmax, Amed.ror64, Amed.replicate64, allOnes_ushiftRight hmax,
    hrotate]
  split
  · rename_i hzero
    rw [hzero, rotateRight_zero, setWidth_setWidth hvalue]
  · rfl

/-- Every use stays inside the word, apart from the rotations of `ror` by 0. -/
theorem staysInside_iff (u : Use) : u.StaysInside ↔ ¬u.RotatesByZero := by
  cases u with
  | ror value rotation hrotation => exact ror_eq_rotateRight_iff value hrotation
  | ror64 value rotation datasize hmin hmax hvalue hrotation =>
      exact iff_of_true (ror64_eq_rotateRight hmax hvalue hrotation) id
  | replicate64 count hmin hmax => exact iff_of_true (replicate64_one hmin hmax) id
  | a32Imm imm12 => exact decodeA32Imm_isSome_iff imm12
  | t32Imm imm12 =>
      refine iff_of_true ?_ id
      rw [Use.StaysInside, decodeT32Imm_eq]
      rfl
  | logimm nImmsImmr datasize =>
      refine iff_of_true ?_ id
      rw [Use.StaysInside, decodeLogimm_eq]
      rfl

/-- A modified immediate of A32 that is not rotated. -/
theorem not_staysInside_a32Imm : ¬∀ u : Use, u.StaysInside := by
  intro h
  exact (decodeA32Imm_isSome_iff 0xff).mp (h (.a32Imm 0xff)) (by decide)

end Amed.Checked

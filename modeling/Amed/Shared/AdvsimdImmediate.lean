import Amed.Library.Lanes
import Amed.Shared.Arm
import Mathlib.Tactic.IntervalCases

/-!
# The modified immediate of AdvSIMD

The element that `decode_advsimd_imm` reports, copied to every lane, is the constant of the
architecture.

## Implementation notes

The bytes that the decoder stores before it cuts them to the datatype are the whole constant. So
the row of every `cmode` is compared once, as a number, and the cut is undone by filling the lanes
again.
-/

namespace Amed

open Lanes

/-! ## The constant of the architecture -/

/-- Bit `i` of a byte, as a word of one bit. -/
def oneBit (imm8 : BitVec 8) (i : Nat) : BitVec 1 := imm8.extractLsb' i 1

/-- AdvSIMDExpandImm: the constant that `op`, `cmode` and `imm8` stand for. -/
def advSIMDExpandImm (op : Bool) (cmode : BitVec 4) (imm8 : BitVec 8) : BitVec 64 :=
  match cmode.toNat / 2, cmode.toNat % 2, op with
  | 0, _, _ => fill 64 (0#24 ++ imm8)
  | 1, _, _ => fill 64 (0#16 ++ imm8 ++ 0#8)
  | 2, _, _ => fill 64 (0#8 ++ imm8 ++ 0#16)
  | 3, _, _ => fill 64 (imm8 ++ 0#24)
  | 4, _, _ => fill 64 (0#8 ++ imm8)
  | 5, _, _ => fill 64 (imm8 ++ 0#8)
  | 6, 0, _ => fill 64 (0#16 ++ imm8 ++ BitVec.allOnes 8)
  | 6, _, _ => fill 64 (0#8 ++ imm8 ++ BitVec.allOnes 16)
  | _, 0, false => fill 64 imm8
  | _, 0, true =>
      fill 8 (oneBit imm8 7) ++ fill 8 (oneBit imm8 6) ++ fill 8 (oneBit imm8 5) ++
        fill 8 (oneBit imm8 4) ++ fill 8 (oneBit imm8 3) ++ fill 8 (oneBit imm8 2) ++
        fill 8 (oneBit imm8 1) ++ fill 8 (oneBit imm8 0)
  | _, _, false =>
      fill 64 (oneBit imm8 7 ++ ~~~oneBit imm8 6 ++ fill 5 (oneBit imm8 6) ++
        imm8.extractLsb' 0 6 ++ 0#19)
  | _, _, true =>
      oneBit imm8 7 ++ ~~~oneBit imm8 6 ++ fill 8 (oneBit imm8 6) ++ imm8.extractLsb' 0 6 ++ 0#48

/-! ## Numbers -/

theorem toNat_oneBit (imm8 : BitVec 8) (i : Nat) :
    (oneBit imm8 i).toNat = (imm8.toNat.testBit i).toNat := by
  rw [Nat.toNat_testBit]
  simp [oneBit, Nat.shiftRight_eq_div_pow]

/-- Eight bytes as a number. -/
theorem bytesValue_eight {a b c d e f g h : Nat} (ha : a < 256) (hb : b < 256) (hc : c < 256)
    (hd : d < 256) (he : e < 256) (hf : f < 256) (hg : g < 256) (hh : h < 256) :
    bytesValue [a, b, c, d, e, f, g, h] =
      a + 256 * (b + 256 * (c + 256 * (d + 256 * (e + 256 * (f + 256 * (g + 256 * h)))))) := by
  simp [bytesValue, Nat.mod_eq_of_lt, *]

theorem toNat_fill32 (x : BitVec 32) : (fill 64 x).toNat = x.toNat * 0x100000001 := by
  rw [toNat_fill x (by decide)]
  simp only [Nat.reduceDiv, toNat_replicate_succ, BitVec.replicate_zero, BitVec.toNat_zero]
  omega

theorem toNat_fill16 (x : BitVec 16) : (fill 64 x).toNat = x.toNat * 0x1000100010001 := by
  rw [toNat_fill x (by decide)]
  simp only [Nat.reduceDiv, toNat_replicate_succ, BitVec.replicate_zero, BitVec.toNat_zero]
  omega

theorem toNat_fill8 (x : BitVec 8) : (fill 64 x).toNat = x.toNat * 0x101010101010101 := by
  rw [toNat_fill x (by decide)]
  simp only [Nat.reduceDiv, toNat_replicate_succ, BitVec.replicate_zero, BitVec.toNat_zero]
  omega

theorem fill_self (x : BitVec 64) : fill 64 x = x := by
  apply BitVec.eq_of_toNat_eq
  rw [toNat_fill x (by decide)]
  simp only [Nat.reduceDiv, toNat_replicate_succ, BitVec.replicate_zero, BitVec.toNat_zero]
  omega

/-- A bit filled over a byte is the mask that `saturated` holds for it. -/
theorem toNat_fill_oneBit (imm8 : BitVec 8) (i : Nat) :
    (fill 8 (oneBit imm8 i)).toNat = if imm8.toNat.testBit i then 0xff else 0 := by
  rw [toNat_fill _ (by decide)]
  simp only [Nat.reduceDiv, toNat_replicate_succ, BitVec.replicate_zero, BitVec.toNat_zero,
    toNat_oneBit]
  cases imm8.toNat.testBit i <;> rfl

theorem and_sign (n : Nat) : n &&& 0x80 = (n.testBit 7).toNat * 128 := by
  rw [show (0x80 : Nat) = 2 ^ 7 from rfl, Nat.and_two_pow]

/-- The top byte of the single. -/
theorem or_single (n : Nat) :
    ((n &&& 0x80 ||| if n.testBit 6 then 0x3e else 0x40) ||| if n.testBit 5 then 1 else 0) =
      (n.testBit 7).toNat * 128 + (if n.testBit 6 then 0x3e else 0x40) + (n.testBit 5).toNat := by
  rw [and_sign]
  cases n.testBit 7 <;> cases n.testBit 6 <;> cases n.testBit 5 <;> rfl

/-- The top byte of the double. -/
theorem or_double (n : Nat) :
    (n &&& 0x80 ||| if n.testBit 6 then 0x3f else 0x40) =
      (n.testBit 7).toNat * 128 + if n.testBit 6 then 0x3f else 0x40 := by
  rw [and_sign]
  cases n.testBit 7 <;> cases n.testBit 6 <;> rfl

/-- The second byte of the double. -/
theorem or_fraction (n : Nat) :
    (n &&& 0x3f ||| if n.testBit 6 then 0xc0 else 0) =
      (if n.testBit 6 then 0xc0 else 0) + n % 64 := by
  rw [show (0x3f : Nat) = 2 ^ 6 - 1 from rfl, Nat.and_two_pow_sub_one_eq_mod, Nat.lor_comm]
  cases n.testBit 6
  · simp
  · exact (Nat.two_pow_add_eq_or_of_lt (Nat.mod_lt n (Nat.two_pow_pos 6)) 3).symm

/-! ## The rows -/

/-- The rows that shift the byte. -/
theorem advsimdPattern_of_lt (op : Bool) {cmode : BitVec 4} (imm8 : BitVec 8)
    (h : cmode.toNat < 14) :
    (advsimdPattern cmode.toNat op imm8.toNat).1 = (advSIMDExpandImm op cmode imm8).toNat := by
  have himm := imm8.isLt
  unfold advSIMDExpandImm
  generalize cmode.toNat = c at h ⊢
  interval_cases c
  all_goals
    simp only [advsimdPattern, Nat.reduceDiv, Nat.reduceMod, toNat_fill32, toNat_fill16,
      toNat_append_add, BitVec.toNat_ofNat, BitVec.toNat_allOnes, Nat.zero_mod]
    rw [bytesValue_eight] <;> omega

/-- The row of equal bytes. -/
theorem advsimdPattern_byte (imm8 : BitVec 8) :
    (advsimdPattern 14 false imm8.toNat).1 = (advSIMDExpandImm false 14 imm8).toNat := by
  have hlt := imm8.isLt
  have hrow : advSIMDExpandImm false 14 imm8 = fill 64 imm8 := rfl
  have hbytes : (advsimdPattern 14 false imm8.toNat).1 =
      bytesValue (List.replicate 8 imm8.toNat) := rfl
  rw [hrow, hbytes, toNat_fill8]
  simp only [List.replicate_succ, List.replicate_zero]
  rw [bytesValue_eight hlt hlt hlt hlt hlt hlt hlt hlt]
  omega

/-- The row of byte masks. -/
theorem advsimdPattern_byteMask (imm8 : BitVec 8) :
    (advsimdPattern 14 true imm8.toNat).1 = (advSIMDExpandImm true 14 imm8).toNat := by
  have hmask (i : Nat) : (if imm8.toNat.testBit i then 0xff else 0) < 256 := by
    cases imm8.toNat.testBit i <;> decide
  have hrange : List.range 8 = [0, 1, 2, 3, 4, 5, 6, 7] := rfl
  have hrow : advSIMDExpandImm true 14 imm8 =
      fill 8 (oneBit imm8 7) ++ fill 8 (oneBit imm8 6) ++ fill 8 (oneBit imm8 5) ++
        fill 8 (oneBit imm8 4) ++ fill 8 (oneBit imm8 3) ++ fill 8 (oneBit imm8 2) ++
        fill 8 (oneBit imm8 1) ++ fill 8 (oneBit imm8 0) := rfl
  simp only [advsimdPattern, hrow, hrange, List.map_cons, List.map_nil, toNat_append_add,
    toNat_fill_oneBit, if_true]
  rw [bytesValue_eight (hmask 0) (hmask 1) (hmask 2) (hmask 3) (hmask 4) (hmask 5) (hmask 6)
    (hmask 7)]
  omega

theorem toNat_fill_oneBit_mul (n : Nat) (hn : n ≤ 8) (imm8 : BitVec 8) (i : Nat) :
    (fill n (oneBit imm8 i)).toNat = (imm8.toNat.testBit i).toNat * (2 ^ n - 1) := by
  rw [toNat_fill _ (Nat.mul_div_le n 1), ← toNat_oneBit]
  interval_cases n <;>
    simp only [Nat.reduceDiv, toNat_replicate_succ, BitVec.replicate_zero, BitVec.toNat_zero] <;>
    omega

theorem toNat_not_oneBit (imm8 : BitVec 8) (i : Nat) :
    (~~~oneBit imm8 i).toNat = 1 - (imm8.toNat.testBit i).toNat := by
  rw [BitVec.toNat_not, toNat_oneBit]

theorem toNat_extract_six (imm8 : BitVec 8) :
    (imm8.extractLsb' 0 6).toNat = imm8.toNat % 64 := by
  simp

/-- The row of the single. -/
theorem advsimdPattern_single (imm8 : BitVec 8) :
    (advsimdPattern 15 false imm8.toNat).1 = (advSIMDExpandImm false 15 imm8).toNat := by
  have h7 := Bool.toNat_le (imm8.toNat.testBit 7)
  have h6 := Bool.toNat_le (imm8.toNat.testBit 6)
  have h5 := Bool.toNat_le (imm8.toNat.testBit 5)
  have hlow : imm8.toNat % 64 = (imm8.toNat.testBit 5).toNat * 32 + imm8.toNat % 32 := by
    rw [Nat.toNat_testBit]
    omega
  have hlt : imm8.toNat % 32 < 32 := Nat.mod_lt _ (by decide)
  have hrow : advSIMDExpandImm false 15 imm8 =
      fill 64 (oneBit imm8 7 ++ ~~~oneBit imm8 6 ++ fill 5 (oneBit imm8 6) ++
        imm8.extractLsb' 0 6 ++ 0#19) := rfl
  have hdefgh : imm8.toNat &&& 0x1f = imm8.toNat % 32 :=
    Nat.and_two_pow_sub_one_eq_mod imm8.toNat 5
  have htop : (if imm8.toNat.testBit 6 then 0x3e else 0x40) =
      0x40 - 2 * (imm8.toNat.testBit 6).toNat := by
    cases imm8.toNat.testBit 6 <;> rfl
  simp only [advsimdPattern, hrow, or_single, hdefgh, toNat_fill32, toNat_append_add,
    toNat_oneBit, toNat_not_oneBit, toNat_fill_oneBit_mul 5 (by decide), toNat_extract_six,
    Bool.false_eq_true, if_false, BitVec.toNat_ofNat, Nat.reduceMod, Nat.reducePow]
  rw [htop, hlow]
  generalize (imm8.toNat.testBit 7).toNat = b₇ at h7
  generalize (imm8.toNat.testBit 6).toNat = b₆ at h6
  generalize (imm8.toNat.testBit 5).toNat = b₅ at h5
  generalize imm8.toNat % 32 = low at hlt
  clear hlow htop
  rw [bytesValue_eight] <;> omega

/-- The row of the double. -/
theorem advsimdPattern_double (imm8 : BitVec 8) :
    (advsimdPattern 15 true imm8.toNat).1 = (advSIMDExpandImm true 15 imm8).toNat := by
  have h7 := Bool.toNat_le (imm8.toNat.testBit 7)
  have h6 := Bool.toNat_le (imm8.toNat.testBit 6)
  have hlt : imm8.toNat % 64 < 64 := Nat.mod_lt _ (by decide)
  have hrow : advSIMDExpandImm true 15 imm8 =
      oneBit imm8 7 ++ ~~~oneBit imm8 6 ++ fill 8 (oneBit imm8 6) ++
        imm8.extractLsb' 0 6 ++ 0#48 := rfl
  have htop : (if imm8.toNat.testBit 6 then 0x3f else 0x40) =
      0x40 - (imm8.toNat.testBit 6).toNat := by
    cases imm8.toNat.testBit 6 <;> rfl
  have hsecond : (if imm8.toNat.testBit 6 then 0xc0 else 0) =
      0xc0 * (imm8.toNat.testBit 6).toNat := by
    cases imm8.toNat.testBit 6 <;> rfl
  simp only [advsimdPattern, hrow, or_double, or_fraction, toNat_oneBit,
    toNat_not_oneBit, toNat_fill_oneBit_mul 8 (Nat.le_refl 8), toNat_extract_six, if_true,
    toNat_append_add, BitVec.toNat_ofNat, Nat.reduceMod, Nat.reducePow]
  rw [htop, hsecond]
  generalize (imm8.toNat.testBit 7).toNat = b₇ at h7
  generalize (imm8.toNat.testBit 6).toNat = b₆ at h6
  generalize imm8.toNat % 64 = low at hlt
  clear htop hsecond
  rw [bytesValue_eight] <;> omega

/-- The bytes before the cut are the whole constant. -/
theorem advsimdPattern_eq (op : Bool) (cmode : BitVec 4) (imm8 : BitVec 8) :
    (advsimdPattern cmode.toNat op imm8.toNat).1 = (advSIMDExpandImm op cmode imm8).toNat := by
  rcases lt_or_ge cmode.toNat 14 with hlt | hge
  · exact advsimdPattern_of_lt op imm8 hlt
  · have hcmode : cmode = 14 ∨ cmode = 15 := by
      have h := cmode.isLt
      rcases (by omega : cmode.toNat = 14 ∨ cmode.toNat = 15) with h | h
      · exact .inl (BitVec.eq_of_toNat_eq h)
      · exact .inr (BitVec.eq_of_toNat_eq h)
    rcases hcmode with rfl | rfl
    · cases op with
      | false => exact advsimdPattern_byte imm8
      | true => exact advsimdPattern_byteMask imm8
    · cases op with
      | false => exact advsimdPattern_single imm8
      | true => exact advsimdPattern_double imm8

/-! ## The element -/

/-- The datatype reported for `cmode` is as wide as the lanes of its row. -/
theorem advSIMDExpandImm_fills (op : Bool) (cmode : BitVec 4) (imm8 : BitVec 8) :
    ∃ element : BitVec (getDatatypeSize (advsimdPattern cmode.toNat op imm8.toNat).2),
      advSIMDExpandImm op cmode imm8 = fill 64 element := by
  have hlt := cmode.isLt
  unfold advSIMDExpandImm
  generalize cmode.toNat = c at hlt ⊢
  interval_cases c
  case «14» =>
    cases op with
    | false => exact ⟨imm8, rfl⟩
    | true => exact ⟨_, (fill_self _).symm⟩
  case «15» =>
    cases op with
    | false => exact ⟨_, rfl⟩
    | true => exact ⟨_, (fill_self _).symm⟩
  all_goals exact ⟨_, rfl⟩

/-- The datatypes that a row reports. -/
theorem advsimdPattern_datatype (op : Bool) (cmode : BitVec 4) (imm8 : BitVec 8) :
    (advsimdPattern cmode.toNat op imm8.toNat).2 ∈
      [Datatype.i8, .i16, .i32, .f32, .i64, .f64] := by
  have hlt := cmode.isLt
  generalize cmode.toNat = c at hlt ⊢
  interval_cases c <;> cases op <;> simp [advsimdPattern]

/-- What is returned is the constant cut to the datatype reported with it. -/
theorem decodeAdvsimdImm_eq (encodedin : BitVec 32) :
    decodeAdvsimdImm encodedin =
      (let cmode := encodedin.extractLsb' 8 4
       let imm8 := encodedin.setWidth 8
       let dt := (advsimdPattern cmode.toNat (encodedin.getLsbD 12) imm8.toNat).2
       (BitVec.ofNat 64
          ((advSIMDExpandImm (encodedin.getLsbD 12) cmode imm8).toNat % 2 ^ getDatatypeSize dt),
        dt)) := by
  have hcmode : (encodedin.extractLsb' 8 4).toNat = encodedin.toNat / 256 % 16 := by
    simp [Nat.shiftRight_eq_div_pow]
  have himm8 : (encodedin.setWidth 8).toNat = encodedin.toNat % 256 := by simp
  have hdt := advsimdPattern_datatype (encodedin.getLsbD 12) (encodedin.extractLsb' 8 4)
    (encodedin.setWidth 8)
  have hlt := (advSIMDExpandImm (encodedin.getLsbD 12) (encodedin.extractLsb' 8 4)
    (encodedin.setWidth 8)).isLt
  simp only [decodeAdvsimdImm, ← hcmode, ← himm8, ← advsimdPattern_eq] at hlt ⊢
  generalize advsimdPattern _ _ _ = row at hdt hlt ⊢
  obtain ⟨pattern, dt⟩ := row
  simp only [List.mem_cons, List.not_mem_nil, or_false] at hdt
  rcases hdt with rfl | rfl | rfl | rfl | rfl | rfl
  case inl | inr.inl | inr.inr.inl | inr.inr.inr.inl => rfl
  all_goals exact congrArg (BitVec.ofNat 64 · , _) (Nat.mod_eq_of_lt hlt).symm

theorem setWidth_ofNat_mod (x : BitVec 64) {w : Nat} (hw : w ≤ 64) :
    (BitVec.ofNat 64 (x.toNat % 2 ^ w)).setWidth w = x.setWidth w := by
  apply BitVec.eq_of_toNat_eq
  have hlt : x.toNat % 2 ^ w < 2 ^ 64 :=
    (Nat.mod_lt _ (Nat.two_pow_pos w)).trans_le (Nat.pow_le_pow_right (by decide) hw)
  rw [BitVec.toNat_setWidth, BitVec.toNat_setWidth, BitVec.toNat_ofNat, Nat.mod_eq_of_lt hlt,
    Nat.mod_mod]

/-- Copying the element that `decode_advsimd_imm` returns to every lane of the width of its
datatype gives the constant of the architecture, and no bit above that width is set. -/
theorem decodeAdvsimdImm_replicates (encodedin : BitVec 32) :
    let element := (decodeAdvsimdImm encodedin).1
    let width := getDatatypeSize (decodeAdvsimdImm encodedin).2
    0 < width ∧ element.toNat < 2 ^ width ∧
      fill 64 (element.setWidth width) =
        advSIMDExpandImm (encodedin.getLsbD 12) (encodedin.extractLsb' 8 4)
          (encodedin.setWidth 8) := by
  obtain ⟨element, hfill⟩ := advSIMDExpandImm_fills (encodedin.getLsbD 12)
    (encodedin.extractLsb' 8 4) (encodedin.setWidth 8)
  have hdt := advsimdPattern_datatype (encodedin.getLsbD 12) (encodedin.extractLsb' 8 4)
    (encodedin.setWidth 8)
  rw [decodeAdvsimdImm_eq]
  dsimp only
  generalize (advsimdPattern _ _ _).2 = dt at element hfill hdt ⊢
  have hwidth : 0 < getDatatypeSize dt ∧ getDatatypeSize dt ≤ 64 := by
    simp only [List.mem_cons, List.not_mem_nil, or_false] at hdt
    rcases hdt with rfl | rfl | rfl | rfl | rfl | rfl <;> decide
  refine ⟨hwidth.1, ?_, ?_⟩
  · rw [BitVec.toNat_ofNat]
    exact (Nat.mod_le _ _).trans_lt (Nat.mod_lt _ (Nat.two_pow_pos _))
  · rw [setWidth_ofNat_mod _ hwidth.2, hfill, fill_setWidth_fill element hwidth.1 hwidth.2]

end Amed

import Amed.AArch64.MoveWide

/-!
# Bit fields

The aliases of `SBFM`, `UBFM` and `BFM`: which of them a word has, and what their operands say.

## Implementation notes

`BFXPreferred` asks for the unsigned form where it means to exclude the 64-bit sign extensions.
-/

namespace Amed.AArch64

/-! ## Which alias -/

/-- An allocated word of `SBFM`, `BFM` or `UBFM`. -/
structure AllocatedBitfield (opcode : BitVec 32) : Prop where
  group : opcode.toNat / 2 ^ 23 % 2 ^ 6 = 0b100110
  opc : fieldOpc opcode ≠ 3
  n : fieldN opcode = fieldSf opcode
  word : fieldSf opcode = false → fieldImmr opcode < 32 ∧ fieldImms opcode < 32

/-- The fields are those of an alias other than `SBFX` and `UBFX`. -/
inductive OtherAlias (opcode : BitVec 32) : Prop
  | shiftRight (h : fieldImms opcode = registerSize (fieldSf opcode) - 1)
  | lsl (h : fieldOpc opcode = 2) (hs : fieldImms opcode ≠ registerSize (fieldSf opcode) - 1)
      (hr : fieldImms opcode + 1 = fieldImmr opcode)
  | bfiz (h : fieldImms opcode < fieldImmr opcode)
  | sxt (h : fieldOpc opcode = 0) (hr : fieldImmr opcode = 0)
      (hs : fieldImms opcode = 7 ∨ fieldImms opcode = 15)
  | sxtw (h : fieldOpc opcode = 0) (hsf : fieldSf opcode = true) (hr : fieldImmr opcode = 0)
      (hs : fieldImms opcode = 31)
  | uxt (h : fieldOpc opcode = 2) (hsf : fieldSf opcode = false) (hr : fieldImmr opcode = 0)
      (hs : fieldImms opcode = 7 ∨ fieldImms opcode = 15)

variable (other : Nat → BitVec 32 → Bool) (opcode : BitVec 32)

/-- The condition of `SBFX` and `UBFX` holds just of the words that no other alias has. -/
def BfxExact : Prop :=
  AllocatedBitfield opcode → fieldOpc opcode = 0 ∨ fieldOpc opcode = 2 →
    (isAliasConditionOk other 14 opcode = true ↔ ¬OtherAlias opcode)

/-- The fields of a 64-bit extension of a byte, a halfword or a word. -/
def Extends64 : Prop :=
  fieldSf opcode = true ∧ fieldImmr opcode = 0 ∧
    (fieldImms opcode = 7 ∨ fieldImms opcode = 15 ∨ fieldImms opcode = 31)

theorem bfxPreferred_eq_true_iff {sf : Bool} (uns : Bool) {imms : Nat} (immr : Nat)
    (hs : imms < registerSize sf) :
    bfxPreferred sf uns imms immr = true ↔
      immr ≤ imms ∧ imms ≠ registerSize sf - 1 ∧ ¬(immr = 0 ∧ (sf = true → uns = true) ∧
        (imms = 7 ∨ imms = 15 ∨ sf = true ∧ imms = 31)) := by
  have htop : (imms % 32 = 31 && imms.testBit 5 = sf) = decide (imms = registerSize sf - 1) := by
    rw [Nat.testBit_eq_decide_div_mod_eq, ← Bool.decide_and, decide_eq_decide]
    cases sf with
    | false =>
        simp only [registerSize, Bool.false_eq_true, if_false, decide_eq_false_iff_not] at hs ⊢
        omega
    | true =>
        simp only [registerSize, if_true, decide_eq_true_eq] at hs ⊢
        omega
  rw [bfxPreferred, htop]
  by_cases hlow : imms < immr
  · rw [if_pos hlow]
    exact iff_of_false Bool.false_ne_true (fun h => by omega)
  · rw [if_neg hlow, and_iff_right (by omega)]
    by_cases hlast : imms = registerSize sf - 1
    · rw [if_pos (by simp [hlast])]
      exact iff_of_false Bool.false_ne_true (fun h => h.1 hlast)
    · rw [if_neg (by simp [hlast]), and_iff_right hlast]
      by_cases hzero : immr = 0
      · cases sf <;> cases uns <;> simp [hzero, not_or, and_assoc]
      · simp [hzero]

theorem fieldImms_lt {opcode : BitVec 32} (h : AllocatedBitfield opcode) :
    fieldImms opcode < registerSize (fieldSf opcode) := by
  have hlt : fieldImms opcode < 64 := Nat.mod_lt _ (by decide)
  cases hsf : fieldSf opcode with
  | true => exact hlt
  | false => exact (h.word hsf).2

theorem otherAlias_iff :
    OtherAlias opcode ↔ fieldImms opcode < fieldImmr opcode ∨
      fieldImms opcode = registerSize (fieldSf opcode) - 1 ∨ fieldImmr opcode = 0 ∧
        (fieldOpc opcode = 0 ∧ (fieldImms opcode = 7 ∨ fieldImms opcode = 15 ∨
            fieldSf opcode = true ∧ fieldImms opcode = 31) ∨
          fieldOpc opcode = 2 ∧ fieldSf opcode = false ∧
            (fieldImms opcode = 7 ∨ fieldImms opcode = 15)) := by
  constructor
  · rintro (h | ⟨-, -, hr⟩ | h | ⟨h, hr, hs⟩ | ⟨h, hsf, hr, hs⟩ | ⟨h, hsf, hr, hs⟩)
    · exact Or.inr (Or.inl h)
    · exact Or.inl (by omega)
    · exact Or.inl h
    · exact Or.inr (Or.inr ⟨hr, Or.inl ⟨h, hs.imp_right Or.inl⟩⟩)
    · exact Or.inr (Or.inr ⟨hr, Or.inl ⟨h, Or.inr (Or.inr ⟨hsf, hs⟩)⟩⟩)
    · exact Or.inr (Or.inr ⟨hr, Or.inr ⟨h, hsf, hs⟩⟩)
  · rintro (h | h | ⟨hr, ⟨h, hs | hs | ⟨hsf, hs⟩⟩ | ⟨h, hsf, hs⟩⟩)
    · exact .bfiz h
    · exact .shiftRight h
    · exact .sxt h hr (Or.inl hs)
    · exact .sxt h hr (Or.inr hs)
    · exact .sxtw h hsf hr hs
    · exact .uxt h hsf hr hs

/-- The condition of `SBFX` and `UBFX` is right but for the 64-bit extensions. -/
theorem bfxExact_iff :
    BfxExact other opcode ↔ ¬(AllocatedBitfield opcode ∧
      (fieldOpc opcode = 0 ∨ fieldOpc opcode = 2) ∧ Extends64 opcode) := by
  by_cases hword : AllocatedBitfield opcode ∧ (fieldOpc opcode = 0 ∨ fieldOpc opcode = 2)
  · obtain ⟨hallocated, hopc⟩ := hword
    have hs := fieldImms_lt hallocated
    have htest : isAliasConditionOk other 14 opcode = true ↔ _ :=
      bfxPreferred_eq_true_iff (fieldOpc opcode / 2 ≠ 0) (fieldImmr opcode) hs
    rw [BfxExact, imp_iff_right hallocated, imp_iff_right hopc, htest, otherAlias_iff, Extends64]
    simp only [hallocated, hopc, true_and]
    by_cases hzero : fieldImmr opcode = 0
    · cases hsf : fieldSf opcode with
      | false =>
          rcases hopc with h | h <;> simp [hzero, h, not_or]
      | true =>
          rcases hopc with h | h
          · simp [hzero, h, not_or, registerSize]
            omega
          · simp [hzero, h, not_or, registerSize]
            omega
    · simp [hzero, not_or]
  · exact iff_of_true (fun h hopc => absurd ⟨h, hopc⟩ hword) (fun h => hword ⟨h.1, h.2.1⟩)

/-- `UBFX X0, X0, #0, #8`, which no other alias has. -/
theorem not_bfxExact_ubfx :
    ¬∀ (other : Nat → BitVec 32 → Bool) (opcode : BitVec 32), BfxExact other opcode := by
  intro h
  have hallocated : AllocatedBitfield 0xd3401c00 := ⟨by decide, by decide, by decide, by decide⟩
  have hexact := h (fun _ _ => false) 0xd3401c00 hallocated (Or.inr (by decide))
  rw [otherAlias_iff] at hexact
  exact absurd (hexact.mpr (by decide)) (by decide)

end Amed.AArch64

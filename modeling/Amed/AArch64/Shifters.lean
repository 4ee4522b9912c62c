import Amed.AArch64.Excerpt

/-!
# Shifter amounts

The amount that `decode_arg_shifter` stores, and the one its node stands for.

## Implementation notes

A vector length is stored and then replaced by the number of `AMOUNT_VL`. A multiplier is counted
on from the number stored, whether it is encoded or not.
-/

namespace Amed.AArch64

/-! ## What a node stands for -/

/-- An amount node that stands for the vector length. -/
def DbAny.isVl (node : DbAny) : Bool :=
  !node.hasEncodedin && node.value = amountVl && node.scale = 0

/-- A number with the scale of its node. -/
def DbAny.scaled (node : DbAny) (value : BitVec 32) : Nat :=
  if node.scale ≠ 0 then value.toNat * node.scale.toNat else value.toNat

/-- The amount that an amount node stands for under a shift. -/
def amountOf (context : Context) (shift value : BitVec 32) (amount : DbAny) : Nat :=
  if amount.isVl then context.vectorSize
  else if shift.toNat = Shift.mul.code ∧ amount.hasEncodedin then amount.scaled value + 1
  else amount.scaled value

/-- The amount that a shifter node stands for; none where it does not decode. -/
def shifterAmount (db : Db) (context : Context) (opcode : BitVec 32) (node : DbShifter) :
    Option Nat :=
  if node.hasEncodedin then
    (lookupTv node.table (readEncodedinValue (db.encodedins node.encodedin) opcode).1).map (·.amount)
  else
    match decodeAny db opcode node.shift, node.amount with
    | none, _ => none
    | some _, none => some 0
    | some shift, some amount =>
        (decodeAny db opcode amount).map fun decoded =>
          amountOf context shift.value decoded.value amount

/-- The amount stored is the one its node stands for. -/
def StoresAmount (db : Db) (o : Operand) (node : DbShifter) : Prop :=
  ∀ amount ∈ shifterAmount db o.internal.context o.internal.opcode node,
    (decodeArgShifter db o node).2.argument.shifter.amount = amount

/-- Where the last assignment stores what the node stands for: the number is no vector length,
unless that is the number of `AMOUNT_VL` itself, and no multiplier that is not encoded. -/
structure Unreplaced (context : Context) (shift : BitVec 32) (amount : DbAny) : Prop where
  vl : amount.isVl = true → context.vectorSize = 0xffff
  mul : shift.toNat = Shift.mul.code → amount.hasEncodedin = true ∨ amount.isVl = true

/-! ## What is stored -/

/-- The number behind the branches of `decode_arg_shifter`. -/
def storedAmount (shift value : BitVec 32) (amount : DbAny) : BitVec 32 :=
  let scaled := if amount.scale ≠ 0 then value * amount.scale else value
  if scaled ≠ amountVl ∧ shift.toNat = Shift.mul.code then scaled + 1 else scaled

@[simp] theorem finishShifter_amount (a : Argument) :
    (finishShifter a).shifter.amount = a.shifter.amount := by
  unfold finishShifter
  dsimp only
  split <;> rfl

variable (db : Db) (o : Operand) (node : DbShifter)

/-- With an amount node, the last assignment decides. -/
theorem decodeArgShifter_amount {shift decoded : Decoded} {amount : DbAny}
    (htable : node.hasEncodedin = false)
    (hshift : decodeAny db o.internal.opcode node.shift = some shift)
    (hnode : node.amount = some amount)
    (hamount : decodeAny db o.internal.opcode amount = some decoded) :
    (decodeArgShifter db o node).2.argument.shifter.amount =
      (storedAmount shift.value decoded.value amount).toNat % 2 ^ 16 := by
  simp [decodeArgShifter, htable, hshift, hnode, hamount, storedAmount]


theorem toNat_scaled (amount : DbAny) (value : BitVec 32) :
    (if amount.scale ≠ 0 then value * amount.scale else value).toNat =
      amount.scaled value % 2 ^ 32 := by
  unfold DbAny.scaled
  split
  · exact BitVec.toNat_mul value amount.scale
  · exact (Nat.mod_eq_of_lt value.isLt).symm

/-- A vector length is replaced by its own number. -/
theorem storedAmount_of_isVl {amount : DbAny} (h : amount.isVl = true) (shift : BitVec 32) :
    storedAmount shift amount.value amount = amountVl := by
  simp only [DbAny.isVl, Bool.and_eq_true, decide_eq_true_eq] at h
  simp [storedAmount, h.2, h.1.2]

theorem storedAmount_eq_iff (context : Context) {shift value : BitVec 32} {amount : DbAny}
    (hvalue : amount.hasEncodedin = false → value = amount.value) :
    (storedAmount shift value amount).toNat % 2 ^ 16 = amountOf context shift value amount ↔
      amountOf context shift value amount < 2 ^ 16 ∧ Unreplaced context shift amount := by
  by_cases hvl : amount.isVl = true
  · have hencoded : amount.hasEncodedin = false := by
      simp only [DbAny.isVl, Bool.and_eq_true, Bool.not_eq_true'] at hvl
      exact hvl.1.1
    rw [hvalue hencoded, storedAmount_of_isVl hvl, amountOf, if_pos hvl]
    have hstored : amountVl.toNat % 2 ^ 16 = 0xffff := rfl
    rw [hstored]
    constructor
    · intro h
      exact ⟨by omega, fun _ => h.symm, fun _ => .inr hvl⟩
    · rintro ⟨-, h⟩
      exact (h.vl hvl).symm
  · have hscaled := toNat_scaled amount value
    have hkeeps : Unreplaced context shift amount ↔
        (shift.toNat = Shift.mul.code → amount.hasEncodedin = true) :=
      ⟨fun h hmul => (h.mul hmul).resolve_right hvl,
        fun h => ⟨fun h' => absurd h' hvl, fun hmul => .inl (h hmul)⟩⟩
    rw [hkeeps, storedAmount, amountOf, if_neg hvl]
    generalize (if amount.scale ≠ 0 then value * amount.scale else value) = scaled at hscaled ⊢
    generalize amount.scaled value = number at hscaled ⊢
    by_cases hmul : shift.toNat = Shift.mul.code
    · -- the number of `AMOUNT_VL` itself is not counted on
      have hstored : (if scaled ≠ amountVl ∧ shift.toNat = Shift.mul.code then scaled + 1
          else scaled).toNat = if scaled.toNat = 2 ^ 32 - 1 then 2 ^ 32 - 1 else scaled.toNat + 1 := by
        by_cases hlength : scaled = amountVl
        · rw [hlength, if_neg (fun h => h.1 rfl)]
          rfl
        · have hne : scaled.toNat ≠ 2 ^ 32 - 1 := fun h => hlength (BitVec.eq_of_toNat_eq h)
          have hlt := scaled.isLt
          rw [if_pos ⟨hlength, hmul⟩, if_neg hne, BitVec.toNat_add]
          exact Nat.mod_eq_of_lt (by change scaled.toNat + 1 < 2 ^ 32; omega)
      rw [hstored]
      cases hencoded : amount.hasEncodedin with
      | false =>
          simp only [hmul, Bool.false_eq_true, and_false, if_false, true_imp_iff, iff_false]
          split <;> omega
      | true =>
          simp only [hmul, and_true, if_true, implies_true]
          split <;> omega
    · simp only [hmul, false_and, and_false, if_false, false_imp_iff, and_true]
      omega

/-- A shifter of a table stores the amount of its row. -/
theorem decodeArgShifter_table {tv : DbTv} (htable : node.hasEncodedin = true)
    (hrow : lookupTv node.table
      (readEncodedinValue (db.encodedins node.encodedin) o.internal.opcode).1 = some tv) :
    (decodeArgShifter db o node).2.argument.shifter.amount = tv.amount % 2 ^ 16 := by
  simp [decodeArgShifter, htable, hrow]

/-- Without an amount node, 0 is stored. -/
theorem decodeArgShifter_plain {shift : Decoded} (htable : node.hasEncodedin = false)
    (hshift : decodeAny db o.internal.opcode node.shift = some shift) (hnode : node.amount = none) :
    (decodeArgShifter db o node).2.argument.shifter.amount = 0 := by
  simp [decodeArgShifter, htable, hshift, hnode]

theorem decodeAny_value {opcode : BitVec 32} {amount : DbAny} {decoded : Decoded}
    (h : decodeAny db opcode amount = some decoded) (hencoded : amount.hasEncodedin = false) :
    decoded.value = amount.value := by
  simp only [decodeAny, hencoded, Bool.false_eq_true, if_false, Option.some.injEq] at h
  exact h ▸ rfl

/-- The amount that `decode_arg_shifter` stores is the one its node stands for exactly when that
fits its 16 bits and, where the node has an amount of its own, the last assignment keeps it. -/
theorem storesAmount_iff :
    StoresAmount db o node ↔
      ∀ n ∈ shifterAmount db o.internal.context o.internal.opcode node, n < 2 ^ 16 ∧
        ∀ shift amount, node.hasEncodedin = false →
          decodeAny db o.internal.opcode node.shift = some shift → node.amount = some amount →
            Unreplaced o.internal.context shift.value amount := by
  refine forall₂_congr fun n hn => ?_
  unfold shifterAmount at hn
  cases htable : node.hasEncodedin with
  | true =>
      rw [htable, if_pos rfl] at hn
      obtain ⟨tv, hrow, rfl⟩ := Option.map_eq_some_iff.mp hn
      rw [decodeArgShifter_table db o node htable hrow]
      simp only [Bool.true_eq_false, false_imp_iff, implies_true, and_true]
      omega
  | false =>
      rw [htable, if_neg (by decide)] at hn
      cases hshift : decodeAny db o.internal.opcode node.shift with
      | none => rw [hshift] at hn; cases hn
      | some shift =>
          rw [hshift] at hn
          cases hnode : node.amount with
          | none =>
              rw [hnode] at hn
              cases hn
              rw [decodeArgShifter_plain db o node htable hshift hnode]
              simp
          | some amount =>
              rw [hnode] at hn
              obtain ⟨decoded, hamount, rfl⟩ := Option.map_eq_some_iff.mp hn
              rw [decodeArgShifter_amount db o node htable hshift hnode hamount,
                storedAmount_eq_iff _ (decodeAny_value db hamount)]
              constructor
              · rintro ⟨hlt, hkeeps⟩
                refine ⟨hlt, fun shift' amount' _ hs ha => ?_⟩
                cases hs
                cases ha
                exact hkeeps
              · rintro ⟨hlt, hkeeps⟩
                exact ⟨hlt, hkeeps shift amount rfl rfl rfl⟩

/-! ## A vector length -/

/-- The shifter of `LD1B {Z0.B}, P0/Z, [X0, #1, MUL VL]`. -/
def mulVlShifter : DbShifter :=
  { hasEncodedin := false, encodedin := 0, table := .terminal
    shift := { value := BitVec.ofNat 32 Shift.mul.code }
    amount := some { datatype := .u32, value := amountVl } }

/-- The operand of that instruction, with vectors of 512 bits. -/
def mulVlOperand : Operand :=
  { internal :=
      { insn := default, context := { (default : Context) with vectorSize := 512 }, encoding := 0
        ptemplate := 0, opcode := 0xa401a000, datasize := 0, lsb := 0, dstReg := 0
        hasReg := false }
    argument := clearArgument default }

/-- Its amount is 512, and 65535 is stored. -/
theorem not_storesAmount_mulVl :
    ¬∀ (db : Db) (o : Operand) (node : DbShifter), StoresAmount db o node := by
  intro h
  have h512 : shifterAmount Excerpt.tables mulVlOperand.internal.context
      mulVlOperand.internal.opcode mulVlShifter = some 512 := rfl
  have hstored := h Excerpt.tables mulVlOperand mulVlShifter 512 h512
  have hreplaced : (decodeArgShifter Excerpt.tables mulVlOperand
      mulVlShifter).2.argument.shifter.amount = 65535 := rfl
  rw [hreplaced] at hstored
  exact absurd hstored (by decide)

end Amed.AArch64

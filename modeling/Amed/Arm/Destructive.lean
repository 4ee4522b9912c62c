import Amed.AArch32.Excerpt
import Amed.AArch32.StoredRegisters
import Amed.AArch64.StoredRegisters

/-!
# Destructive instructions

`is_destructive` is to be set for the instructions that write a register they read. Both decoders
remember one register only, and look at it while the arguments are decoded.

## Implementation notes

The register of the base of a memory operand is decoded by `decode_arg_reg` as well, and so is an
alias, behind its base encoding: both take part in what is remembered, and neither has to be a
register argument of the instruction.
-/

namespace Amed.Arm

open LastWrite

/-- One decode by one of the two decoders, with what it finds in memory. -/
inductive Decoding
  | aarch32 (db : AArch32.Db) (ctx : Context) (stale : AArch32.Internal) (insn : Insn)
  | aarch64 (db : AArch64.Db) (ctx : Context) (stale : Argument) (insn : Insn)

namespace Decoding

/-- The opcode is accepted. -/
def accepted : Decoding → Bool
  | aarch32 db ctx stale insn => (AArch32.decodeInsn db ctx stale insn).1
  | aarch64 db ctx stale insn => (AArch64.decodeInsn db ctx stale insn).1

/-- The register arguments of the instruction. -/
def arguments : Decoding → List (Access Nat)
  | aarch32 db ctx stale insn =>
      registerArguments (AArch32.decodeInsn db ctx stale insn).2.1.argumentCount
        (AArch32.decodeInsn db ctx stale insn).2.1.arguments
  | aarch64 db ctx stale insn =>
      registerArguments (AArch64.decodeInsn db ctx stale insn).2.argumentCount
        (AArch64.decodeInsn db ctx stale insn).2.arguments

def isDestructive : Decoding → Bool
  | aarch32 db ctx stale insn =>
      (AArch32.decodeInsn db ctx stale insn).2.1.attributes.isDestructive
  | aarch64 db ctx stale insn =>
      (AArch64.decodeInsn db ctx stale insn).2.attributes.isDestructive

/-- The same decode with another register in `dst_reg` when it starts: the AArch32 decoder does not
initialise it. -/
def withDst (register : Nat) : Decoding → Decoding
  | aarch32 db ctx stale insn => aarch32 db ctx (stale.withDst register) insn
  | aarch64 db ctx stale insn => aarch64 db ctx stale insn

/-- The flag says whether some register argument is written that is read too. -/
def FlagRight (d : Decoding) : Prop :=
  ∀ register, (d.withDst register).isDestructive = true ↔
    Overlaps (d.withDst register).arguments

/-- All that `decode_arg_reg` decodes, in its order. -/
def accesses : Decoding → List (Access Nat)
  | aarch32 db ctx stale insn => AArch32.insnAccesses db ctx stale insn
  | aarch64 db ctx stale insn => AArch64.insnAccesses db ctx stale insn

/-- The register arguments that the opcode and the tables call for. -/
def registers : Decoding → List (Access Nat)
  | aarch32 db ctx stale insn => (AArch32.leftSlots db ctx stale insn).registers
  | aarch64 db ctx stale insn => (AArch64.leftSlots db ctx stale insn).registers

/-- An access reads the register that is remembered, which at first is `register`. -/
def ReadsRemembered (d : Decoding) (register : Nat) : Prop :=
  ReadsBack d.accesses ∨ ReadsEarly d.accesses register

/-- The order of the accesses lets one remembered register stand for all that are written: a
register argument is written and read, and what is remembered is read; or neither. What AArch32
remembers at first is any register. -/
def RightOrder : Decoding → Prop
  | aarch32 db ctx stale insn =>
      let d := aarch32 db ctx stale insn
      Overlaps d.registers ∧ ReadsBack d.accesses ∨
        ¬Overlaps d.registers ∧ ∀ register, ¬d.ReadsRemembered register
  | aarch64 db ctx stale insn =>
      let d := aarch64 db ctx stale insn
      Overlaps d.registers ∧ d.ReadsRemembered AArch64.Register.none ∨
        ¬Overlaps d.registers ∧ ¬d.ReadsRemembered AArch64.Register.none

/-- The decoder stores the registers that are called for. -/
theorem overlaps_arguments (d : Decoding) (h : d.accepted = true) :
    Overlaps d.arguments ↔ Overlaps d.registers := by
  cases d with
  | aarch32 db ctx stale insn =>
      rw [registers, ← AArch32.decodeInsn_slots db ctx stale insn h]
      exact (overlaps_slotsOf _).symm
  | aarch64 db ctx stale insn =>
      rw [registers, ← AArch64.decodeInsn_slots db ctx stale insn h]
      exact (overlaps_slotsOf _).symm

theorem aarch32_flag (db : AArch32.Db) (ctx : Context) (stale : AArch32.Internal) (insn : Insn)
    (h : (aarch32 db ctx stale insn).accepted = true) (register : Nat) :
    ((aarch32 db ctx stale insn).withDst register).isDestructive =
        (Tracker.run ⟨register, false⟩ (aarch32 db ctx stale insn).accesses).seen ∧
      ((aarch32 db ctx stale insn).withDst register).arguments =
        (aarch32 db ctx stale insn).arguments := by
  obtain ⟨c, hdecode⟩ := AArch32.decodeInsn_follows db ctx stale insn register h
  rw [withDst, isDestructive, arguments, hdecode]
  exact ⟨rfl, rfl⟩

/-- Where `is_destructive` is right. -/
theorem flagRight_iff (d : Decoding) (h : d.accepted = true) : d.FlagRight ↔ d.RightOrder := by
  have hoverlaps := overlaps_arguments d h
  cases d with
  | aarch32 db ctx stale insn =>
      have hflag := aarch32_flag db ctx stale insn h
      have hinitial := Tracker.forall_initial_iff (aarch32 db ctx stale insn).accesses
        (Overlaps (aarch32 db ctx stale insn).arguments)
      have hright : (aarch32 db ctx stale insn).FlagRight ↔ _ :=
        (forall_congr' fun register => by rw [(hflag register).1, (hflag register).2]).trans hinitial
      rw [hright, hoverlaps, RightOrder]
      simp only [ReadsRemembered, not_or, forall_and, forall_const]
  | aarch64 db ctx stale insn =>
      have hflag : (aarch64 db ctx stale insn).isDestructive = true ↔
          (aarch64 db ctx stale insn).ReadsRemembered AArch64.Register.none :=
        (Bool.eq_iff_iff.mp (AArch64.decodeInsn_isDestructive db ctx stale insn h)).trans
          (Tracker.run_seen_iff _ _)
      simp only [FlagRight, RightOrder, withDst, forall_const]
      rw [hflag, hoverlaps]
      exact Iff.comm.trans iff_iff_and_or_not_and_not

/-! ## The long multiplication of A32 -/

namespace MultiplyExcerpt

open AArch32

/-- The general registers that are written and read. -/
def destination (encodedin : Nat) : AArch32.DbNode :=
  .reg { symbol := .gpr32, write := true, upc := true, hasEncodedin := true, encodedin := encodedin }
def source (encodedin : Nat) : AArch32.DbNode :=
  .reg { symbol := .gpr32, read := true, upc := true, hasEncodedin := true, encodedin := encodedin }

/-- `UMULL` with its two destinations. Every other opcode is a miss. -/
def tables : AArch32.Db :=
  { Excerpt.tables with
    encodings := fun i =>
      if i = 858 then
        { opcode := 0x00800090, mask := 0x0ff000f0, iclass := 106, cclass := 568
          firstTemplate := 929, templateCount := 1, iflags := 4
          categories := [29, 2, 77, 0], page := true }
      else Excerpt.encodings i
    templates := fun i =>
      if i = 929 then { iform := 309, arguments := 1005, cond := .noNv } else Excerpt.templates i
    encodedins := fun
      | 1 => [⟨0x0000f000, 4⟩]
      | 3 => [⟨0x000f0000, 4⟩]
      | 7 => [⟨0x00000f00, 4⟩]
      | i => Excerpt.encodedins i
    arguments := fun i =>
      if i = 1005 then [destination 1, destination 3, source 11, source 7]
      else Excerpt.arguments i
    trees := fun isa =>
      match isa with
      | .a32 => .ifThen (.entry 0x0ff000f0 0x00800090 []) (.leaf 858) .empty
      | isa => Excerpt.tables.trees isa }

/-- An A32 context at one instruction. -/
def contextOf (opcode : Nat) : Context :=
  { (default : Context) with
    architecture := .aarch32
    machineMode := .mode32
    address := fun i => UInt8.ofNat (opcode / 256 ^ i)
    length := 4 }

def multiply (opcode : Nat) : Decoding :=
  .aarch32 tables (contextOf opcode) Excerpt.blank default

end MultiplyExcerpt

open MultiplyExcerpt in
/-- `UMULL R0, R1, R2, R3`. -/
theorem flagRight_iff_umull :
    (multiply 0xe0810392).FlagRight ↔ (multiply 0xe0810392).RightOrder :=
  flagRight_iff (multiply 0xe0810392) (by decide +kernel)

open MultiplyExcerpt in
/-- `UMULL R0, R1, R0, R2`: when `R0` is read, `R1` is remembered. -/
theorem not_flagRight_umull : ¬∀ d : Decoding, d.accepted = true → d.FlagRight := by
  intro h
  have hflag := h (multiply 0xe0810290) (by decide +kernel) AArch32.Register.none
  have hoverlaps : Overlaps ((multiply 0xe0810290).withDst AArch32.Register.none).arguments := by
    refine ⟨⟨1, false, true⟩, ?_, ⟨1, true, false⟩, ?_, rfl, rfl, rfl⟩
    all_goals decide +kernel
  exact absurd (hflag.mpr hoverlaps) (by decide +kernel)

end Decoding
end Amed.Arm

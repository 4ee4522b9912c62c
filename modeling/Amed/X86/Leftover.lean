import Amed.X86.Bytecodes

/-!
# Leftovers of earlier decodes

What a caller sees of an instruction, and how it depends on what `*pinsn` and the
internal state held before. Whether an instruction is accepted does not depend on it;
the recorded bytecodes always do, since the count of the record is never reset.
-/

namespace Amed.X86

open Bytes

/-- What `print_arg_reg`, `print_arg_mem` and the other argument printers read, by the
argument's type. A suppressed argument is skipped. -/
def printedArgument (a : Argument) : Option (ArgumentType × List Nat) :=
  if a.attributes.isSuppressed then none
  else
    some (a.type,
      match a.type with
      | .register =>
          [a.get Cell.regValue, a.attributes.zeroing.toNat, a.attributes.merging.toNat,
            a.printer.printIndex.toNat, if a.printer.printIndex then a.get Cell.regIndex else 0]
      | .memory | .address =>
          [a.printer.printSize.toNat, if a.printer.printSize then a.size else 0,
            a.printer.printSegment.toNat,
            if a.printer.printSegment then a.get Cell.memSegment else 0,
            a.get Cell.memBase, a.get Cell.memRegoff, a.printer.printShifter.toNat,
            if a.printer.printShifter then a.shifter.amount else 0,
            a.get Cell.memImmoffDatatype,
            if a.get Cell.memImmoffDatatype = 0 then 0 else a.get Cell.memImmoffValue,
            a.get Cell.memVdatatype,
            if a.get Cell.memVdatatype = 0 then 0 else a.datatype.code,
            a.printer.printBroadcasting.toNat,
            if a.printer.printBroadcasting then a.get Cell.memBroadcastingFrom else 0,
            if a.printer.printBroadcasting then a.get Cell.memBroadcastingTo else 0]
      | .immediate => [a.get Cell.imm, a.datatype.code]
      | .ptr => [a.get Cell.ptrSegment, a.get Cell.ptrOffsetValue]
      | .rounding | .sae | .evh => [a.get Cell.token]
      | .condition =>
          if a.attributes.isRepresentable then [1, a.get Cell.token]
          else [0, a.get Cell.imm, a.datatype.code]
      | _ => [])

/-- What a caller sees of a decoded instruction: what `amed_x86_print_insn` reads, the
selected template and the recorded bytecodes. -/
structure Outcome where
  mnemonic : Nat
  prefixFunctionality : PrefixFunctionality
  isAtomic : Bool
  isSuppressingAllExceptions : Bool
  arguments : List (Option (ArgumentType × List Nat))
  encoding : Nat
  ptemplate : Nat
  bytecodes : List Bytecode
  deriving DecidableEq, Repr

def Internal.outcome (s : Internal) : Outcome where
  mnemonic := s.insn.mnemonic
  prefixFunctionality := s.insn.x86.prefixFunctionality
  isAtomic := s.insn.attributes.isAtomic
  isSuppressingAllExceptions := s.insn.attributes.isSuppressingAllExceptions
  arguments := (List.range s.insn.argumentCount).map fun i => printedArgument (s.insn.arguments i)
  encoding := s.encoding
  ptemplate := s.ptemplate
  bytecodes := s.insn.x86.log.entries

/-- Whatever the two structures held before, a successful decode gives the same outcome. -/
def LeftoverIndependent (db : Db) (ctx : Context) : Prop :=
  ∀ (stale stale' : Internal) (insn insn' : Insn), (decodeRun db ctx stale insn).1 = true →
    (decodeRun db ctx stale' insn').1 = true ∧
      (decodeRun db ctx stale insn).2.outcome = (decodeRun db ctx stale' insn').2.outcome

/-- The input is accepted, which is a matter of its mode and bytes only. -/
def Accepts (ctx : Context) : Prop :=
  (defaultSizes ctx.machineMode).isSome = true ∧
    (openingWidths (contextBuffer ctx) (longModeOf ctx.machineMode ctx.features)).sum ≤
      (contextBuffer ctx).nb

instance (ctx : Context) : Decidable (Accepts ctx) := inferInstanceAs (Decidable (_ ∧ _))

theorem accepted_isSome_iff (db : Db) (ctx : Context) (stale : Internal) (insn : Insn) :
    (accepted db ctx stale insn).isSome = true ↔ Accepts ctx :=
  selected_isSome_iff db (contextBuffer ctx) ctx.machineMode ctx.features rfl

/-- Acceptance does not depend on leftovers. -/
theorem decodeRun_fst_iff (db : Db) (ctx : Context) (stale : Internal) (insn : Insn) :
    (decodeRun db ctx stale insn).1 = true ↔ Accepts ctx := by
  rw [← accepted_isSome_iff db ctx stale insn, ← decodeInsn_fst]
  rfl

/-- The bytecodes an accepted instruction offers to the record, of which there is at
least one. -/
theorem log_of_accepted {db : Db} {ctx : Context} {stale s : Internal} {insn : Insn}
    (h : accepted db ctx stale insn = some s) :
    ∃ fs, fs ≠ [] ∧ (decodeRun db ctx stale insn).2.insn.x86.log =
      fs.foldl BytecodeLog.add insn.x86.log := by
  have ho := accepted_opened h
  obtain ⟨fs, hc, hws, -⟩ := ho.splits
  have hne : fs ≠ [] := by
    rintro rfl
    have hpos := openingWidths_sum_pos (contextBuffer ctx) (longModeOf ctx.machineMode ctx.features)
    rw [← hws] at hpos
    exact absurd hpos (Nat.lt_irrefl 0)
  have hlog : s.insn.x86.log = fs.foldl BytecodeLog.add insn.x86.log := hc.log
  rw [decodeRun_of_accepted h]
  by_cases hm : ModrmMissing db (contextBuffer ctx) s
  · obtain ⟨gs, hc', -⟩ := (ho.layout db).missing hm
    refine ⟨fs ++ absentModrm :: gs, by simp, ?_⟩
    rw [List.foldl_append, List.foldl_cons, ← hlog]
    exact hc'.log
  · obtain ⟨gs, hc', -⟩ := (ho.layout db).present hm
    refine ⟨fs ++ gs, by simp [hne], ?_⟩
    rw [List.foldl_append, ← hlog]
    exact hc'.log

/-- A record with room for nothing. -/
def fullLog (bytecode : Bytecode) : BytecodeLog := ⟨fun _ => bytecode, maxBytecodeCount⟩

def emptyLog (bytecode : Bytecode) : BytecodeLog := ⟨fun _ => bytecode, 0⟩

/-- Every accepted input shows leftovers, so the outcome is independent of them exactly
when the input is rejected. -/
theorem leftoverIndependent_iff (db : Db) (ctx : Context) :
    LeftoverIndependent db ctx ↔ ¬Accepts ctx := by
  constructor
  · intro hindep hacc
    let blank : Bytecode := ⟨.none, []⟩
    -- from an empty record the first field is recorded
    let insn : Insn := { (default : Insn) with
      x86 := { (default : X86Specific) with log := emptyLog blank } }
    obtain ⟨s, hs⟩ := Option.isSome_iff_exists.mp ((accepted_isSome_iff db ctx default insn).mpr hacc)
    obtain ⟨fs, hne, hlog⟩ := log_of_accepted hs
    obtain ⟨f, fs, rfl⟩ := List.exists_cons_of_ne_nil hne
    obtain ⟨g, hg⟩ : ∃ g : Bytecode, g ≠ f :=
      ⟨⟨.none, 0 :: f.bytes⟩, fun he => by simpa using congrArg (fun b => b.bytes.length) he⟩
    -- a full record keeps an entry that differs from it
    let insn' : Insn := { (default : Insn) with
      x86 := { (default : X86Specific) with log := fullLog g } }
    obtain ⟨s', hs'⟩ :=
      Option.isSome_iff_exists.mp ((accepted_isSome_iff db ctx default insn').mpr hacc)
    obtain ⟨gs, -, hlog'⟩ := log_of_accepted hs'
    rw [BytecodeLog.foldl_add_of_full (Nat.le_refl _)] at hlog'
    obtain ⟨-, hout⟩ := hindep default default insn insn'
      ((decodeRun_fst_iff db ctx default insn).mpr hacc)
    have hentries : (decodeRun db ctx default insn).2.insn.x86.log.entries =
        (decodeRun db ctx default insn').2.insn.x86.log.entries := congrArg Outcome.bytecodes hout
    rw [hlog, hlog', BytecodeLog.entries_foldl_add (Nat.zero_le _)] at hentries
    have hhead : f = g := (List.cons.inj hentries).1
    exact hg hhead.symm
  · intro hrej stale stale' insn insn' hok
    exact absurd ((decodeRun_fst_iff db ctx stale insn).mp hok) hrej

open Excerpt in
/-- `HLT` decoded into a cleared structure and into one with a full record. -/
theorem not_leftoverIndependent_hlt :
    ¬∀ (db : Db) (ctx : Context), LeftoverIndependent db ctx := by
  intro h
  have hout := (h tables (contextOf .mode32 [0xf4] 1) default default default
    { (default : Insn) with x86 := { (default : X86Specific) with log := fullLog ⟨.none, []⟩ } }
    (by decide)).2
  exact absurd hout (by decide)

end Amed.X86

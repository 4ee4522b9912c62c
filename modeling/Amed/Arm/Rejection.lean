import Amed.AArch64.Templates
import Amed.AArch32.Outcome

/-!
# Rejected templates

A template that is rejected should leave no trace in the instruction. One whose conditions fail
leaves none. One that fails at an argument has already set attribute bits and written arguments, and
no bit is ever taken back.
-/

namespace Amed

open Search

/-- What the rejected templates must not change. -/
structure SameInsn (a b : Insn) : Prop where
  iform : a.iform = b.iform
  mnemonic : a.mnemonic = b.mnemonic
  attributes : a.attributes = b.attributes
  aarch32 : a.aarch32.condition = b.aarch32.condition
  aarch64 : a.aarch64.condition = b.aarch64.condition
  argumentCount : a.argumentCount = b.argumentCount
  arguments : ∀ i < a.argumentCount, a.arguments i = b.arguments i

theorem SameInsn.refl (a : Insn) : SameInsn a a :=
  ⟨rfl, rfl, rfl, rfl, rfl, rfl, fun _ _ => rfl⟩

/-- Every attribute bit of the first instruction is set in the second. -/
def BitsWithin (a b : Insn) : Prop := a.attributes.Keeps b.attributes

/-! ## AArch64 -/

namespace AArch64

variable {db : Db} {stale : Argument} {templates : List Nat} {s : Internal}

/-- A template whose conditions fail only becomes the current one. -/
theorem decodeTemplate_of_conditions {template : Nat} {s : Internal}
    (h : conditionsHold db s.opcode template = false) :
    (decodeTemplate db stale template s).2 = { s with ptemplate := template } := by
  rw [decodeTemplate_eq, h]
  rfl

/-- Templates whose conditions fail leave no trace. -/
theorem noTrace_of_conditions (found : Accepts (decodeTemplate db stale) templates s)
    (h : ∀ t ∈ found.rejected, conditionsHold db s.opcode t = false) :
    tryEach (decodeTemplate db stale) templates s = decodeTemplate db stale found.accepted s := by
  refine found.result_of_inert (R := fun s s' => s' = { s with ptemplate := s'.ptemplate }) rfl
    (fun t ht s' hs' => ?_) fun s' hs' => ?_
  · have hstep : (decodeTemplate db stale t s').2 = { s' with ptemplate := t } :=
      decodeTemplate_of_conditions (by rw [hs']; exact h t ht)
    rw [hstep, hs']
  · rw [hs']
    rfl

/-- Every bit that the rejected templates set stays. -/
theorem rejected_bits (found : Accepts (decodeTemplate db stale) templates s) :
    BitsWithin (tryEach (decodeTemplate db stale) found.rejected s).2.insn
      (tryEach (decodeTemplate db stale) templates s).2.insn := by
  rw [found.result]
  exact (decodeTemplate_holds db stale found.accepted _).keeps

end AArch64

/-! ## AArch32 -/

namespace AArch32

variable {db : Db} {templates : List Nat} {s : Internal}

/-- A template whose conditions fail only becomes the current one. -/
theorem decodeTemplate_of_conditions {template : Nat} {s : Internal}
    (h : conditionsHold db s.opcode (isInsnInItBlock s) template = false) :
    (decodeTemplate db template s).2 = { s with ptemplate := template } := by
  rw [decodeTemplate_eq, h]
  rfl

/-- Templates whose conditions fail leave no trace. -/
theorem noTrace_of_conditions (found : Accepts (decodeTemplate db) templates s)
    (h : ∀ t ∈ found.rejected, conditionsHold db s.opcode (isInsnInItBlock s) t = false) :
    tryEach (decodeTemplate db) templates s = decodeTemplate db found.accepted s := by
  refine found.result_of_inert (R := fun s s' => s' = { s with ptemplate := s'.ptemplate }) rfl
    (fun t ht s' hs' => ?_) fun s' hs' => ?_
  · have hstep : (decodeTemplate db t s').2 = { s' with ptemplate := t } :=
      decodeTemplate_of_conditions (by rw [hs']; exact h t ht)
    rw [hstep, hs']
  · rw [hs']
    rfl

theorem decodeTemplate_keeps (template : Nat) (s : Internal) :
    s.insn.attributes.Keeps (decodeTemplate db template s).2.insn.attributes := by
  have hentered := (enteredNodes_leaves db template s).keeps
  rw [decodeTemplate_eq]
  split
  · split
    · exact hentered.trans (leaveTemplate_keeps db _)
    · exact hentered
  · exact .refl _

/-- Every bit that the rejected templates set stays. -/
theorem rejected_bits (found : Accepts (decodeTemplate db) templates s) :
    BitsWithin (tryEach (decodeTemplate db) found.rejected s).2.insn
      (tryEach (decodeTemplate db) templates s).2.insn := by
  rw [found.result]
  exact decodeTemplate_keeps found.accepted _

end AArch32

/-! ## Both decoders -/

/-- A search through templates leaves no trace of the rejected ones: the instruction is the one that
the accepted template alone gives. -/
def NoTrace {σ : Type} (insn : σ → Insn) (attempt : Nat → σ → Bool × σ) {templates : List Nat}
    {s : σ} (found : Accepts attempt templates s) : Prop :=
  SameInsn (insn (tryEach attempt templates s).2) (insn (attempt found.accepted s).2)

/-- Rejected templates whose conditions fail leave no trace. Where none is left, every attribute bit
that is set once they are rejected is set by the accepted template alone. -/
theorem noTrace_both (db : AArch64.Db) (stale : Argument) (templates : List Nat)
    (s : AArch64.Internal) (found : Accepts (AArch64.decodeTemplate db stale) templates s)
    (db' : AArch32.Db) (templates' : List Nat) (s' : AArch32.Internal)
    (found' : Accepts (AArch32.decodeTemplate db') templates' s') :
    (((∀ t ∈ found.rejected, AArch64.conditionsHold db s.opcode t = false) →
          NoTrace AArch64.Internal.insn (AArch64.decodeTemplate db stale) found) ∧
        (NoTrace AArch64.Internal.insn (AArch64.decodeTemplate db stale) found →
          BitsWithin (tryEach (AArch64.decodeTemplate db stale) found.rejected s).2.insn
            (AArch64.decodeTemplate db stale found.accepted s).2.insn)) ∧
      ((∀ t ∈ found'.rejected,
            AArch32.conditionsHold db' s'.opcode (AArch32.isInsnInItBlock s') t = false) →
          NoTrace AArch32.Internal.insn (AArch32.decodeTemplate db') found') ∧
        (NoTrace AArch32.Internal.insn (AArch32.decodeTemplate db') found' →
          BitsWithin (tryEach (AArch32.decodeTemplate db') found'.rejected s').2.insn
            (AArch32.decodeTemplate db' found'.accepted s').2.insn) := by
  refine ⟨⟨fun h => ?_, fun h => ?_⟩, fun h => ?_, fun h => ?_⟩
  · rw [NoTrace, AArch64.noTrace_of_conditions found h]
    exact .refl _
  · have hbits := AArch64.rejected_bits found
    rw [BitsWithin, h.attributes] at hbits
    exact hbits
  · rw [NoTrace, AArch32.noTrace_of_conditions found' h]
    exact .refl _
  · have hbits := AArch32.rejected_bits found'
    rw [BitsWithin, h.attributes] at hbits
    exact hbits

/-- Two templates: a vector register with a pattern that its table does not have, and a register. -/
def vectorThenScalar : AArch64.Db where
  encodings := fun _ => { opcode := 0, mask := 0, firstTemplate := 0, templateCount := 2 }
  templates := fun i => { iform := i, arguments := i }
  bitdiffs := fun _ => ⟨0, 0⟩
  encodedins := fun _ => []
  arguments := fun i =>
    if i = 0 then
      [.vreg { reg := { symbol := .vecreg, hasEncodedin := true } },
        .enum .pattern { hasEncodedin := true, table := some .terminal }]
    else [.reg { symbol := .gpr32, hasEncodedin := true }]
  aliases := fun _ => []
  reginfo := fun _ => { symbol := .none, size := 32, isEven := true, isLast := false }
  iform2mnem := id
  iflags := fun _ => []
  aliascond := fun _ _ => false
  a64 := .leaf 0

open AArch64 in
/-- The scalar template is accepted, and the instruction keeps `is_vector` of the first one. -/
theorem not_noTrace_vector :
    ¬∀ (db : Db) (stale : Argument) (templates : List Nat) (s : Internal)
      (found : Accepts (decodeTemplate db stale) templates s),
        NoTrace Internal.insn (decodeTemplate db stale) found := by
  intro h
  have hsame := h vectorThenScalar default [0, 1] (startState default default)
    ⟨[0], 1, [], rfl, by decide, by decide⟩
  exact absurd (congrArg InsnAttributes.isVector hsame.attributes) (by decide)

end Amed

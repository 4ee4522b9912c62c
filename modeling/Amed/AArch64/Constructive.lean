import Amed.AArch64.StoredRegisters

/-!
# Constructive and destructive instructions

`is_constructive` is set at the end of a decoded template, where a register has been decoded and
`is_destructive` is not set. Both flags are collected over the base pass and the alias pass.

## Implementation notes

`has_reg` is set by every register that is decoded, also by the base of a memory operand. It is not
cleared between the passes, nor is `dst_reg`.
-/

namespace Amed.AArch64

open Arm LastWrite Search

/-! ## What a pass leaves -/

theorem append_isEmpty (as bs : List (Access Nat)) :
    (as ++ bs).isEmpty = (as.isEmpty && bs.isEmpty) := by
  cases as <;> rfl

/-- What the decoder knows about registers, and the flag that it makes of that. -/
structure Summary where
  tracker : Tracker Nat
  hasReg : Bool
  isConstructive : Bool

def Internal.summary (s : Internal) : Summary where
  tracker := ⟨s.dstReg, s.insn.attributes.isDestructive⟩
  hasReg := s.hasReg
  isConstructive := s.insn.attributes.isConstructive

/-- A pass over accesses; the flag is set at its end where it has one. -/
def Summary.pass (m : Summary) (as : List (Access Nat)) (ok : Bool) : Summary :=
  let tracker := m.tracker.run as
  let hasReg := m.hasReg || !as.isEmpty
  { tracker := tracker
    hasReg := hasReg
    isConstructive := m.isConstructive || ok && (hasReg && !tracker.seen) }

/-- A pass that is given up goes on in the next one. -/
theorem Summary.pass_append (m : Summary) (as bs : List (Access Nat)) (ok : Bool) :
    (m.pass as false).pass bs ok = m.pass (as ++ bs) ok := by
  simp only [pass, Tracker.run_append, append_isEmpty, Bool.false_and, Bool.or_false, Bool.not_and,
    Bool.or_assoc]

/-- A second pass does not take the flag back. -/
theorem Summary.pass_pass (m : Summary) (as bs : List (Access Nat)) (ok ok' : Bool) :
    ((m.pass as ok).pass bs ok').isConstructive =
      ((m.pass as ok).isConstructive || (m.pass (as ++ bs) ok').isConstructive) := by
  have hseen : (((m.pass as ok).tracker).run bs).seen = (m.tracker.run (as ++ bs)).seen := by
    rw [Tracker.run_append]
    rfl
  simp only [pass, append_isEmpty, Bool.not_and, Bool.or_assoc] at hseen ⊢
  rw [hseen]
  cases m.isConstructive <;> simp

theorem Internal.track_summary (s : Internal) :
    s.track s.summary.tracker s.summary.isConstructive = s := rfl

/-! ## Operands -/

variable (db : Db) (o : Operand)

/-- The accesses, and nothing else, set `has_reg`. -/
def Counts (o : Operand) (r : Bool × Operand) (as : List (Access Nat)) : Prop :=
  r.2.internal.hasReg = (o.internal.hasReg || !as.isEmpty)

variable {o} in
theorem Counts.andThen {r : Bool × Operand} {next : Operand → Bool × Operand}
    {as : List (Access Nat)} (h : Counts o r as)
    (hnext : ∀ o : Operand, (next o).2.internal.hasReg = o.internal.hasReg) :
    Counts o (Operand.andThen r next) as := by
  unfold Operand.andThen
  split
  · exact (hnext r.2).trans h
  · exact h

theorem counts_of_eq {r : Bool × Operand} (h : r.2.internal.hasReg = o.internal.hasReg) :
    Counts o r [] := h.trans (Bool.or_false _).symm

theorem decodeArgReg_counts (opcode : BitVec 32) (node : DbAny) :
    Counts o (decodeArgReg db o node) (regAccesses db opcode node) := by
  change true = (o.internal.hasReg || true)
  rw [Bool.or_true]

theorem decodeArgShifter_hasReg (node : DbShifter) :
    (decodeArgShifter db o node).2.internal.hasReg = o.internal.hasReg := by
  rw [decodeArgShifter_internal]

theorem decodeArgVreg_counts (opcode : BitVec 32) (node : DbEreg) :
    Counts o (decodeArgVreg db o node) (regAccesses db opcode node.reg) :=
  (decodeArgReg_counts db o opcode node.reg).andThen fun _ => rfl

theorem decodeArgEreg_counts (opcode : BitVec 32) (node : DbEreg) :
    Counts o (decodeArgEreg db o node) (regAccesses db opcode node.reg) := by
  refine (decodeArgReg_counts db o opcode node.reg).andThen fun o => ?_
  dsimp only
  split <;> rfl

theorem decodeArgImm_hasReg (node : DbAny) :
    (decodeArgImm db o node).2.internal.hasReg = o.internal.hasReg := by
  unfold decodeArgImm
  dsimp only
  split
  · unfold decodeEncodedImm
    dsimp only
    cases node.symbol
    case aimm =>
      dsimp only
      split <;> rfl
    all_goals rfl
  · rfl
  · rfl

theorem decodeAnynymousImmreg_counts (opcode : BitVec 32) (node : DbImmReg) :
    Counts o (decodeAnynymousImmreg db o node) (immRegAccesses db opcode node) := by
  cases node with
  | base node =>
      cases node with
      | base node => exact decodeArgReg_counts db o opcode node
      | vbase node => exact decodeArgVreg_counts db o opcode node
      | ebase node => exact decodeArgEreg_counts db o opcode node
  | offset node =>
      cases node with
      | regoff node => exact decodeArgReg_counts db o opcode node
      | vregoff node => exact decodeArgVreg_counts db o opcode node
      | regoffsh node =>
          exact (decodeArgReg_counts db o opcode node.op).andThen
            fun o => decodeArgShifter_hasReg db o node.shifter
      | vregoffsh node =>
          exact (decodeArgVreg_counts db o opcode node.op).andThen
            fun o => decodeArgShifter_hasReg db o node.shifter
      | immoff node => exact counts_of_eq o (decodeArgImm_hasReg db o node)
      | immoffsh node =>
          exact (counts_of_eq o (decodeArgImm_hasReg db o node.op)).andThen
            fun o => decodeArgShifter_hasReg db o node.shifter

theorem decodeArgMem_counts (stale : Argument) (node : DbMem) :
    Counts o (decodeArgMem db stale o node) (memAccesses db o.internal.opcode node) := by
  let start : Operand := ⟨o.internal, localArgument stale⟩
  have hbase := decodeAnynymousImmreg_counts db start o.internal.opcode (.base node.base)
  have hfst := decodeAnynymousImmreg_fst db (o := start) rfl (.base node.base)
  unfold decodeArgMem memAccesses
  dsimp only
  change (decodeAnynymousImmreg db start (.base node.base)).1 =
    decodesImmReg db o.internal.opcode (.base node.base) at hfst
  rw [← hfst]
  change (decodeAnynymousImmreg db start (.base node.base)).2.internal.hasReg = _ at hbase
  change Counts o (if !(decodeAnynymousImmreg db start (.base node.base)).1 then _ else _) _
  generalize decodeAnynymousImmreg db start (.base node.base) = base at hbase
  cases hok : base.1 with
  | false =>
      rw [Bool.not_false, if_pos rfl, if_neg Bool.false_ne_true, List.append_nil]
      exact hbase
  | true =>
      rw [Bool.not_true, if_neg Bool.false_ne_true, if_pos rfl]
      cases node.regoff with
      | none =>
          dsimp only
          rw [Option.map_none, Option.getD_none, List.append_nil]
          exact hbase
      | some regoff =>
          have hoffset := decodeAnynymousImmreg_counts db base.2 o.internal.opcode (.offset regoff)
          have hboth : (decodeAnynymousImmreg db base.2 (.offset regoff)).2.internal.hasReg =
              (o.internal.hasReg || !(immRegAccesses db o.internal.opcode (.base node.base) ++
                immRegAccesses db o.internal.opcode (.offset regoff)).isEmpty) := by
            rw [append_isEmpty, Bool.not_and, ← Bool.or_assoc]
            exact hoffset.trans (congrArg (· || _) hbase)
          dsimp only
          rw [Option.map_some, Option.getD_some]
          split <;> exact hboth

theorem decodeArgVlist_counts (opcode : BitVec 32) (node : DbList) :
    Counts o (decodeArgVlist db o node) (immRegAccesses db opcode (.base node.base)) := by
  refine (decodeAnynymousImmreg_counts db o opcode (.base node.base)).andThen fun o => ?_
  dsimp only
  split <;> rfl

theorem decodeArgEnum_hasReg (type : EnumType) (node : DbAny) :
    (decodeArgEnum db o type node).2.internal.hasReg = o.internal.hasReg := by
  rw [decodeArgEnum_internal]

theorem decodeNode_counts (stale : Argument) (node : DbNode) :
    Counts o (decodeNode db stale o node) (nodeAccesses db o.internal.opcode node) := by
  let cleared : Operand := { o with argument := clearArgument o.argument }
  cases node with
  | enum type node => exact counts_of_eq o (decodeArgEnum_hasReg db cleared type node)
  | reg node => exact decodeArgReg_counts db cleared o.internal.opcode node
  | regsh node =>
      exact (decodeArgReg_counts db cleared o.internal.opcode node.op).andThen
        fun o => decodeArgShifter_hasReg db o node.shifter
  | vreg node => exact decodeArgVreg_counts db cleared o.internal.opcode node
  | ereg node => exact decodeArgEreg_counts db cleared o.internal.opcode node
  | preg node =>
      exact (decodeArgReg_counts db cleared o.internal.opcode node).andThen fun _ => rfl
  | vlist node => exact decodeArgVlist_counts db cleared o.internal.opcode node
  | elist node =>
      exact (decodeArgVlist_counts db cleared o.internal.opcode node).andThen fun _ => rfl
  | patternsh node =>
      exact (counts_of_eq cleared (decodeArgEnum_hasReg db cleared .pattern node.op)).andThen
        fun o => decodeArgShifter_hasReg db o node.shifter
  | fpimm node | imm node => exact counts_of_eq o (decodeArgImm_hasReg db cleared node)
  | immsh node =>
      exact (counts_of_eq cleared (decodeArgImm_hasReg db cleared node.op)).andThen
        fun o => decodeArgShifter_hasReg db o node.shifter
  | label node =>
      exact (counts_of_eq cleared (decodeArgImm_hasReg db cleared node)).andThen fun _ => rfl
  | mem node => exact decodeArgMem_counts db cleared stale node
  | invcond _ | sysreg _ | other => exact counts_of_eq o rfl

/-! ## Nodes, templates and encodings -/

theorem decodeNodesFrom_hasReg (stale : Argument) (nodes : List DbNode) (i : Nat) (s : Internal) :
    (decodeNodesFrom db stale nodes i s).2.hasReg =
      (s.hasReg || !(nodesAccesses db s.opcode nodes).isEmpty) := by
  induction nodes generalizing i s with
  | nil => exact (Bool.or_false _).symm
  | cons node nodes ih =>
      have hnode : (afterNode db stale s i node).hasReg =
          (s.hasReg || !(nodeAccesses db s.opcode node).isEmpty) :=
        decodeNode_counts db ⟨s, s.insn.arguments i⟩ stale node
      rw [decodeNodesFrom_cons, nodesAccesses, accessesUpTo]
      cases decodes db s.opcode node with
      | true =>
          rw [if_pos rfl, ih, (afterNode_fills db stale s i node).opcode, hnode, Bool.not_true,
            if_neg Bool.false_ne_true, append_isEmpty, Bool.not_and, Bool.or_assoc]
          rfl
      | false =>
          rw [if_neg Bool.false_ne_true, Bool.not_false, if_pos rfl, List.append_nil]
          exact hnode

theorem enteredNodes_summary (stale : Argument) (template : Nat) (s : Internal) :
    (enteredNodes db stale template s).2.summary = s.summary.pass
      (nodesAccesses db s.opcode (db.arguments (db.templates template).arguments)) false := by
  have hopcode := (enterTemplate_fixed db template s).1
  have htrack := enteredNodes_track db stale template s s.summary.tracker s.summary.isConstructive
  rw [Internal.track_summary] at htrack
  have hsnd := congrArg Prod.snd htrack
  have hcount : (enteredNodes db stale template s).2.hasReg = (s.hasReg ||
      !(nodesAccesses db s.opcode (db.arguments (db.templates template).arguments)).isEmpty) := by
    have hhead : (enterTemplate db template s).hasReg = s.hasReg := by
      unfold enterTemplate beginTemplate decodeCondition
      dsimp only
      split <;> rfl
    rw [enteredNodes, decodeNodesFrom_hasReg, hopcode, hhead]
  have htracker : (enteredNodes db stale template s).2.summary.tracker =
      s.summary.tracker.run
        (nodesAccesses db s.opcode (db.arguments (db.templates template).arguments)) := by
    rw [hsnd]
    rfl
  have hflag : (enteredNodes db stale template s).2.summary.isConstructive =
      s.summary.isConstructive := by
    rw [hsnd]
    rfl
  have hparts (m : Summary) : m = ⟨m.tracker, m.hasReg, m.isConstructive⟩ := rfl
  rw [hparts (enteredNodes db stale template s).2.summary, htracker, hflag, Summary.pass,
    Bool.false_and, Bool.or_false]
  exact congrArg (Summary.mk _ · _) hcount

theorem decodeTemplate_summary (stale : Argument) (template : Nat) (s : Internal) :
    (decodeTemplate db stale template s).2.summary =
      s.summary.pass (templateAccesses db s.opcode template)
        (templateDecodes db s.opcode template) := by
  have hnodes := enteredNodes_summary db stale template s
  have hempty : s.summary.pass [] false = s.summary := by
    simp [Summary.pass]
  rw [decodeTemplate_eq, templateAccesses]
  cases hcondition : conditionsHold db s.opcode template with
  | false =>
      rw [if_neg Bool.false_ne_true, if_neg Bool.false_ne_true, templateDecodes, hcondition,
        Bool.false_and, hempty]
      rfl
  | true =>
      rw [if_pos rfl, if_pos rfl]
      cases templateDecodes db s.opcode template with
      | false =>
          rw [if_neg Bool.false_ne_true]
          exact hnodes
      | true =>
          rw [if_pos rfl]
          generalize (enteredNodes db stale template s).2 = s' at hnodes
          have hfinish : (finishTemplate db s').summary =
              { s'.summary with isConstructive := s'.summary.isConstructive ||
                (s'.summary.hasReg && !s'.summary.tracker.seen) } := rfl
          rw [hfinish, hnodes]
          simp [Summary.pass]

theorem tryTemplates_summary (stale : Argument) (templates : List Nat) (s : Internal) :
    (tryEach (decodeTemplate db stale) templates s).2.summary =
      s.summary.pass
        (accessesUpTo (templateAccesses db s.opcode) (templateDecodes db s.opcode) templates)
        (templates.any (templateDecodes db s.opcode)) := by
  induction templates generalizing s with
  | nil => simp [tryEach, accessesUpTo, Summary.pass]
  | cons t ts ih =>
      have htemplate := decodeTemplate_summary db stale t s
      have hopcode := (decodeTemplate_holds db stale t s).opcode
      rw [tryEach, decodeTemplate_fst, accessesUpTo, List.any_cons]
      cases hdecodes : templateDecodes db s.opcode t with
      | true =>
          rw [hdecodes] at htemplate
          rw [if_pos rfl, if_pos rfl, List.append_nil, Bool.true_or]
          exact htemplate
      | false =>
          rw [hdecodes] at htemplate
          rw [if_neg Bool.false_ne_true, if_neg Bool.false_ne_true, Bool.false_or, ih, hopcode,
            htemplate, Summary.pass_append]

theorem tryEncoding_summary (stale : Argument) (encoding : Nat) {s : Internal}
    (h : s.opcode &&& (db.encodings encoding).mask = (db.encodings encoding).opcode) :
    (tryEncoding db stale encoding s).summary =
      s.summary.pass (encodingAccesses db s.opcode encoding)
        (encodingDecodes db s.opcode encoding) := by
  rw [encodingAccesses, if_pos h]
  exact tryTemplates_summary db stale _ (enterEncoding db encoding s)

/-! ## Instructions -/

section Steps

variable (ctx : Context) (stale : Argument) (insn : Insn)

/-- What the base decode accesses. -/
def baseAccesses : List (Access Nat) := encodingAccesses db (fetchOpcode ctx) (lookedUp db ctx)

/-- What the decoder starts with. -/
def Summary.start : Summary := ⟨⟨Register.none, false⟩, false, false⟩

theorem baseState_summary (h : MatchesLookup db ctx) :
    (baseState db ctx stale insn).summary = Summary.start.pass (baseAccesses db ctx)
      (encodingDecodes db (fetchOpcode ctx) (lookedUp db ctx)) := by
  rw [baseState, decodeBase_of_match db ctx stale insn h]
  exact tryEncoding_summary db stale (lookedUp db ctx) (s := startState ctx insn) h

/-- The alias step accesses what the chosen alias does. -/
theorem insnAccesses_eq (h : MatchesLookup db ctx) :
    insnAccesses db ctx stale insn = baseAccesses db ctx ++
      ((chosenAlias db ctx stale insn).map
        (encodingAccesses db (fetchOpcode ctx))).getD [] := by
  have hopcode := (baseState_holds db ctx stale insn h).1
  rw [insnAccesses, aliasAccesses, chosenAlias, hopcode]
  refine congrArg (baseAccesses db ctx ++ ·) ?_
  split
  · change _ = ((selectAlias db (fetchOpcode ctx) (db.lookupA64 (fetchOpcode ctx))).map _).getD []
    cases selectAlias db (fetchOpcode ctx) (db.lookupA64 (fetchOpcode ctx)) <;> rfl
  · rfl

/-- The chosen alias matches the opcode. -/
theorem chosenAlias_matches {palias : Nat} (h : chosenAlias db ctx stale insn = some palias) :
    fetchOpcode ctx &&& (db.encodings palias).mask = (db.encodings palias).opcode := by
  unfold chosenAlias at h
  split at h
  · exact selectAlias_matches db h
  · cases h

/-- The flag of an accepted instruction: one pass over the base encoding, and one over all. -/
theorem decodeInsn_isConstructive (hok : (decodeInsn db ctx stale insn).1 = true) :
    (decodeInsn db ctx stale insn).2.attributes.isConstructive =
      ((Summary.start.pass (baseAccesses db ctx)
          (encodingDecodes db (fetchOpcode ctx) (lookedUp db ctx))).isConstructive ||
        (Summary.start.pass (insnAccesses db ctx stale insn)
          (aliasDecodes db stale ctx insn)).isConstructive) := by
  rw [decodeInsn_fst, decide_eq_true_eq] at hok
  obtain ⟨hlength, hmatch⟩ := hok
  have hbase := baseState_summary db ctx stale insn hmatch
  have hopcode := (baseState_holds db ctx stale insn hmatch).1
  rw [decodeInsn_of_match db ctx stale insn hlength hmatch,
    insnAccesses_eq db ctx stale insn hmatch, aliasDecodes]
  cases hchosen : chosenAlias db ctx stale insn with
  | none =>
      rw [aliasStep_of_none db ctx stale insn hmatch hchosen]
      refine (congrArg Summary.isConstructive hbase).trans ?_
      rw [Option.any_none]
      exact (Bool.or_false _).symm
  | some palias =>
      have hmatches : (baseState db ctx stale insn).opcode &&& (db.encodings palias).mask =
          (db.encodings palias).opcode := by
        rw [hopcode]
        exact chosenAlias_matches db ctx stale insn hchosen
      have halias := tryEncoding_summary db stale palias hmatches
      rw [hbase, hopcode] at halias
      rw [aliasStep_of_some db ctx stale insn hmatch hchosen, Option.any_some, Option.map_some,
        Option.getD_some]
      refine (congrArg Summary.isConstructive halias).trans ?_
      rw [Summary.pass_pass]

/-! ## The flags that the arguments call for -/

/-- The register arguments of an accepted instruction. -/
def registersOf (insn : Insn) : List (Access Nat) :=
  registerArguments insn.argumentCount insn.arguments

/-- One of the flags is set: `is_destructive` where a register argument is written that is read
too, `is_constructive` otherwise. -/
def FlagsComplementary : Prop :=
  (decodeInsn db ctx stale insn).1 = true →
    registersOf (decodeInsn db ctx stale insn).2 ≠ [] →
      let attributes := (decodeInsn db ctx stale insn).2.attributes
      let overlaps := Overlaps (registersOf (decodeInsn db ctx stale insn).2)
      (attributes.isDestructive = true ↔ overlaps) ∧ (attributes.isConstructive = true ↔ ¬overlaps)

/-- A register is read that is written last, or the register that is remembered at first. -/
def ReadsRemembered (as : List (Access Nat)) : Prop :=
  ReadsBack as ∨ ReadsEarly as Register.none

/-- A template is decoded behind accesses that do not read what is remembered. -/
def Constructs (as : List (Access Nat)) (ok : Bool) : Prop :=
  ok = true ∧ as ≠ [] ∧ ¬ReadsRemembered as

/-- All the accesses, those of the base pass included, call for the flag that the arguments call
for, and the base pass does not call for another one. -/
def PassesAgree : Prop :=
  let overlaps := Overlaps (leftSlots db ctx stale insn).registers
  let all := insnAccesses db ctx stale insn
  let base := Constructs (baseAccesses db ctx)
    (encodingDecodes db (fetchOpcode ctx) (lookedUp db ctx))
  overlaps ∧ ReadsRemembered all ∧ ¬base ∨
    ¬overlaps ∧ ¬ReadsRemembered all ∧ (base ∨ Constructs all (aliasDecodes db stale ctx insn))

theorem pass_isConstructive (as : List (Access Nat)) (ok : Bool) :
    (Summary.start.pass as ok).isConstructive = true ↔ Constructs as ok := by
  have hseen : (Tracker.run ⟨Register.none, false⟩ as).seen = true ↔ ReadsRemembered as :=
    Tracker.run_seen_iff Register.none as
  have hempty : as.isEmpty = true ↔ as = [] := List.isEmpty_iff
  rw [Constructs, ← hseen, Ne, ← hempty]
  simp [Summary.pass, Summary.start]

/-- Two flags and what is called for, where the one for `A` needs that `R` is not so. -/
theorem flags_iff {O R A B : Prop} (hA : A → ¬R) :
    ((R ↔ O) ∧ (B ∨ A ↔ ¬O)) ↔ (O ∧ R ∧ ¬B ∨ ¬O ∧ ¬R ∧ (B ∨ A)) := by
  by_cases hO : O
  · simp only [hO, iff_true, not_true, iff_false, not_or, true_and, false_and, or_false]
    exact ⟨fun h => ⟨h.1, h.2.1⟩, fun h => ⟨h.1, h.2, fun ha => hA ha h.1⟩⟩
  · simp only [hO, iff_false, not_false_iff, iff_true, false_and, true_and, false_or]

/-- Where one flag is set, and the right one. -/
theorem flagsComplementary_iff :
    FlagsComplementary db ctx stale insn ↔
      ctx.length = 0 ∨ ¬MatchesLookup db ctx ∨ (leftSlots db ctx stale insn).registers = [] ∨
        PassesAgree db ctx stale insn := by
  by_cases hok : (decodeInsn db ctx stale insn).1 = true
  swap
  · have hfst := hok
    rw [decodeInsn_fst, decide_eq_true_eq, not_and_or, not_not] at hfst
    exact iff_of_true (fun h => absurd h hok) (hfst.imp_right Or.inl)
  have hfst := hok
  rw [decodeInsn_fst, decide_eq_true_eq] at hfst
  obtain ⟨hlength, hmatch⟩ := hfst
  have hconstructive := decodeInsn_isConstructive db ctx stale insn hok
  have hdestructive := decodeInsn_isDestructive db ctx stale insn hok
  have hregisters : (leftSlots db ctx stale insn).registers =
      (registersOf (decodeInsn db ctx stale insn).2).map effective := by
    rw [← decodeInsn_slots db ctx stale insn hok]
    exact registers_slotsOf _
  have hoverlaps : Overlaps (leftSlots db ctx stale insn).registers ↔
      Overlaps (registersOf (decodeInsn db ctx stale insn).2) := by
    rw [hregisters]
    exact overlaps_effective _
  have hnil : (leftSlots db ctx stale insn).registers = [] ↔
      registersOf (decodeInsn db ctx stale insn).2 = [] := by
    rw [hregisters]
    exact List.map_eq_nil_iff
  have hseen : (decodeInsn db ctx stale insn).2.attributes.isDestructive = true ↔
      ReadsRemembered (insnAccesses db ctx stale insn) :=
    (Bool.eq_iff_iff.mp hdestructive).trans (Tracker.run_seen_iff _ _)
  have hset : (decodeInsn db ctx stale insn).2.attributes.isConstructive = true ↔
      Constructs (baseAccesses db ctx) (encodingDecodes db (fetchOpcode ctx) (lookedUp db ctx)) ∨
        Constructs (insnAccesses db ctx stale insn) (aliasDecodes db stale ctx insn) := by
    rw [hconstructive, Bool.or_eq_true, pass_isConstructive, pass_isConstructive]
  have hunread : Constructs (insnAccesses db ctx stale insn) (aliasDecodes db stale ctx insn) →
      ¬ReadsRemembered (insnAccesses db ctx stale insn) := fun h => h.2.2
  have hagree : PassesAgree db ctx stale insn ↔ _ := (flags_iff hunread).symm
  unfold FlagsComplementary
  dsimp only
  rw [hagree, hnil, hoverlaps, hseen, hset]
  simp only [hok, hlength, hmatch, true_implies, not_true_eq_false, false_or, Ne]
  exact Decidable.imp_iff_not_or.trans (or_congr_left not_not)

end Steps

/-! ## The store of an atomic addition -/

namespace AtomicExcerpt

/-- `LDADD` and its alias `STADD`, which does not name the register that is loaded. Every other
opcode is a miss. -/
def tables : Db :=
  { Excerpt.tables with
    encodings := fun
      | 150 => { opcode := 0xb8200000, mask := 0xffe0fc00, iclass := 29, cclass := 78
                 firstTemplate := 152, templateCount := 1, aliascond := 59, hasAlias := true
                 categories := [29, 3, 2, 0], exceptions := [3, 10, 0, 0], page := true }
      | 677 => { opcode := 0xb820001f, mask := 0xffe0fc1f, iclass := 29, cclass := 358
                 firstTemplate := 699, templateCount := 1, aliascond := 1
                 categories := [29, 3, 2, 0], exceptions := [3, 10, 0, 0], page := true }
      | i => Excerpt.encodings i
    templates := fun
      | 152 => { iform := 106, arguments := 306, extensions := [2, 0, 0, 0] }
      | 699 => { iform := 428, arguments := 1367, extensions := [2, 0, 0, 0] }
      | i => Excerpt.templates i
    encodedins := fun
      | 5 => [⟨0x001f0000, 5⟩]
      | i => Excerpt.encodedins i
    arguments := fun
      | 306 => [added, loaded, word]
      | 1367 => [added, word]
      | i => Excerpt.arguments i
    aliases := fun i => if i = 59 then [677] else []
    a64 := .ifThen (.entry 0xffe0fc00 0xb8200000 []) (.leaf 150) .empty }
where
  added : DbNode := .reg { symbol := .gpr32, read := true, hasEncodedin := true, encodedin := 5 }
  loaded : DbNode := .reg { symbol := .gpr32, write := true, hasEncodedin := true, encodedin := 1 }
  word : DbNode := .mem
    { datatype := .i32, read := true, write := true, postIndexed := false, preIndexed := false
      base := .base { symbol := .gpr64, read := true, sp := true, hasEncodedin := true
                      encodedin := 3 }
      regoff := none
      size := some { size := 32, esize := 0 } }

end AtomicExcerpt

open AtomicExcerpt Excerpt in
/-- `STADD WZR, [X0]`: the base pass sets `is_constructive`, and remembers `WZR`. -/
theorem not_flagsComplementary_stadd :
    ¬∀ (db : Db) (ctx : Context) (stale : Argument) (insn : Insn),
      FlagsComplementary db ctx stale insn := by
  intro h
  obtain ⟨hdestructive, hconstructive⟩ :=
    h AtomicExcerpt.tables (contextOf 0x1f 0x00 0x3f 0xb8 4 true) default default
      (by decide +kernel) (by decide +kernel)
  -- both are set
  exact hconstructive.mp (by decide +kernel) (hdestructive.mp (by decide +kernel))

end Amed.AArch64

import Amed.AArch32.Effects

/-!
# Templates and encodings

A template is decoded exactly when its conditions hold and each of its nodes can be decoded, in
whatever state it is tried. So an encoding is decoded by the first of its templates that can be,
and a template that is rejected leaves the context and the instruction's tags alone.
-/

namespace Amed.AArch32

open Search

variable (db : Db)

/-! ## The nodes of a template -/

/-- The state without what decoding the nodes of a template writes. -/
def Internal.outline (s : Internal) : Internal :=
  { s.frame with insn := { s.frame.insn with
    argumentCount := 0
    arguments := fun _ => default
    overrun := false } }

/-- Arguments, attribute bits and the decoder's own registers have changed, and no bit is lost. -/
structure Fills (s s' : Internal) : Prop where
  outline : s'.outline = s.outline
  keeps : s.insn.attributes.Keeps s'.insn.attributes

theorem Fills.trans {s s' s'' : Internal} (h : Fills s s') (h' : Fills s' s'') : Fills s s'' :=
  ⟨h'.outline.trans h.outline, h.keeps.trans h'.keeps⟩

theorem Fills.opcode {s s' : Internal} (h : Fills s s') : s'.opcode = s.opcode := by
  have hopcode : s'.outline.opcode = s.outline.opcode := by rw [h.outline]
  exact hopcode

/-- Store the argument that was decoded. -/
def Operand.store (o : Operand) (i : Nat) : Internal :=
  { o.internal with insn := o.internal.insn.setArgument i o.argument }

theorem Touches.fills {s : Internal} {o : Operand} (h : Touches s o.internal) (i : Nat) :
    Fills s (o.store i) := by
  refine ⟨?_, h.keeps⟩
  have hframe : (o.store i).outline = { o.internal.frame with insn := { o.internal.frame.insn with
      argumentCount := 0
      arguments := fun _ => default
      overrun := false } } := rfl
  rw [hframe, h.frame]
  rfl

/-- The state behind the first of several nodes. -/
def afterNode (s : Internal) (i : Nat) (node : DbNode) : Internal :=
  (decodeNode db ⟨s, s.insn.arguments i⟩ node).2.store i

theorem decodeNodesFrom_cons (node : DbNode) (nodes : List DbNode) (i : Nat) (s : Internal) :
    decodeNodesFrom db (node :: nodes) i s =
      if decodes db s.opcode node then decodeNodesFrom db nodes (i + 1) (afterNode db s i node)
      else (false, afterNode db s i node) := by
  rw [← decodeNode_fst db (o := ⟨s, s.insn.arguments i⟩) rfl node]
  rfl

theorem afterNode_fills (s : Internal) (i : Nat) (node : DbNode) :
    Fills s (afterNode db s i node) :=
  Touches.fills (decodeNode_touched db ⟨s, s.insn.arguments i⟩ node) i

theorem decodeNodesFrom_fills (nodes : List DbNode) (i : Nat) (s : Internal) :
    Fills s (decodeNodesFrom db nodes i s).2 := by
  induction nodes generalizing i s with
  | nil => exact ⟨rfl, .refl _⟩
  | cons node nodes ih =>
      have hnode := afterNode_fills db s i node
      rw [decodeNodesFrom_cons]
      split
      · exact hnode.trans (ih (i + 1) _)
      · exact hnode

theorem decodeNodesFrom_fst (nodes : List DbNode) (i : Nat) (s : Internal) :
    (decodeNodesFrom db nodes i s).1 = nodes.all (decodes db s.opcode) := by
  induction nodes generalizing i s with
  | nil => rfl
  | cons node nodes ih =>
      rw [decodeNodesFrom_cons, List.all_cons]
      split
      · rename_i hok
        rw [ih, (afterNode_fills db s i node).opcode, hok, Bool.true_and]
      · rename_i hfail
        rw [Bool.not_eq_true] at hfail
        rw [hfail, Bool.false_and]

theorem afterNode_arguments (s : Internal) (i : Nat) (node : DbNode) {j : Nat} (hj : j ≠ i) :
    (afterNode db s i node).insn.arguments j = s.insn.arguments j := by
  have htouched := decodeNode_touched db ⟨s, s.insn.arguments i⟩ node
  exact (Insn.setArgument_other _ _ hj).trans (congrFun (Touches.arguments htouched) j)

/-- The slots below the first one stay as they are. -/
theorem decodeNodesFrom_below (nodes : List DbNode) (i : Nat) (s : Internal) {j : Nat}
    (hj : j < i) :
    (decodeNodesFrom db nodes i s).2.insn.arguments j = s.insn.arguments j := by
  induction nodes generalizing i s with
  | nil => exact Insn.setArgument_other s.insn _ (Nat.ne_of_lt hj)
  | cons node nodes ih =>
      have hnode := afterNode_arguments db s i node (Nat.ne_of_lt hj)
      rw [decodeNodesFrom_cons]
      split
      · rw [ih (i + 1) _ (by omega), hnode]
      · exact hnode

/-! ## One template -/

/-- A template can be decoded. -/
def templateDecodes (opcode : BitVec 32) (inItBlock : Bool) (template : Nat) : Bool :=
  conditionsHold db opcode inItBlock template &&
    (db.arguments (db.templates template).arguments).all (decodes db opcode)

/-- The state a template is decoded in once its conditions hold. -/
def enterTemplate (template : Nat) (s : Internal) : Internal :=
  beginTemplate db { s with ptemplate := template }

/-- The nodes of a template, decoded behind its head. -/
def enteredNodes (template : Nat) (s : Internal) : Bool × Internal :=
  decodeNodesFrom db (db.arguments (db.templates template).arguments) 0
    (enterTemplate db template s)

/-- The rest of a template, behind its nodes. -/
def leaveTemplate (s : Internal) : Internal := finishTemplate db (decodeExecution db s)

theorem decodeTemplate_eq (template : Nat) (s : Internal) :
    decodeTemplate db template s =
      if conditionsHold db s.opcode (isInsnInItBlock s) template then
        if templateDecodes db s.opcode (isInsnInItBlock s) template then
          (true, leaveTemplate db (enteredNodes db template s).2)
        else (false, (enteredNodes db template s).2)
      else (false, { s with ptemplate := template }) := by
  have hnodes : decodeNodes db (enterTemplate db template s) = enteredNodes db template s := rfl
  have hfst : (enteredNodes db template s).1 =
      (db.arguments (db.templates template).arguments).all (decodes db s.opcode) :=
    decodeNodesFrom_fst db _ 0 _
  have hin : isInsnInItBlock { s with ptemplate := template } = isInsnInItBlock s := rfl
  unfold decodeTemplate
  dsimp only
  rw [hin, ← enterTemplate, hnodes]
  split
  · rename_i hcond
    rw [templateDecodes, hcond, Bool.true_and, ← hfst]
    split
    · rfl
    · rename_i hfail
      rw [Bool.not_eq_true] at hfail
      exact Prod.ext hfail rfl
  · rfl

theorem decodeTemplate_fst (template : Nat) (s : Internal) :
    (decodeTemplate db template s).1 =
      templateDecodes db s.opcode (isInsnInItBlock s) template := by
  rw [decodeTemplate_eq]
  split
  · split
    · rename_i h
      exact h.symm
    · rename_i h
      rw [Bool.not_eq_true] at h
      exact h.symm
  · rename_i h
    rw [Bool.not_eq_true] at h
    rw [templateDecodes, h, Bool.false_and]

theorem enteredNodes_fills (template : Nat) (s : Internal) :
    Fills (enterTemplate db template s) (enteredNodes db template s).2 :=
  decodeNodesFrom_fills db _ 0 _

/-- The members of the instruction that its template and its encoding fill. -/
structure Tags where
  length : Nat
  page : Nat
  iclass : Nat
  cclass : Nat
  encoding : Nat
  isUndefined : Bool
  isAlias : Bool
  isRunningConditionally : Bool
  condition : Nat

def Insn.tags (insn : Insn) : Tags where
  length := insn.length
  page := insn.page
  iclass := insn.iclass
  cclass := insn.cclass
  encoding := insn.encoding
  isUndefined := insn.attributes.isUndefined
  isAlias := insn.attributes.isAlias
  isRunningConditionally := insn.attributes.isRunningConditionally
  condition := insn.aarch32.condition

/-- What a template leaves alone when it is rejected. -/
structure Leaves (s s' : Internal) : Prop where
  opcode : s'.opcode = s.opcode
  encoding : s'.encoding = s.encoding
  context : s'.context = s.context
  isArm : s'.isArm = s.isArm
  hasReg : s'.hasReg = s.hasReg
  tags : Insn.tags s'.insn = Insn.tags s.insn
  keeps : s.insn.attributes.Keeps s'.insn.attributes

theorem Leaves.refl (s : Internal) : Leaves s s := ⟨rfl, rfl, rfl, rfl, rfl, rfl, .refl _⟩

theorem Leaves.trans {s s' s'' : Internal} (h : Leaves s s') (h' : Leaves s' s'') :
    Leaves s s'' :=
  ⟨h'.opcode.trans h.opcode, h'.encoding.trans h.encoding, h'.context.trans h.context,
    h'.isArm.trans h.isArm, h'.hasReg.trans h.hasReg, h'.tags.trans h.tags, h.keeps.trans h'.keeps⟩

theorem Leaves.inItBlock {s s' : Internal} (h : Leaves s s') :
    isInsnInItBlock s' = isInsnInItBlock s := by
  rw [isInsnInItBlock, h.context, isInsnInItBlock]

theorem Fills.leaves {s s' : Internal} (h : Fills s s') : Leaves s s' := by
  have hall : (s'.outline.opcode, s'.outline.encoding, s'.outline.context, s'.outline.isArm,
      s'.outline.hasReg, Insn.tags s'.outline.insn) =
        (s.outline.opcode, s.outline.encoding, s.outline.context, s.outline.isArm,
          s.outline.hasReg, Insn.tags s.outline.insn) := by
    rw [h.outline]
  simp only [Prod.mk.injEq] at hall
  obtain ⟨hopcode, hencoding, hcontext, harm, hreg, htags⟩ := hall
  exact ⟨hopcode, hencoding, hcontext, harm, hreg, htags, h.keeps⟩

theorem enterTemplate_leaves (template : Nat) (s : Internal) :
    Leaves s (enterTemplate db template s) :=
  ⟨rfl, rfl, rfl, rfl, rfl, rfl, .refl _⟩

theorem enteredNodes_leaves (template : Nat) (s : Internal) :
    Leaves s (enteredNodes db template s).2 :=
  (enterTemplate_leaves db template s).trans (enteredNodes_fills db template s).leaves

theorem enteredNodes_ptemplate (template : Nat) (s : Internal) :
    (enteredNodes db template s).2.ptemplate = template := by
  have houtline := (enteredNodes_fills db template s).outline
  have hptemplate : (enteredNodes db template s).2.outline.ptemplate =
      (enterTemplate db template s).outline.ptemplate := by rw [houtline]
  exact hptemplate

theorem decodeTemplate_leaves {template : Nat} {s : Internal}
    (h : templateDecodes db s.opcode (isInsnInItBlock s) template = false) :
    Leaves s (decodeTemplate db template s).2 := by
  rw [decodeTemplate_eq, h]
  split
  · exact enteredNodes_leaves db template s
  · exact ⟨rfl, rfl, rfl, rfl, rfl, rfl, .refl _⟩

/-! ## The templates of an encoding -/

/-- Some template of an encoding can be decoded. -/
def encodingDecodes (opcode : BitVec 32) (inItBlock : Bool) (encoding : Nat) : Bool :=
  (candidates db (db.encodings encoding)).any (templateDecodes db opcode inItBlock)

/-- Templates that are all rejected leave what each of them leaves. -/
theorem tryTemplates_leaves {templates : List Nat} {s : Internal}
    (h : (tryEach (decodeTemplate db) templates s).1 = false) :
    Leaves s (tryEach (decodeTemplate db) templates s).2 := by
  induction templates generalizing s with
  | nil => exact .refl s
  | cons t templates ih =>
      cases ht : (decodeTemplate db t s).1 with
      | true =>
          rw [tryEach_of_accepted _ ht, ht] at h
          cases h
      | false =>
          rw [tryEach_of_rejected _ ht] at h ⊢
          have hrejected := decodeTemplate_fst db t s
          rw [ht] at hrejected
          exact (decodeTemplate_leaves db hrejected.symm).trans (ih h)

theorem tryTemplates_fst (templates : List Nat) (s : Internal) :
    (tryEach (decodeTemplate db) templates s).1 =
      templates.any (templateDecodes db s.opcode (isInsnInItBlock s)) := by
  induction templates generalizing s with
  | nil => rfl
  | cons t templates ih =>
      rw [List.any_cons, ← decodeTemplate_fst db t s]
      cases ht : (decodeTemplate db t s).1 with
      | true => rw [tryEach_of_accepted _ ht, ht, Bool.true_or]
      | false =>
          have hrejected := decodeTemplate_fst db t s
          rw [ht] at hrejected
          have hleaves := decodeTemplate_leaves db hrejected.symm
          rw [tryEach_of_rejected _ ht, ih, hleaves.opcode, hleaves.inItBlock, Bool.false_or]

/-- A search that succeeds ends with a template that it decoded, in a state that the rejected ones
leave. -/
theorem tryTemplates_accepts {templates : List Nat} {s : Internal}
    (h : (tryEach (decodeTemplate db) templates s).1 = true) :
    ∃ t ∈ templates, ∃ s', Leaves s s' ∧
      templateDecodes db s.opcode (isInsnInItBlock s) t = true ∧
        tryEach (decodeTemplate db) templates s =
          (true, leaveTemplate db (enteredNodes db t s').2) := by
  obtain ⟨found⟩ := accepts_of_tryEach h
  have hleaves := tryTemplates_leaves db found.failed
  have haccepts := found.accepts
  rw [decodeTemplate_fst] at haccepts
  refine ⟨found.accepted, found.mem, _, hleaves, ?_, ?_⟩
  · rw [← hleaves.opcode, ← hleaves.inItBlock]
    exact haccepts
  · have hcond := (Bool.and_eq_true_iff.mp haccepts).1
    rw [found.result, decodeTemplate_eq, if_pos hcond, if_pos haccepts]

end Amed.AArch32

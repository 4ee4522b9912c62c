import Amed.AArch64.Effects

/-!
# Templates and encodings

A template is decoded exactly when its conditions hold and each of its nodes can be decoded, in
whatever state it is tried. So an encoding is decoded by the first of its templates that can be,
and the instruction then comes from this template.
-/

namespace Amed.AArch64

open Search

variable (db : Db) (stale : Argument)

/-- A template can be decoded. -/
def templateDecodes (opcode : BitVec 32) (template : Nat) : Bool :=
  conditionsHold db opcode template &&
    (db.arguments (db.templates template).arguments).all (decodes db opcode)

/-- The instruction comes from one template of one encoding. -/
structure FromTemplate (opcode : BitVec 32) (encoding template : Nat) (insn : Insn) : Prop where
  iform : insn.iform = (db.templates template).iform
  mnemonic : insn.mnemonic = db.iform2mnem (db.templates template).iform
  argumentCount : insn.argumentCount = (db.arguments (db.templates template).arguments).length
  arguments : HoldsNodes db stale opcode (db.arguments (db.templates template).arguments) 0
    insn.arguments
  page : insn.page = (db.encodings encoding).page.toNat
  iclass : insn.iclass = (db.encodings encoding).iclass
  cclass : insn.cclass = (db.encodings encoding).cclass
  pstate : insn.aarch64.pstate = db.iflags (db.encodings encoding).iflags
  categories : insn.categories = (db.encodings encoding).categories
  exceptions : insn.exceptions = (db.encodings encoding).exceptions
  extensions : insn.extensions = (db.templates template).extensions
  archVariant : insn.archVariant = (db.templates template).archVariant
  encoding : insn.encoding = encoding % 2 ^ 16

/-! ## One template -/

/-- The state a template is decoded in once its conditions hold. -/
def enterTemplate (template : Nat) (s : Internal) : Internal :=
  beginTemplate db { s with ptemplate := template }

theorem enterTemplate_fixed (template : Nat) (s : Internal) :
    (enterTemplate db template s).opcode = s.opcode ∧
      (enterTemplate db template s).encoding = s.encoding ∧
      (enterTemplate db template s).ptemplate = template ∧
      (enterTemplate db template s).context = s.context ∧
      (enterTemplate db template s).insn.attributes.isUndefined =
        s.insn.attributes.isUndefined ∧
      (enterTemplate db template s).insn.iform = (db.templates template).iform ∧
      (enterTemplate db template s).insn.mnemonic =
        db.iform2mnem (db.templates template).iform := by
  unfold enterTemplate beginTemplate decodeCondition
  split <;> exact ⟨rfl, rfl, rfl, rfl, rfl, rfl, rfl⟩

theorem enterTemplate_keeps (template : Nat) (s : Internal) :
    s.insn.attributes.Keeps (enterTemplate db template s).insn.attributes := by
  unfold enterTemplate beginTemplate decodeCondition
  split
  · simp [InsnAttributes.Keeps, InsnAttributes.flags]
  · exact .refl _

/-- The nodes of a template, decoded behind its head. -/
def enteredNodes (template : Nat) (s : Internal) : Bool × Internal :=
  decodeNodesFrom db stale (db.arguments (db.templates template).arguments) 0
    (enterTemplate db template s)

theorem decodeTemplate_eq (template : Nat) (s : Internal) :
    decodeTemplate db stale template s =
      if conditionsHold db s.opcode template then
        if templateDecodes db s.opcode template then
          (true, finishTemplate db (enteredNodes db stale template s).2)
        else (false, (enteredNodes db stale template s).2)
      else (false, { s with ptemplate := template }) := by
  obtain ⟨hopcode, -, hptemplate, -⟩ := enterTemplate_fixed db template s
  have hnodes : decodeNodes db stale (enterTemplate db template s) =
      enteredNodes db stale template s := by
    rw [decodeNodes, hptemplate, enteredNodes]
  have hfst : (enteredNodes db stale template s).1 =
      (db.arguments (db.templates template).arguments).all (decodes db s.opcode) := by
    rw [enteredNodes, decodeNodesFrom_fst, hopcode]
  unfold decodeTemplate
  dsimp only
  rw [← enterTemplate, hnodes]
  split
  · rename_i hcond
    rw [templateDecodes, hcond, Bool.true_and, ← hfst]
    split
    · rfl
    · rename_i hfail
      rw [Bool.not_eq_true] at hfail
      exact Prod.ext hfail rfl
  · rfl

theorem decodeTemplate_fst (template : Nat) (s : Internal) :
    (decodeTemplate db stale template s).1 = templateDecodes db s.opcode template := by
  rw [decodeTemplate_eq]
  split
  · split
    · rename_i h
      exact h.symm
    · rename_i h
      rw [Bool.not_eq_true] at h
      exact h.symm
  · rename_i h
    rw [Bool.not_eq_true] at h
    rw [templateDecodes, h, Bool.false_and]

theorem enteredNodes_fills (template : Nat) (s : Internal) :
    Fills (enterTemplate db template s) (enteredNodes db stale template s).2 :=
  decodeNodesFrom_fills db stale _ 0 _

/-- What a template leaves alone, with or without success. -/
structure Holds (s s' : Internal) : Prop where
  opcode : s'.opcode = s.opcode
  encoding : s'.encoding = s.encoding
  isUndefined : s'.insn.attributes.isUndefined = s.insn.attributes.isUndefined
  keeps : s.insn.attributes.Keeps s'.insn.attributes

theorem enteredNodes_holds (template : Nat) (s : Internal) :
    Holds s (enteredNodes db stale template s).2 := by
  obtain ⟨hopcode, hencoding, -, -, hundefined, -⟩ := enterTemplate_fixed db template s
  have hfills := enteredNodes_fills db stale template s
  constructor
  · exact hfills.opcode.trans hopcode
  · exact (congrArg (fun f => f.2.2.1) hfills.outline).trans hencoding
  · exact (congrArg (fun insn => insn.attributes.isUndefined) hfills.insn).trans hundefined
  · exact (enterTemplate_keeps db template s).trans hfills.keeps

theorem finishTemplate_keeps (s : Internal) :
    s.insn.attributes.Keeps (finishTemplate db s).insn.attributes := by
  simp +contextual [finishTemplate, InsnAttributes.Keeps, InsnAttributes.flags]

theorem decodeTemplate_holds (template : Nat) (s : Internal) :
    Holds s (decodeTemplate db stale template s).2 := by
  have hnodes := enteredNodes_holds db stale template s
  rw [decodeTemplate_eq]
  split
  · split
    · exact ⟨hnodes.opcode, hnodes.encoding, hnodes.isUndefined,
        hnodes.keeps.trans (finishTemplate_keeps db _)⟩
    · exact hnodes
  · exact ⟨rfl, rfl, rfl, .refl _⟩

/-- A decoded template has written the instruction. -/
theorem decodeTemplate_from {template : Nat} {s : Internal}
    (h : templateDecodes db s.opcode template = true) :
    FromTemplate db stale s.opcode s.encoding template
      (decodeTemplate db stale template s).2.insn := by
  obtain ⟨hopcode, hencoding, hptemplate, -, -, hiform, hmnemonic⟩ :=
    enterTemplate_fixed db template s
  have hfills := enteredNodes_fills db stale template s
  have hcond : conditionsHold db s.opcode template = true := (Bool.and_eq_true_iff.mp h).1
  have hall : (db.arguments (db.templates template).arguments).all
      (decodes db (enterTemplate db template s).opcode) = true := by
    rw [hopcode]
    exact (Bool.and_eq_true_iff.mp h).2
  obtain ⟨hholds, hcount⟩ := decodeNodesFrom_holds db stale (i := 0) hall
  rw [hopcode] at hholds
  have henc : (enteredNodes db stale template s).2.encoding = s.encoding :=
    (congrArg (fun f => f.2.2.1) hfills.outline).trans hencoding
  have htem : (enteredNodes db stale template s).2.ptemplate = template :=
    (congrArg (fun f => f.2.2.2.1) hfills.outline).trans hptemplate
  rw [decodeTemplate_eq, if_pos hcond, if_pos h]
  constructor
  · exact (congrArg Insn.iform hfills.insn).trans hiform
  · exact (congrArg Insn.mnemonic hfills.insn).trans hmnemonic
  · exact hcount.trans (Nat.zero_add _)
  · exact hholds
  all_goals simp only [finishTemplate, henc, htem]

/-! ## The templates of an encoding -/

/-- Some template of an encoding can be decoded. -/
def encodingDecodes (opcode : BitVec 32) (encoding : Nat) : Bool :=
  (candidates db (db.encodings encoding)).any (templateDecodes db opcode)

theorem tryTemplates_holds (s : Internal) (templates : List Nat) :
    Holds s (tryEach (decodeTemplate db stale) templates s).2 := by
  refine tryEach_keeps (I := fun s' => Holds s s') (fun t _ s' h => ?_)
    ⟨rfl, rfl, rfl, .refl _⟩
  have hstep := decodeTemplate_holds db stale t s'
  exact ⟨hstep.opcode.trans h.opcode, hstep.encoding.trans h.encoding,
    hstep.isUndefined.trans h.isUndefined, h.keeps.trans hstep.keeps⟩

theorem tryTemplates_fst (s : Internal) (templates : List Nat) :
    (tryEach (decodeTemplate db stale) templates s).1 =
      templates.any (templateDecodes db s.opcode) := by
  refine tryEach_fst (I := fun s' => s'.opcode = s.opcode) (fun t _ s' h => ?_)
    (fun t _ s' h => ?_) rfl
  · rw [decodeTemplate_fst, h]
  · exact (decodeTemplate_holds db stale t s').opcode.trans h

/-- The loop over the templates ends with one that it decoded. -/
theorem tryTemplates_from {s : Internal} {templates : List Nat}
    (h : templates.any (templateDecodes db s.opcode) = true) :
    ∃ t ∈ templates, templateDecodes db s.opcode t = true ∧
      FromTemplate db stale s.opcode s.encoding t
        (tryEach (decodeTemplate db stale) templates s).2.insn := by
  obtain ⟨found⟩ := accepts_of_tryEach ((tryTemplates_fst db stale s templates).trans h)
  have hreached := tryTemplates_holds db stale s found.rejected
  have hdecodes : templateDecodes db s.opcode found.accepted = true := by
    rw [← hreached.opcode, ← decodeTemplate_fst db stale]
    exact found.accepts
  refine ⟨found.accepted, found.mem, hdecodes, ?_⟩
  rw [found.result, ← hreached.opcode, ← hreached.encoding]
  exact decodeTemplate_from db stale (by rw [hreached.opcode]; exact hdecodes)

end Amed.AArch64

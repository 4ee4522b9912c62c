import Amed.AArch64.Success

/-!
# The tags of a decoded instruction

A rejected template leaves the documentation tags alone, an accepted one writes those of its
encoding; neither sets `is_alias`.
-/

namespace Amed.AArch64

open Search

variable (db : Db) (stale : Argument)

/-- The members of the instruction that its encoding fills, with `is_alias`. -/
structure Tags where
  page : Nat
  iclass : Nat
  cclass : Nat
  encoding : Nat
  isAlias : Bool

def Insn.tags (insn : Insn) : Tags where
  page := insn.page
  iclass := insn.iclass
  cclass := insn.cclass
  encoding := insn.encoding
  isAlias := insn.attributes.isAlias

/-- What a template leaves alone when it is rejected. -/
structure Leaves (s s' : Internal) : Prop where
  opcode : s'.opcode = s.opcode
  encoding : s'.encoding = s.encoding
  tags : Insn.tags s'.insn = Insn.tags s.insn

theorem Leaves.trans {s s' s'' : Internal} (h : Leaves s s') (h' : Leaves s' s'') :
    Leaves s s'' :=
  ⟨h'.opcode.trans h.opcode, h'.encoding.trans h.encoding, h'.tags.trans h.tags⟩

theorem enterTemplate_tags (template : Nat) (s : Internal) :
    Insn.tags (enterTemplate db template s).insn = Insn.tags s.insn := by
  unfold enterTemplate beginTemplate decodeCondition
  split <;> rfl

theorem enteredNodes_leaves (template : Nat) (s : Internal) :
    Leaves s (enteredNodes db stale template s).2 := by
  have hholds := enteredNodes_holds db stale template s
  have hfills := enteredNodes_fills db stale template s
  refine ⟨hholds.opcode, hholds.encoding, ?_⟩
  exact (congrArg Insn.tags hfills.insn).trans (enterTemplate_tags db template s)

theorem decodeTemplate_leaves {template : Nat} {s : Internal}
    (h : templateDecodes db s.opcode template = false) :
    Leaves s (decodeTemplate db stale template s).2 := by
  rw [decodeTemplate_eq, h]
  split
  · exact enteredNodes_leaves db stale template s
  · exact ⟨rfl, rfl, rfl⟩

theorem tryTemplates_leaves {templates : List Nat} {s : Internal}
    (h : (tryEach (decodeTemplate db stale) templates s).1 = false) :
    Leaves s (tryEach (decodeTemplate db stale) templates s).2 := by
  induction templates generalizing s with
  | nil => exact ⟨rfl, rfl, rfl⟩
  | cons t templates ih =>
      cases ht : (decodeTemplate db stale t s).1 with
      | true =>
          rw [tryEach_of_accepted _ ht, ht] at h
          cases h
      | false =>
          rw [tryEach_of_rejected _ ht] at h ⊢
          have hrejected := decodeTemplate_fst db stale t s
          rw [ht] at hrejected
          exact (decodeTemplate_leaves db stale hrejected.symm).trans (ih h)

/-- The instruction carries the tags of one encoding. -/
structure Tagged (encoding : Nat) (insn : Insn) : Prop where
  page : insn.page = (db.encodings encoding).page.toNat
  iclass : insn.iclass = (db.encodings encoding).iclass
  cclass : insn.cclass = (db.encodings encoding).cclass
  encoding : insn.encoding = encoding % 2 ^ 16

/-- An encoding with a template that can be decoded leaves its tags. -/
theorem tryEncoding_tagged {encoding : Nat} {s : Internal}
    (h : encodingDecodes db s.opcode encoding = true) :
    Tagged db encoding (tryEncoding db stale encoding s).insn := by
  obtain ⟨t, ht, hdecodes, hfrom⟩ := tryEncoding_from db stale _ h
  exact ⟨hfrom.page, hfrom.iclass, hfrom.cclass, hfrom.encoding⟩

/-- An encoding without such a template leaves the tags that are there. -/
theorem tryEncoding_leaves {encoding : Nat} {s : Internal}
    (h : encodingDecodes db s.opcode encoding = false) :
    Insn.tags (tryEncoding db stale encoding s).insn = Insn.tags s.insn := by
  have hfst := tryTemplates_fst db stale (enterEncoding db encoding s)
    (candidates db (db.encodings encoding))
  have hnone : (tryEach (decodeTemplate db stale) (candidates db (db.encodings encoding))
      (enterEncoding db encoding s)).1 = false := hfst.trans h
  exact (tryTemplates_leaves db stale hnone).tags

theorem decodeTemplate_isAlias (template : Nat) (s : Internal) :
    (decodeTemplate db stale template s).2.insn.attributes.isAlias =
      s.insn.attributes.isAlias := by
  have hleaves := enteredNodes_leaves db stale template s
  rw [decodeTemplate_eq]
  split
  · split <;> exact congrArg Tags.isAlias hleaves.tags
  · rfl

theorem tryEncoding_isAlias (encoding : Nat) (s : Internal) :
    (tryEncoding db stale encoding s).insn.attributes.isAlias = s.insn.attributes.isAlias := by
  have hkeep : ∀ t ∈ candidates db (db.encodings encoding), ∀ s' : Internal,
      s'.insn.attributes.isAlias = s.insn.attributes.isAlias →
        (decodeTemplate db stale t s').2.insn.attributes.isAlias =
          s.insn.attributes.isAlias :=
    fun t _ s' h => (decodeTemplate_isAlias db stale t s').trans h
  exact tryEach_keeps hkeep (s := enterEncoding db encoding s) rfl

theorem enterTemplate_length (template : Nat) (s : Internal) :
    (enterTemplate db template s).insn.length = s.insn.length := by
  unfold enterTemplate beginTemplate decodeCondition
  split <;> rfl

theorem decodeTemplate_length (template : Nat) (s : Internal) :
    (decodeTemplate db stale template s).2.insn.length = s.insn.length := by
  have hfills := enteredNodes_fills db stale template s
  have hlength : (enteredNodes db stale template s).2.insn.length = s.insn.length :=
    (congrArg Insn.length hfills.insn).trans (enterTemplate_length db template s)
  rw [decodeTemplate_eq]
  split
  · split <;> exact hlength
  · rfl

theorem tryEncoding_length (encoding : Nat) (s : Internal) :
    (tryEncoding db stale encoding s).insn.length = s.insn.length := by
  have hkeep : ∀ t ∈ candidates db (db.encodings encoding), ∀ s' : Internal,
      s'.insn.length = s.insn.length →
        (decodeTemplate db stale t s').2.insn.length = s.insn.length :=
    fun t _ s' h => (decodeTemplate_length db stale t s').trans h
  exact tryEach_keeps hkeep (s := enterEncoding db encoding s) rfl

/-! ## The base decode and the alias step -/

section Steps

variable (ctx : Context) (insn : Insn)

/-- The chosen alias can be decoded. -/
def aliasDecodes : Bool :=
  (chosenAlias db ctx stale insn).any (encodingDecodes db (fetchOpcode ctx))

/-- The encoding that is accepted in the end. -/
def finalEncoding : Nat :=
  if aliasDecodes db stale ctx insn then (chosenAlias db ctx stale insn).getD 0
  else lookedUp db ctx

variable {db stale ctx insn}

/-- The chosen alias is one of the looked-up encoding. -/
theorem chosenAlias_mem {palias : Nat} (h : chosenAlias db ctx stale insn = some palias) :
    palias ∈ db.aliases (db.encodings (lookedUp db ctx)).aliases := by
  unfold chosenAlias at h
  split at h
  · exact List.mem_of_find?_eq_some h
  · cases h

theorem finalEncoding_of_plain (h : aliasDecodes db stale ctx insn = false) :
    finalEncoding db stale ctx insn = lookedUp db ctx := by
  rw [finalEncoding, h, if_neg Bool.false_ne_true]

theorem finalEncoding_of_alias (h : aliasDecodes db stale ctx insn = true) :
    ∃ palias, chosenAlias db ctx stale insn = some palias ∧
      finalEncoding db stale ctx insn = palias := by
  rw [finalEncoding, if_pos h]
  obtain ⟨palias, hchosen, -⟩ := (Option.any_eq_true _ _).mp h
  exact ⟨palias, hchosen, by rw [hchosen, Option.getD_some]⟩

variable (db stale ctx insn)

theorem baseState_isAlias (h : MatchesLookup db ctx) :
    (baseState db ctx stale insn).insn.attributes.isAlias = false := by
  rw [baseState, decodeBase_of_match db ctx stale insn h]
  exact tryEncoding_isAlias db stale _ _

/-- The tags of an accepted instruction are those of the encoding accepted in the end. -/
theorem decodeInsn_tagged (hok : (decodeInsn db ctx stale insn).1 = true)
    (h : encodingDecodes db (fetchOpcode ctx) (finalEncoding db stale ctx insn) = true) :
    Tagged db (finalEncoding db stale ctx insn) (decodeInsn db ctx stale insn).2 := by
  rw [decodeInsn_fst, decide_eq_true_eq] at hok
  obtain ⟨hlength, hmatch⟩ := hok
  have hopcode := (baseState_holds db ctx stale insn hmatch).1
  rw [decodeInsn_of_match db ctx stale insn hlength hmatch]
  unfold finalEncoding at h ⊢
  have hbase (hd : encodingDecodes db (fetchOpcode ctx) (lookedUp db ctx) = true) :
      Tagged db (lookedUp db ctx) (baseState db ctx stale insn).insn := by
    rw [baseState, decodeBase_of_match db ctx stale insn hmatch]
    exact tryEncoding_tagged db stale (s := startState ctx insn) hd
  cases hchosen : chosenAlias db ctx stale insn with
  | none =>
      rw [aliasStep_of_none db ctx stale insn hmatch hchosen]
      rw [aliasDecodes, hchosen] at h ⊢
      exact hbase h
  | some palias =>
      rw [aliasStep_of_some db ctx stale insn hmatch hchosen]
      cases hdecodes : aliasDecodes db stale ctx insn with
      | true =>
          rw [aliasDecodes, hchosen, Option.any_some, ← hopcode] at hdecodes
          obtain ⟨hpage, hiclass, hcclass, hencoding⟩ := tryEncoding_tagged db stale hdecodes
          exact ⟨hpage, hiclass, hcclass, hencoding⟩
      | false =>
          rw [hdecodes] at h
          rw [aliasDecodes, hchosen, Option.any_some, ← hopcode] at hdecodes
          have htags := tryEncoding_leaves db stale hdecodes
          have hlooked := hbase h
          exact ⟨(congrArg Tags.page htags).trans hlooked.page,
            (congrArg Tags.iclass htags).trans hlooked.iclass,
            (congrArg Tags.cclass htags).trans hlooked.cclass,
            (congrArg Tags.encoding htags).trans hlooked.encoding⟩

/-- A decoded alias is the encoding that is accepted in the end. -/
theorem encodingDecodes_of_alias (h : aliasDecodes db stale ctx insn = true) :
    encodingDecodes db (fetchOpcode ctx) (finalEncoding db stale ctx insn) = true := by
  obtain ⟨palias, hchosen, hfinal⟩ := finalEncoding_of_alias h
  rw [aliasDecodes, hchosen, Option.any_some] at h
  rw [hfinal, h]

/-- An instruction that is accepted without a template keeps the tags of its caller. -/
theorem decodeInsn_untagged (hok : (decodeInsn db ctx stale insn).1 = true)
    (h : encodingDecodes db (fetchOpcode ctx) (finalEncoding db stale ctx insn) = false) :
    Insn.tags (decodeInsn db ctx stale insn).2 =
      { Insn.tags insn with isAlias := (decodeInsn db ctx stale insn).2.attributes.isAlias } := by
  rw [decodeInsn_fst, decide_eq_true_eq] at hok
  obtain ⟨hlength, hmatch⟩ := hok
  have hopcode := (baseState_holds db ctx stale insn hmatch).1
  have hrejected : aliasDecodes db stale ctx insn = false := by
    rw [Bool.eq_false_iff]
    intro hdecodes
    rw [encodingDecodes_of_alias db stale ctx insn hdecodes] at h
    cases h
  rw [finalEncoding_of_plain hrejected] at h
  have hbase : Insn.tags (baseState db ctx stale insn).insn =
      Insn.tags (startState ctx insn).insn := by
    rw [baseState, decodeBase_of_match db ctx stale insn hmatch]
    exact tryEncoding_leaves db stale (s := startState ctx insn) h
  rw [decodeInsn_of_match db ctx stale insn hlength hmatch]
  cases hchosen : chosenAlias db ctx stale insn with
  | none =>
      rw [aliasStep_of_none db ctx stale insn hmatch hchosen]
      change Insn.tags (baseState db ctx stale insn).insn =
        { Insn.tags (startState ctx insn).insn with
          isAlias := (Insn.tags (baseState db ctx stale insn).insn).isAlias }
      rw [hbase]
  | some palias =>
      -- a chosen alias that is not decoded still marks the instruction
      rw [aliasStep_of_some db ctx stale insn hmatch hchosen]
      rw [aliasDecodes, hchosen, Option.any_some, ← hopcode] at hrejected
      have htags := (tryEncoding_leaves db stale hrejected).trans hbase
      exact congrArg (fun t : Tags => { t with isAlias := true }) htags

/-- An accepted instruction is four bytes long. -/
theorem decodeInsn_length (hok : (decodeInsn db ctx stale insn).1 = true) :
    (decodeInsn db ctx stale insn).2.length = 4 := by
  rw [decodeInsn_fst, decide_eq_true_eq] at hok
  obtain ⟨hlength, hmatch⟩ := hok
  have hbase : (baseState db ctx stale insn).insn.length = 4 := by
    rw [baseState, decodeBase_of_match db ctx stale insn hmatch]
    exact tryEncoding_length db stale _ _
  rw [decodeInsn_of_match db ctx stale insn hlength hmatch]
  cases hchosen : chosenAlias db ctx stale insn with
  | none => rw [aliasStep_of_none db ctx stale insn hmatch hchosen, hbase]
  | some palias =>
      rw [aliasStep_of_some db ctx stale insn hmatch hchosen]
      exact (tryEncoding_length db stale palias _).trans hbase

end Steps

end Amed.AArch64

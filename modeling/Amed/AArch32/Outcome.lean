import Amed.AArch32.Templates

/-!
# The outcome of decoding an encoding

`decode_encoding` ends in one of three ways: the opcode does not match, every template is
rejected, or a template is decoded in the state that the rejected ones leave. The base decode and
the alias step are read off these.
-/

namespace Amed.AArch32

open Search

variable (db : Db)

/-! ## One encoding -/

/-- The three outcomes of `decode_encoding`. -/
inductive Outcome (encoding : Nat) (s : Internal) : Bool × Internal → Prop
  | mismatched
      (h : s.opcode &&& (db.encodings encoding).mask ≠ (db.encodings encoding).opcode) :
      Outcome encoding s (false, { s with
        encoding := encoding
        insn := { s.insn with attributes.isUndefined := true } })
  | rejected {s' : Internal}
      (h : s.opcode &&& (db.encodings encoding).mask = (db.encodings encoding).opcode)
      (hnone : encodingDecodes db s.opcode (isInsnInItBlock s) encoding = false)
      (hleaves : Leaves { s with encoding := encoding } s') :
      Outcome encoding s (false, s')
  | accepted {s' : Internal} {t : Nat}
      (h : s.opcode &&& (db.encodings encoding).mask = (db.encodings encoding).opcode)
      (ht : t ∈ candidates db (db.encodings encoding))
      (hdecodes : templateDecodes db s.opcode (isInsnInItBlock s) t = true)
      (hleaves : Leaves { s with encoding := encoding } s') :
      Outcome encoding s (true, leaveTemplate db (enteredNodes db t s').2)

theorem decodeEncoding_outcome (encoding : Nat) (s : Internal) :
    Outcome db encoding s (decodeEncoding db encoding s) := by
  by_cases hmatch : s.opcode &&& (db.encodings encoding).mask = (db.encodings encoding).opcode
  · have htry : decodeEncoding db encoding s =
        tryEach (decodeTemplate db) (candidates db (db.encodings encoding))
          { s with encoding := encoding } := if_neg (not_not.mpr hmatch)
    rw [htry]
    cases hok : (tryEach (decodeTemplate db) (candidates db (db.encodings encoding))
        { s with encoding := encoding }).1 with
    | true =>
        obtain ⟨t, ht, s', hleaves, hdecodes, heq⟩ := tryTemplates_accepts db hok
        rw [heq]
        exact .accepted hmatch ht hdecodes hleaves
    | false =>
        have hleaves := tryTemplates_leaves db hok
        rw [tryTemplates_fst] at hok
        rw [show tryEach _ _ _ = (false, (tryEach _ _ _).2) from Prod.ext (by
          rw [tryTemplates_fst]; exact hok) rfl]
        exact .rejected hmatch hok hleaves
  · have hfail : decodeEncoding db encoding s = (false, { s with
        encoding := encoding
        insn := { s.insn with attributes.isUndefined := true } }) := if_pos hmatch
    rw [hfail]
    exact .mismatched hmatch

theorem decodeEncoding_fst_iff (encoding : Nat) (s : Internal) :
    (decodeEncoding db encoding s).1 = true ↔
      s.opcode &&& (db.encodings encoding).mask = (db.encodings encoding).opcode ∧
        encodingDecodes db s.opcode (isInsnInItBlock s) encoding = true := by
  generalize hr : decodeEncoding db encoding s = r
  have houtcome := decodeEncoding_outcome db encoding s
  rw [hr] at houtcome
  cases houtcome with
  | mismatched h => simp [h]
  | rejected h hnone _ => simp [hnone]
  | accepted h ht hdecodes _ =>
      simp only [true_iff]
      exact ⟨h, List.any_eq_true.mpr ⟨_, ht, hdecodes⟩⟩

/-! ## Behind an accepted template -/

theorem decodeConditionalExecution_keeps (s : Internal) (condition : Nat) :
    s.insn.attributes.Keeps (decodeConditionalExecution db s condition).insn.attributes := by
  simp +contextual [decodeConditionalExecution, InsnAttributes.Keeps, InsnAttributes.flags]

theorem decodeIt_keeps (s : Internal) :
    s.insn.attributes.Keeps (decodeIt s).insn.attributes := by
  simp +contextual [decodeIt, InsnAttributes.Keeps, InsnAttributes.flags]

theorem decodeExecution_keeps (s : Internal) :
    s.insn.attributes.Keeps (decodeExecution db s).insn.attributes := by
  unfold decodeExecution
  split
  · exact decodeConditionalExecution_keeps db s _
  · split
    · exact decodeIt_keeps s
    · exact decodeConditionalExecution_keeps db s _

theorem finishTemplate_keeps (s : Internal) :
    s.insn.attributes.Keeps (finishTemplate db s).insn.attributes := by
  simp +contextual [finishTemplate, InsnAttributes.Keeps, InsnAttributes.flags]

theorem leaveTemplate_keeps (s : Internal) :
    s.insn.attributes.Keeps (leaveTemplate db s).insn.attributes :=
  (decodeExecution_keeps db s).trans (finishTemplate_keeps db _)

/-- What the condition of an instruction leaves alone. -/
theorem decodeExecution_fixed (s : Internal) :
    (decodeExecution db s).opcode = s.opcode ∧ (decodeExecution db s).encoding = s.encoding ∧
      (decodeExecution db s).ptemplate = s.ptemplate ∧
      (decodeExecution db s).insn.length = s.insn.length ∧
      (decodeExecution db s).insn.attributes.isAlias = s.insn.attributes.isAlias := by
  unfold decodeExecution
  split
  · exact ⟨rfl, rfl, rfl, rfl, rfl⟩
  · split <;> exact ⟨rfl, rfl, rfl, rfl, rfl⟩

/-- The instruction carries the tags of one encoding. -/
structure Tagged (encoding : Nat) (insn : Insn) : Prop where
  page : insn.page = (db.encodings encoding).page.toNat
  iclass : insn.iclass = (db.encodings encoding).iclass
  cclass : insn.cclass = (db.encodings encoding).cclass
  encoding : insn.encoding = encoding % 2 ^ 16

theorem leaveTemplate_tagged (s : Internal) : Tagged db s.encoding (leaveTemplate db s).insn := by
  have hencoding := (decodeExecution_fixed db s).2.1
  rw [← hencoding]
  exact ⟨rfl, rfl, rfl, rfl⟩

/-- What an accepted template leaves alone. -/
theorem leaveTemplate_fixed (s : Internal) :
    (leaveTemplate db s).opcode = s.opcode ∧
      (leaveTemplate db s).insn.length = s.insn.length ∧
      (leaveTemplate db s).insn.attributes.isAlias = s.insn.attributes.isAlias := by
  obtain ⟨hopcode, -, -, hlength, halias⟩ := decodeExecution_fixed db s
  exact ⟨hopcode, hlength, halias⟩

/-- What decoding an encoding leaves alone. -/
theorem decodeEncoding_fixed (encoding : Nat) (s : Internal) :
    (decodeEncoding db encoding s).2.opcode = s.opcode ∧
      (decodeEncoding db encoding s).2.insn.length = s.insn.length ∧
      (decodeEncoding db encoding s).2.insn.attributes.isAlias = s.insn.attributes.isAlias := by
  generalize hr : decodeEncoding db encoding s = r
  have houtcome := decodeEncoding_outcome db encoding s
  rw [hr] at houtcome
  cases houtcome with
  | mismatched h => exact ⟨rfl, rfl, rfl⟩
  | rejected h hnone hleaves =>
      exact ⟨hleaves.opcode, congrArg Tags.length hleaves.tags, congrArg Tags.isAlias hleaves.tags⟩
  | @accepted s' t h ht hdecodes hleaves =>
      have hentered := hleaves.trans (enteredNodes_leaves db t s')
      obtain ⟨hopcode, hlength, halias⟩ := leaveTemplate_fixed db (enteredNodes db t s').2
      exact ⟨hopcode.trans hentered.opcode, hlength.trans (congrArg Tags.length hentered.tags),
        halias.trans (congrArg Tags.isAlias hentered.tags)⟩

/-- The condition writes the IT block of the context only. -/
theorem decodeExecution_context (s : Internal) :
    (decodeExecution db s).context =
      { s.context with itblock := (decodeExecution db s).context.itblock } := by
  unfold decodeExecution
  split
  · rfl
  · split <;> rfl

theorem decodeEncoding_context (encoding : Nat) (s : Internal) :
    (decodeEncoding db encoding s).2.context =
      { s.context with itblock := (decodeEncoding db encoding s).2.context.itblock } := by
  generalize hr : decodeEncoding db encoding s = r
  have houtcome := decodeEncoding_outcome db encoding s
  rw [hr] at houtcome
  cases houtcome with
  | mismatched h => rfl
  | rejected h hnone hleaves => rw [hleaves.context]
  | @accepted s' t h ht hdecodes hleaves =>
      have hentered := hleaves.trans (enteredNodes_leaves db t s')
      have hexecution := decodeExecution_context db (enteredNodes db t s').2
      rw [hentered.context] at hexecution
      exact hexecution

/-- An accepted encoding leaves its tags. -/
theorem decodeEncoding_tagged {encoding : Nat} {s : Internal}
    (h : (decodeEncoding db encoding s).1 = true) :
    Tagged db encoding (decodeEncoding db encoding s).2.insn := by
  generalize hr : decodeEncoding db encoding s = r at h
  have houtcome := decodeEncoding_outcome db encoding s
  rw [hr] at houtcome
  cases houtcome with
  | mismatched _ => cases h
  | rejected _ _ _ => cases h
  | @accepted s' t _ ht hdecodes hleaves =>
      have hencoding := (hleaves.trans (enteredNodes_leaves db t s')).encoding
      have htagged := leaveTemplate_tagged db (enteredNodes db t s').2
      rw [hencoding] at htagged
      exact htagged

/-- A rejected encoding leaves the tags that are there. -/
theorem decodeEncoding_rejected {encoding : Nat} {s : Internal}
    (hmatch : s.opcode &&& (db.encodings encoding).mask = (db.encodings encoding).opcode)
    (h : (decodeEncoding db encoding s).1 = false) :
    Leaves { s with encoding := encoding } (decodeEncoding db encoding s).2 := by
  generalize hr : decodeEncoding db encoding s = r at h
  have houtcome := decodeEncoding_outcome db encoding s
  rw [hr] at houtcome
  cases houtcome with
  | mismatched hne => exact absurd hmatch hne
  | rejected _ _ hleaves => exact hleaves
  | accepted _ _ _ _ => cases h

/-! ## The base decode and the alias step -/

section Steps

variable (ctx : Context) (stale : Internal) (insn : Insn) (isa : Isa) (opcode : BitVec 32)

/-- The state behind the base decode. -/
def baseState : Internal :=
  (decodeEncoding db (db.lookup isa opcode) (startState ctx stale insn isa opcode)).2

/-- The alias that the alias step decodes, if it runs. -/
def chosenAlias : Option Nat :=
  if wantsAlias db ctx (db.lookup isa opcode) (baseState db ctx stale insn isa opcode) then
    selectAlias db (baseState db ctx stale insn isa opcode) (db.lookup isa opcode)
  else none

/-- The chosen alias can be decoded. -/
def aliasDecodes : Bool :=
  (chosenAlias db ctx stale insn isa opcode).any
    (encodingDecodes db opcode (isInsnInItBlock (baseState db ctx stale insn isa opcode)))

/-- The encoding that is accepted in the end. -/
def finalEncoding : Nat :=
  if aliasDecodes db ctx stale insn isa opcode then
    (chosenAlias db ctx stale insn isa opcode).getD 0
  else db.lookup isa opcode

variable {db ctx stale insn isa opcode}

/-- The chosen alias is one of the looked-up encoding. -/
theorem chosenAlias_mem {palias : Nat}
    (h : chosenAlias db ctx stale insn isa opcode = some palias) :
    palias ∈ db.aliases (db.encodings (db.lookup isa opcode)).aliases := by
  unfold chosenAlias at h
  split at h
  · exact List.mem_of_find?_eq_some h
  · cases h

theorem finalEncoding_of_plain (h : aliasDecodes db ctx stale insn isa opcode = false) :
    finalEncoding db ctx stale insn isa opcode = db.lookup isa opcode := by
  rw [finalEncoding, h, if_neg Bool.false_ne_true]

theorem finalEncoding_of_alias (h : aliasDecodes db ctx stale insn isa opcode = true) :
    ∃ palias, chosenAlias db ctx stale insn isa opcode = some palias ∧
      finalEncoding db ctx stale insn isa opcode = palias := by
  rw [finalEncoding, if_pos h]
  obtain ⟨palias, hchosen, -⟩ := (Option.any_eq_true _ _).mp h
  exact ⟨palias, hchosen, by rw [hchosen, Option.getD_some]⟩

variable (db ctx stale insn isa opcode)

theorem baseState_opcode : (baseState db ctx stale insn isa opcode).opcode = opcode :=
  (decodeEncoding_fixed db _ (startState ctx stale insn isa opcode)).1

theorem baseState_isAlias :
    (baseState db ctx stale insn isa opcode).insn.attributes.isAlias = false :=
  (decodeEncoding_fixed db _ (startState ctx stale insn isa opcode)).2.2

/-- The base decode succeeds. -/
def baseDecodes : Bool :=
  (decodeEncoding db (db.lookup isa opcode) (startState ctx stale insn isa opcode)).1

theorem selectAlias_matches {s : Internal} {encoding palias : Nat}
    (h : selectAlias db s encoding = some palias) :
    s.opcode &&& (db.encodings palias).mask = (db.encodings palias).opcode := by
  have hfound := List.find?_some h
  rw [Bool.and_eq_true, decide_eq_true_eq] at hfound
  exact hfound.1

/-- Set `is_alias`. -/
def markAlias (s : Internal) : Internal :=
  { s with insn := { s.insn with attributes.isAlias := true } }

/-- The alias step, by the alias that is chosen. -/
theorem aliasStep_eq :
    aliasStep db ctx (db.lookup isa opcode) (baseState db ctx stale insn isa opcode) =
      (match chosenAlias db ctx stale insn isa opcode with
      | none => baseState db ctx stale insn isa opcode
      | some palias =>
          let r := decodeEncoding db palias (baseState db ctx stale insn isa opcode)
          if r.1 then markAlias r.2 else r.2) := by
  unfold aliasStep chosenAlias
  split
  · unfold decodeAlias
    cases selectAlias db (baseState db ctx stale insn isa opcode) (db.lookup isa opcode) <;> rfl
  · rfl

theorem chosenAlias_matches {palias : Nat}
    (h : chosenAlias db ctx stale insn isa opcode = some palias) :
    (baseState db ctx stale insn isa opcode).opcode &&& (db.encodings palias).mask =
      (db.encodings palias).opcode := by
  unfold chosenAlias at h
  split at h
  · exact selectAlias_matches db h
  · cases h

theorem chosenAlias_fst {palias : Nat}
    (h : chosenAlias db ctx stale insn isa opcode = some palias) :
    (decodeEncoding db palias (baseState db ctx stale insn isa opcode)).1 =
      aliasDecodes db ctx stale insn isa opcode := by
  rw [Bool.eq_iff_iff, decodeEncoding_fst_iff, aliasDecodes, h, Option.any_some,
    baseState_opcode]
  have hmatch := chosenAlias_matches db ctx stale insn isa opcode h
  rw [baseState_opcode] at hmatch
  exact and_iff_right hmatch

theorem decodeFetched_eq :
    decodeFetched db ctx stale insn isa opcode =
      (baseDecodes db ctx stale insn isa opcode,
        if baseDecodes db ctx stale insn isa opcode then
          aliasStep db ctx (db.lookup isa opcode) (baseState db ctx stale insn isa opcode)
        else baseState db ctx stale insn isa opcode) := rfl

/-- The length is that of the instruction set, whether the instruction is accepted or not. -/
theorem decodeFetched_length :
    (decodeFetched db ctx stale insn isa opcode).2.insn.length = isa.length := by
  have hbase : (baseState db ctx stale insn isa opcode).insn.length = isa.length :=
    (decodeEncoding_fixed db _ (startState ctx stale insn isa opcode)).2.1
  rw [decodeFetched_eq]
  dsimp only
  split
  · rw [aliasStep_eq]
    split
    · exact hbase
    · rename_i palias _
      have halias := (decodeEncoding_fixed db palias (baseState db ctx stale insn isa opcode)).2.1
      dsimp only
      split <;> exact halias.trans hbase
  · exact hbase

/-- The context keeps all but its IT block. -/
theorem decodeFetched_context :
    (decodeFetched db ctx stale insn isa opcode).2.context =
      { ctx with itblock := (decodeFetched db ctx stale insn isa opcode).2.context.itblock } := by
  have hbase := decodeEncoding_context db (db.lookup isa opcode)
    (startState ctx stale insn isa opcode)
  change (baseState db ctx stale insn isa opcode).context = { ctx with itblock := _ } at hbase
  rw [decodeFetched_eq]
  dsimp only
  split
  · rw [aliasStep_eq]
    split
    · exact hbase
    · rename_i palias _
      have halias := decodeEncoding_context db palias (baseState db ctx stale insn isa opcode)
      rw [hbase] at halias
      dsimp only
      split <;> exact halias
  · exact hbase

/-- The tags of an accepted instruction are those of the encoding accepted in the end. -/
theorem decodeFetched_tagged (h : baseDecodes db ctx stale insn isa opcode = true) :
    Tagged db (finalEncoding db ctx stale insn isa opcode)
      (decodeFetched db ctx stale insn isa opcode).2.insn := by
  have hbase : Tagged db (db.lookup isa opcode) (baseState db ctx stale insn isa opcode).insn :=
    decodeEncoding_tagged db h
  rw [decodeFetched_eq, h, if_pos rfl, aliasStep_eq, finalEncoding]
  cases hchosen : chosenAlias db ctx stale insn isa opcode with
  | none =>
      rw [aliasDecodes, hchosen]
      exact hbase
  | some palias =>
      have hfst := chosenAlias_fst db ctx stale insn isa opcode hchosen
      cases hdecodes : aliasDecodes db ctx stale insn isa opcode with
      | true =>
          rw [hdecodes] at hfst
          obtain ⟨hpage, hiclass, hcclass, hencoding⟩ := decodeEncoding_tagged db hfst
          dsimp only
          rw [hfst, if_pos rfl, if_pos rfl]
          exact ⟨hpage, hiclass, hcclass, hencoding⟩
      | false =>
          rw [hdecodes] at hfst
          have hmatch := chosenAlias_matches db ctx stale insn isa opcode hchosen
          have hleaves := decodeEncoding_rejected db hmatch hfst
          dsimp only
          rw [hfst, if_neg Bool.false_ne_true, if_neg Bool.false_ne_true]
          exact ⟨(congrArg Tags.page hleaves.tags).trans hbase.page,
            (congrArg Tags.iclass hleaves.tags).trans hbase.iclass,
            (congrArg Tags.cclass hleaves.tags).trans hbase.cclass,
            (congrArg Tags.encoding hleaves.tags).trans hbase.encoding⟩

end Steps

end Amed.AArch32

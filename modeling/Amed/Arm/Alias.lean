import Amed.AArch64.Outcome
import Amed.AArch32.Outcome

/-!
# The alias step of the ARM decoders

The alias step should either replace the base decode or leave it as it is. It decodes the alias in
place: the AArch64 decoder takes every matching alias for decoded, the AArch32 decoder keeps what
the templates of a rejected alias wrote.
-/

namespace Amed

open Search

/-! ## AArch64 -/

namespace AArch64

variable (db : Db) (stale : Argument) (ctx : Context) (insn : Insn)

/-- The alias step is all or nothing for one input. -/
structure AliasAllOrNothing : Prop where
  untouched : (decodeInsn db ctx stale insn).1 = true → aliasDecodes db stale ctx insn = false →
    (decodeInsn db ctx stale insn).2 = (baseState db ctx stale insn).insn
  isAlias_iff : (decodeInsn db ctx stale insn).1 = true →
    ((decodeInsn db ctx stale insn).2.attributes.isAlias = true ↔
      aliasDecodes db stale ctx insn = true)

/-- The condition: there is no success, no alias is chosen, or it can be decoded. -/
def AliasSound : Prop :=
  ctx.length = 0 ∨ ¬MatchesLookup db ctx ∨ chosenAlias db ctx stale insn = none ∨
    aliasDecodes db stale ctx insn = true

theorem aliasAllOrNothing_iff :
    AliasAllOrNothing db stale ctx insn ↔ AliasSound db stale ctx insn := by
  by_cases hok : ctx.length ≠ 0 ∧ MatchesLookup db ctx
  · obtain ⟨hlength, hmatch⟩ := hok
    have hdecode := decodeInsn_of_match db ctx stale insn hlength hmatch
    have hbase := baseState_isAlias db stale ctx insn hmatch
    have hsound : AliasSound db stale ctx insn ↔
        chosenAlias db ctx stale insn = none ∨ aliasDecodes db stale ctx insn = true := by
      simp [AliasSound, hlength, hmatch]
    rw [hsound]
    cases hchosen : chosenAlias db ctx stale insn with
    | none =>
        have hnone : aliasDecodes db stale ctx insn = false := by
          rw [aliasDecodes, hchosen]
          rfl
        rw [aliasStep_of_none db ctx stale insn hmatch hchosen] at hdecode
        refine ⟨fun _ => Or.inl rfl, fun _ => ⟨fun _ _ => by rw [hdecode], fun _ => ?_⟩⟩
        rw [hdecode, hbase, hnone]
    | some palias =>
        rw [aliasStep_of_some db ctx stale insn hmatch hchosen] at hdecode
        have hmarked : (decodeInsn db ctx stale insn).2.attributes.isAlias = true := by
          rw [hdecode]
          rfl
        constructor
        · intro h
          exact Or.inr ((h.isAlias_iff (by rw [hdecode])).mp hmarked)
        · rintro (hnone | hdecodes)
          · cases hnone
          · refine ⟨fun _ hnone => ?_, fun _ => ⟨fun _ => hdecodes, fun _ => hmarked⟩⟩
            rw [hdecodes] at hnone
            cases hnone
  · have hfail : (decodeInsn db ctx stale insn).1 = false := by
      rw [decodeInsn_fst, decide_eq_false_iff_not]
      exact hok
    have hsound : AliasSound db stale ctx insn := by
      rw [not_and_or, not_not] at hok
      exact hok.elim Or.inl fun hmatch => Or.inr (Or.inl hmatch)
    refine ⟨fun _ => hsound, fun _ => ⟨fun hok' => ?_, fun hok' => ?_⟩⟩
    · rw [hfail] at hok'
      cases hok'
    · rw [hfail] at hok'
      cases hok'

end AArch64

/-! ## AArch32 -/

namespace AArch32

variable (db : Db)

/-- No template of a list has conditions that hold. -/
def NoneEntered (opcode : BitVec 32) (inItBlock : Bool) (templates : List Nat) : Prop :=
  ∀ t ∈ templates, conditionsHold db opcode inItBlock t = false

/-- A rejected template has written its form if its conditions hold, and nothing if they fail. -/
theorem decodeTemplate_iform {template : Nat} {s : Internal}
    (h : templateDecodes db s.opcode (isInsnInItBlock s) template = false) :
    if conditionsHold db s.opcode (isInsnInItBlock s) template then
      (decodeTemplate db template s).2.insn.iform = (db.templates template).iform
    else (decodeTemplate db template s).2.insn = s.insn := by
  have houtline := (enteredNodes_fills db template s).outline
  have hiform : (enteredNodes db template s).2.outline.insn.iform =
      (enterTemplate db template s).outline.insn.iform := by rw [houtline]
  rw [decodeTemplate_eq, h]
  split
  · exact hiform
  · rfl

/-- Templates that are all rejected leave the instruction alone where no one's conditions hold,
and else the form of one whose conditions hold. -/
theorem tryTemplates_iform {templates : List Nat} {s : Internal}
    (h : (tryEach (decodeTemplate db) templates s).1 = false) :
    (NoneEntered db s.opcode (isInsnInItBlock s) templates ∧
        (tryEach (decodeTemplate db) templates s).2.insn = s.insn) ∨
      ∃ t ∈ templates, conditionsHold db s.opcode (isInsnInItBlock s) t = true ∧
        (tryEach (decodeTemplate db) templates s).2.insn.iform = (db.templates t).iform := by
  induction templates generalizing s with
  | nil => exact Or.inl ⟨fun t ht => absurd ht List.not_mem_nil, rfl⟩
  | cons t templates ih =>
      cases ht : (decodeTemplate db t s).1 with
      | true =>
          rw [tryEach_of_accepted _ ht, ht] at h
          cases h
      | false =>
          rw [tryEach_of_rejected _ ht] at h ⊢
          have hrejected := decodeTemplate_fst db t s
          rw [ht] at hrejected
          have hleaves := decodeTemplate_leaves db hrejected.symm
          have hiform := decodeTemplate_iform db hrejected.symm
          have hrest := ih h
          rw [hleaves.opcode, hleaves.inItBlock] at hrest
          rcases hrest with ⟨hnone, hsame⟩ | ⟨t', ht', hcond, heq⟩
          · split at hiform
            · rename_i hcond
              exact Or.inr ⟨t, List.mem_cons_self, hcond, by rw [hsame, hiform]⟩
            · rename_i hcond
              rw [Bool.not_eq_true] at hcond
              exact Or.inl ⟨List.forall_mem_cons.mpr ⟨hcond, hnone⟩, hsame.trans hiform⟩
          · exact Or.inr ⟨t', List.mem_cons_of_mem _ ht', hcond, heq⟩

section Steps

variable (ctx : Context) (stale : Internal) (insn : Insn) (isa : Isa) (opcode : BitVec 32)

/-- The alias step is all or nothing for one input. -/
structure AliasAllOrNothing : Prop where
  untouched : baseDecodes db ctx stale insn isa opcode = true →
    aliasDecodes db ctx stale insn isa opcode = false →
      (decodeFetched db ctx stale insn isa opcode).2.insn =
        (baseState db ctx stale insn isa opcode).insn
  isAlias_iff : baseDecodes db ctx stale insn isa opcode = true →
    ((decodeFetched db ctx stale insn isa opcode).2.insn.attributes.isAlias = true ↔
      aliasDecodes db ctx stale insn isa opcode = true)

/-- The templates of the chosen alias whose conditions hold, by a property of them. -/
def AliasEnters (P : Nat → Prop) : Prop :=
  ∃ palias, chosenAlias db ctx stale insn isa opcode = some palias ∧
    ∃ t ∈ candidates db (db.encodings palias), P t ∧
      conditionsHold db opcode (isInsnInItBlock (baseState db ctx stale insn isa opcode)) t = true

/-- The condition: there is no success, the alias can be decoded, or no template of it gets as far
as its arguments. -/
def AliasSound : Prop :=
  baseDecodes db ctx stale insn isa opcode = false ∨
    aliasDecodes db ctx stale insn isa opcode = true ∨
      ¬AliasEnters db ctx stale insn isa opcode fun _ => True

/-- A template of the chosen alias that gets as far as its arguments has the form of the base. -/
def AliasSharesForm : Prop :=
  AliasEnters db ctx stale insn isa opcode fun t =>
    (db.templates t).iform = (baseState db ctx stale insn isa opcode).insn.iform

/-- `is_alias` is always right. -/
theorem decodeFetched_isAlias (hbase : baseDecodes db ctx stale insn isa opcode = true) :
    (decodeFetched db ctx stale insn isa opcode).2.insn.attributes.isAlias = true ↔
      aliasDecodes db ctx stale insn isa opcode = true := by
  have hfalse := baseState_isAlias db ctx stale insn isa opcode
  rw [decodeFetched_eq, hbase, if_pos rfl, aliasStep_eq]
  cases hchosen : chosenAlias db ctx stale insn isa opcode with
  | none => simp [aliasDecodes, hchosen, hfalse]
  | some palias =>
      have hfst := chosenAlias_fst db ctx stale insn isa opcode hchosen
      have hkept := (decodeEncoding_fixed db palias (baseState db ctx stale insn isa opcode)).2.2
      dsimp only
      rw [hfst]
      cases aliasDecodes db ctx stale insn isa opcode with
      | true => simp [markAlias]
      | false => simp [hkept, hfalse]

/-- The search through the templates of a chosen alias that cannot be decoded. -/
theorem rejectedAlias_fst (hno : aliasDecodes db ctx stale insn isa opcode = false) {palias : Nat}
    (hchosen : chosenAlias db ctx stale insn isa opcode = some palias) :
    (tryEach (decodeTemplate db) (candidates db (db.encodings palias))
      { baseState db ctx stale insn isa opcode with encoding := palias }).1 = false := by
  have hfst := chosenAlias_fst db ctx stale insn isa opcode hchosen
  rw [hno, decodeEncoding] at hfst
  dsimp only at hfst
  rwa [if_neg (not_not.mpr (chosenAlias_matches db ctx stale insn isa opcode hchosen))] at hfst

/-- What a chosen alias that cannot be decoded leaves. -/
theorem decodeFetched_rejected (hbase : baseDecodes db ctx stale insn isa opcode = true)
    (hno : aliasDecodes db ctx stale insn isa opcode = false) {palias : Nat}
    (hchosen : chosenAlias db ctx stale insn isa opcode = some palias) :
    decodeFetched db ctx stale insn isa opcode =
      (true, (tryEach (decodeTemplate db) (candidates db (db.encodings palias))
        { baseState db ctx stale insn isa opcode with encoding := palias }).2) := by
  have hfst := chosenAlias_fst db ctx stale insn isa opcode hchosen
  have hmatch := chosenAlias_matches db ctx stale insn isa opcode hchosen
  rw [hno] at hfst
  rw [decodeFetched_eq, hbase, if_pos rfl, aliasStep_eq, hchosen]
  dsimp only
  rw [hfst, if_neg Bool.false_ne_true, decodeEncoding]
  dsimp only
  rw [if_neg (not_not.mpr hmatch)]

theorem aliasAllOrNothing_of_sound (h : AliasSound db ctx stale insn isa opcode) :
    AliasAllOrNothing db ctx stale insn isa opcode := by
  refine ⟨fun hbase hno => ?_, decodeFetched_isAlias db ctx stale insn isa opcode⟩
  cases hchosen : chosenAlias db ctx stale insn isa opcode with
  | none =>
      rw [decodeFetched_eq, hbase, if_pos rfl, aliasStep_eq, hchosen]
  | some palias =>
      have hnone : ¬AliasEnters db ctx stale insn isa opcode fun _ => True := by
        rcases h with h | h | h
        · rw [hbase] at h
          cases h
        · rw [hno] at h
          cases h
        · exact h
      have hrejected := decodeFetched_rejected db ctx stale insn isa opcode hbase hno hchosen
      rw [hrejected]
      rcases tryTemplates_iform db (rejectedAlias_fst db ctx stale insn isa opcode hno hchosen) with
        ⟨-, hsame⟩ | ⟨t, ht, hcond, -⟩
      · exact hsame
      · refine absurd ⟨palias, hchosen, t, ht, trivial, ?_⟩ hnone
        rwa [show Internal.opcode _ = opcode from baseState_opcode db ctx stale insn isa opcode]
          at hcond

theorem sound_of_aliasAllOrNothing (h : AliasAllOrNothing db ctx stale insn isa opcode) :
    AliasSound db ctx stale insn isa opcode ∨ AliasSharesForm db ctx stale insn isa opcode := by
  by_contra hnot
  rw [not_or] at hnot
  obtain ⟨hsound, hform⟩ := hnot
  simp only [AliasSound, not_or, Bool.not_eq_false, Bool.not_eq_true, not_not] at hsound
  obtain ⟨hbase, hno, palias, hchosen, t, ht, -, hcond⟩ := hsound
  have hrejected := decodeFetched_rejected db ctx stale insn isa opcode hbase hno hchosen
  have hsame := h.untouched hbase hno
  have hopcode := baseState_opcode db ctx stale insn isa opcode
  rw [hrejected] at hsame
  rcases tryTemplates_iform db (rejectedAlias_fst db ctx stale insn isa opcode hno hchosen) with
    ⟨hnone, -⟩ | ⟨t', ht', hcond', heq⟩
  · have hfail := hnone t ht
    rw [show Internal.opcode _ = opcode from hopcode] at hfail
    exact Bool.noConfusion (hcond.symm.trans hfail)
  · rw [hsame] at heq
    refine hform ⟨palias, hchosen, t', ht', heq.symm, ?_⟩
    rwa [show Internal.opcode _ = opcode from hopcode] at hcond'

end Steps

end AArch32

/-! ## Both decoders -/

/-- Where the alias step is all or nothing: in the AArch64 decoder exactly where a chosen alias can
be decoded; in the AArch32 decoder where, besides, an alias that cannot has no template that gets as
far as its arguments, and nowhere else unless such a template has the form of the base. -/
theorem aliasAllOrNothing_both (db : AArch64.Db) (stale : Argument) (ctx : Context) (insn : Insn)
    (db' : AArch32.Db) (stale' : AArch32.Internal) (isa : AArch32.Isa) (opcode : BitVec 32) :
    (AArch64.AliasAllOrNothing db stale ctx insn ↔ AArch64.AliasSound db stale ctx insn) ∧
      (AArch32.AliasSound db' ctx stale' insn isa opcode →
          AArch32.AliasAllOrNothing db' ctx stale' insn isa opcode) ∧
        (AArch32.AliasAllOrNothing db' ctx stale' insn isa opcode →
          AArch32.AliasSound db' ctx stale' insn isa opcode ∨
            AArch32.AliasSharesForm db' ctx stale' insn isa opcode) :=
  ⟨AArch64.aliasAllOrNothing_iff db stale ctx insn,
    AArch32.aliasAllOrNothing_of_sound db' ctx stale' insn isa opcode,
    AArch32.sound_of_aliasAllOrNothing db' ctx stale' insn isa opcode⟩

open AArch64 AArch64.Excerpt in
/-- `DUP (element)` with `imm5` = 10000 is marked as an alias, though no template of `MOV` has it. -/
theorem not_aliasAllOrNothing_dup :
    ¬∀ (db : Db) (stale : Argument) (ctx : Context) (insn : Insn),
      AliasAllOrNothing db stale ctx insn := by
  intro h
  have hiff := (h tables default (contextOf 0x2c 0x05 0x10 0x5e 4 true) default).isAlias_iff
    (by decide)
  exact absurd (hiff.mp (by decide)) (by decide)

end Amed

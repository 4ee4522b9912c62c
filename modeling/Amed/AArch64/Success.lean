import Amed.AArch64.Templates
import Amed.AArch64.Excerpt

/-!
# What success of the AArch64 decoder means

A successful decode should come from one template of the selected encoding. `decode_encoding`
reports success behind its loop as well, so this is so only where a template can be decoded.
-/

namespace Amed.AArch64

open Search

/-! ## The base decode and the alias step -/

section Steps

variable (db : Db) (ctx : Context) (stale : Argument) (insn : Insn)

/-- The encoding the lookup gives. -/
def lookedUp : Nat := db.lookupA64 (fetchOpcode ctx)

/-- The opcode matches the encoding the lookup gives. -/
def MatchesLookup : Prop :=
  fetchOpcode ctx &&& (db.encodings (lookedUp db ctx)).mask = (db.encodings (lookedUp db ctx)).opcode

instance : Decidable (MatchesLookup db ctx) := inferInstanceAs (Decidable (_ = _))

/-- The loop over the templates of an encoding. -/
def tryEncoding (encoding : Nat) (s : Internal) : Internal :=
  (tryEach (decodeTemplate db stale) (candidates db (db.encodings encoding))
    (enterEncoding db encoding s)).2

theorem tryEncoding_holds (encoding : Nat) (s : Internal) :
    Holds (enterEncoding db encoding s) (tryEncoding db stale encoding s) :=
  tryTemplates_holds db stale _ _

theorem decodeEncoding_of_match (encoding : Nat) {s : Internal}
    (h : s.opcode &&& (db.encodings encoding).mask = (db.encodings encoding).opcode) :
    decodeEncoding db stale encoding s = (true, tryEncoding db stale encoding s) :=
  if_neg (not_not.mpr h)

theorem decodeEncoding_of_mismatch {encoding : Nat} {s : Internal}
    (h : s.opcode &&& (db.encodings encoding).mask ≠ (db.encodings encoding).opcode) :
    (decodeEncoding db stale encoding s).1 = false := by
  rw [decodeEncoding]
  exact congrArg Prod.fst (if_pos h)

theorem decodeBase_of_match (h : MatchesLookup db ctx) :
    decodeBase db ctx stale insn =
      (true, tryEncoding db stale (lookedUp db ctx) (startState ctx insn)) :=
  decodeEncoding_of_match db stale _ h

/-- The state behind the base decode. -/
def baseState : Internal := (decodeBase db ctx stale insn).2

theorem baseState_holds (h : MatchesLookup db ctx) :
    (baseState db ctx stale insn).opcode = fetchOpcode ctx ∧
      (baseState db ctx stale insn).insn.attributes.isUndefined = false := by
  rw [baseState, decodeBase_of_match db ctx stale insn h]
  have hholds := tryEncoding_holds db stale (lookedUp db ctx) (startState ctx insn)
  exact ⟨hholds.opcode, hholds.isUndefined⟩

/-- The alias that the alias step decodes, if it runs. -/
def chosenAlias : Option Nat :=
  if wantsAlias db ctx (baseState db ctx stale insn) then
    selectAlias db (fetchOpcode ctx) (lookedUp db ctx)
  else none

theorem selectAlias_matches {opcode : BitVec 32} {encoding palias : Nat}
    (h : selectAlias db opcode encoding = some palias) :
    opcode &&& (db.encodings palias).mask = (db.encodings palias).opcode := by
  have hfound := List.find?_some h
  rw [Bool.and_eq_true, decide_eq_true_eq] at hfound
  exact hfound.1

/-- Set `is_alias`. -/
def markAlias (insn : Insn) : Insn := { insn with attributes.isAlias := true }

theorem aliasStep_of_some {palias : Nat} (hmatch : MatchesLookup db ctx)
    (h : chosenAlias db ctx stale insn = some palias) :
    (aliasStep db ctx stale (baseState db ctx stale insn)).insn =
      markAlias (tryEncoding db stale palias (baseState db ctx stale insn)).insn := by
  have hopcode := (baseState_holds db ctx stale insn hmatch).1
  unfold chosenAlias at h
  split at h
  · rename_i hwants
    have hdecode := decodeEncoding_of_match db stale palias
      (s := baseState db ctx stale insn) (by rw [hopcode]; exact selectAlias_matches db h)
    have halias : decodeAlias db stale (db.lookupA64 (fetchOpcode ctx))
        (baseState db ctx stale insn) =
          (true, tryEncoding db stale palias (baseState db ctx stale insn)) := by
      rw [decodeAlias, hopcode]
      change selectAlias db (fetchOpcode ctx) (db.lookupA64 (fetchOpcode ctx)) = _ at h
      rw [h]
      exact hdecode
    rw [aliasStep, if_pos hwants, halias]
    rfl
  · cases h

theorem aliasStep_of_none (hmatch : MatchesLookup db ctx)
    (h : chosenAlias db ctx stale insn = none) :
    aliasStep db ctx stale (baseState db ctx stale insn) = baseState db ctx stale insn := by
  have hopcode := (baseState_holds db ctx stale insn hmatch).1
  unfold aliasStep
  split
  · rename_i hwants
    have hnone : selectAlias db (fetchOpcode ctx) (db.lookupA64 (fetchOpcode ctx)) = none := by
      rwa [chosenAlias, if_pos hwants] at h
    rw [decodeAlias, hopcode, hnone]
    rfl
  · rfl

theorem decodeInsn_of_match (hlength : ctx.length ≠ 0) (hmatch : MatchesLookup db ctx) :
    decodeInsn db ctx stale insn =
      (true, (aliasStep db ctx stale (baseState db ctx stale insn)).insn) := by
  have hbase : (decodeBase db ctx stale insn).1 = true := by
    rw [decodeBase_of_match db ctx stale insn hmatch]
  rw [decodeInsn, if_neg hlength]
  dsimp only
  rw [hbase]
  rfl

theorem decodeInsn_fst :
    (decodeInsn db ctx stale insn).1 = decide (ctx.length ≠ 0 ∧ MatchesLookup db ctx) := by
  by_cases hlength : ctx.length = 0
  · rw [decodeInsn, if_pos hlength]
    simp [hlength]
  · by_cases hmatch : MatchesLookup db ctx
    · rw [decodeInsn_of_match db ctx stale insn hlength hmatch]
      simp [hlength, hmatch]
    · rw [decodeInsn, if_neg hlength]
      simp only [hmatch, and_false, decide_false]
      exact decodeEncoding_of_mismatch db stale hmatch

end Steps

/-! ## Success -/

section Success

variable (db : Db) (ctx : Context) (stale : Argument) (insn : Insn)

/-- The encoding an instruction is decoded as: the alias, if one is decoded. -/
def selectedEncoding : Nat := (chosenAlias db ctx stale insn).getD (lookedUp db ctx)

/-- What success is to mean: the instruction comes from one template of the selected encoding that
can be decoded, and without such a template there is no success. -/
structure FullyDecoded : Prop where
  success : (decodeInsn db ctx stale insn).1 = true →
    (decodeInsn db ctx stale insn).2.attributes.isUndefined = false →
      ∃ t ∈ candidates db (db.encodings (selectedEncoding db ctx stale insn)),
        templateDecodes db (fetchOpcode ctx) t = true ∧
          FromTemplate db stale (fetchOpcode ctx) (selectedEncoding db ctx stale insn) t
            (decodeInsn db ctx stale insn).2
  failure : encodingDecodes db (fetchOpcode ctx) (selectedEncoding db ctx stale insn) = false →
    (decodeInsn db ctx stale insn).1 = false

theorem tryEncoding_from (encoding : Nat) {s : Internal}
    (h : encodingDecodes db s.opcode encoding = true) :
    ∃ t ∈ candidates db (db.encodings encoding), templateDecodes db s.opcode t = true ∧
      FromTemplate db stale s.opcode encoding t (tryEncoding db stale encoding s).insn :=
  tryTemplates_from db stale (s := enterEncoding db encoding s) h

/-- Where a template of the selected encoding can be decoded, the instruction comes from it. -/
theorem decodeInsn_from (hlength : ctx.length ≠ 0) (hmatch : MatchesLookup db ctx)
    (h : encodingDecodes db (fetchOpcode ctx) (selectedEncoding db ctx stale insn) = true) :
    ∃ t ∈ candidates db (db.encodings (selectedEncoding db ctx stale insn)),
      templateDecodes db (fetchOpcode ctx) t = true ∧
        FromTemplate db stale (fetchOpcode ctx) (selectedEncoding db ctx stale insn) t
          (decodeInsn db ctx stale insn).2 := by
  rw [decodeInsn_of_match db ctx stale insn hlength hmatch]
  cases halias : chosenAlias db ctx stale insn with
  | none =>
      rw [selectedEncoding, halias] at h ⊢
      rw [aliasStep_of_none db ctx stale insn hmatch halias, baseState,
        decodeBase_of_match db ctx stale insn hmatch]
      exact tryEncoding_from db stale _ (s := startState ctx insn) h
  | some palias =>
      rw [selectedEncoding, halias] at h ⊢
      rw [aliasStep_of_some db ctx stale insn hmatch halias]
      have hopcode := (baseState_holds db ctx stale insn hmatch).1
      obtain ⟨t, ht, hdecodes, hfrom⟩ := tryEncoding_from db stale palias
        (s := baseState db ctx stale insn) (by rw [hopcode]; exact h)
      rw [hopcode] at hdecodes hfrom
      exact ⟨t, ht, hdecodes, { hfrom with }⟩

/-- Success means a decoded template exactly where there is no success, or the selected encoding
has a template that can be decoded. -/
theorem fullyDecoded_iff :
    FullyDecoded db ctx stale insn ↔
      ctx.length = 0 ∨ ¬MatchesLookup db ctx ∨
        encodingDecodes db (fetchOpcode ctx) (selectedEncoding db ctx stale insn) = true := by
  constructor
  · intro h
    by_contra hnot
    simp only [not_or, not_not, Bool.not_eq_true] at hnot
    obtain ⟨hlength, hmatch, hdecodes⟩ := hnot
    have hok := h.failure hdecodes
    rw [decodeInsn_fst] at hok
    exact absurd hok (by simp [hlength, hmatch])
  · intro h
    constructor
    · intro hok _
      rw [decodeInsn_fst, decide_eq_true_eq] at hok
      obtain ⟨hlength, hmatch⟩ := hok
      exact decodeInsn_from db ctx stale insn hlength hmatch
        ((h.resolve_left hlength).resolve_left (not_not.mpr hmatch))
    · intro hdecodes
      rw [decodeInsn_fst, decide_eq_false_iff_not]
      rintro ⟨hlength, hmatch⟩
      rcases h with h | h | h
      · exact hlength h
      · exact h hmatch
      · rw [hdecodes] at h
        cases h

open Excerpt in
/-- `DUP (element)` with `imm5` = 10000, for which no template is there. -/
theorem not_fullyDecoded_dup :
    ¬∀ (db : Db) (ctx : Context) (stale : Argument) (insn : Insn),
      FullyDecoded db ctx stale insn := by
  intro h
  have hok := (h tables (contextOf 0x2c 0x05 0x10 0x5e 4 false) default default).failure (by decide)
  exact absurd hok (by decide)

end Success

end Amed.AArch64

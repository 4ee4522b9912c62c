import Amed.AArch64.Outcome
import Amed.AArch32.Outcome

/-!
# Words that no encoding has

A lookup answers 0 where its tree ends nowhere. Entry 0 of both databases is the invalid record,
whose mask is empty, so that every word matches it: what a miss should be caught by is decoded as
the instruction `INVALID`.
-/

namespace Amed

open Search

/-! ## AArch64 -/

namespace AArch64

/-- The tables as the generator writes them: entry 0 is the invalid record, and the lookup answers
with an index of an entry. -/
structure GeneratedDb extends Db where
  count : Nat
  lookup_lt : ∀ opcode, toDb.lookupA64 opcode < count
  invalid_mask : (encodings 0).mask = 0
  invalid_opcode : (encodings 0).opcode = 0

variable (d : GeneratedDb) (ctx : Context) (stale : Argument) (insn : Insn)

/-- A word that a real encoding has. -/
def GeneratedDb.Allocated (opcode : BitVec 32) : Prop :=
  ∃ i, 0 < i ∧ i < d.count ∧ opcode &&& (d.encodings i).mask = (d.encodings i).opcode

/-- A word that no real encoding has is not decoded as a defined instruction. -/
def MissCaught : Prop :=
  ¬d.Allocated (fetchOpcode ctx) →
    (decodeInsn d.toDb ctx stale insn).1 = false ∨
      (decodeInsn d.toDb ctx stale insn).2.attributes.isUndefined = true

theorem aliasStep_isUndefined (db : Db) (h : MatchesLookup db ctx) :
    (aliasStep db ctx stale (baseState db ctx stale insn)).insn.attributes.isUndefined = false := by
  have hbase := (baseState_holds db ctx stale insn h).2
  cases hchosen : chosenAlias db ctx stale insn with
  | none =>
      rw [aliasStep_of_none db ctx stale insn h hchosen]
      exact hbase
  | some palias =>
      rw [aliasStep_of_some db ctx stale insn h hchosen]
      exact (tryEncoding_holds db stale palias _).isUndefined.trans hbase

theorem missCaught_iff :
    MissCaught d ctx stale insn ↔
      ctx.length = 0 ∨ d.Allocated (fetchOpcode ctx) ∨ d.lookupA64 (fetchOpcode ctx) ≠ 0 := by
  constructor
  · intro h
    by_contra hnot
    simp only [not_or, not_not] at hnot
    obtain ⟨hlength, hnone, hmiss⟩ := hnot
    have hlooked : lookedUp d.toDb ctx = 0 := hmiss
    have hmatch : MatchesLookup d.toDb ctx := by
      rw [MatchesLookup, hlooked, d.invalid_mask, d.invalid_opcode]
      exact BitVec.and_zero
    have hout := h hnone
    rw [decodeInsn_of_match d.toDb ctx stale insn hlength hmatch,
      aliasStep_isUndefined ctx stale insn d.toDb hmatch] at hout
    simp at hout
  · intro h hnone
    left
    rw [decodeInsn_fst, decide_eq_false_iff_not]
    rintro ⟨hlength, hmatch⟩
    rcases h with h | h | h
    · exact hlength h
    · exact hnone h
    · exact hnone ⟨_, Nat.pos_of_ne_zero h, d.lookup_lt _, hmatch⟩

end AArch64

/-! ## AArch32 -/

namespace AArch32

/-- The tables as the generator writes them: entry 0 is the invalid record with the template of
`INVALID`, and the lookups answer with an index of an entry. -/
structure GeneratedDb extends Db where
  count : Nat
  lookup_lt : ∀ isa opcode, toDb.lookup isa opcode < count
  invalid_mask : (encodings 0).mask = 0
  invalid_opcode : (encodings 0).opcode = 0
  invalid_templates : candidates toDb (encodings 0) = [0]
  invalid_hasAlias : (encodings 0).hasAlias = false
  invalid_conditions : ∀ opcode inItBlock, conditionsHold toDb opcode inItBlock 0 = true
  invalid_arguments : arguments (templates 0).arguments = []
  invalid_cond : (templates 0).cond = .uncond
  invalid_iform : (templates 0).iform ≠ iformIt

variable (d : GeneratedDb) (ctx : Context) (stale : Internal) (insn : Insn)

/-- A word that a real encoding has. -/
def GeneratedDb.Allocated (opcode : BitVec 32) : Prop :=
  ∃ i, 0 < i ∧ i < d.count ∧ opcode &&& (d.encodings i).mask = (d.encodings i).opcode

/-- A word that no real encoding has is not decoded as a defined instruction. -/
def MissCaught : Prop :=
  ∀ isa opcode, fetchOpcode ctx = some (isa, opcode) → ¬d.Allocated opcode →
    (decodeInsn d.toDb ctx stale insn).1 = false ∨
      (decodeInsn d.toDb ctx stale insn).2.1.attributes.isUndefined = true

theorem decodeInsn_of_fetched {db : Db} (hlength : ctx.length ≠ 0) {isa : Isa}
    {opcode : BitVec 32} (h : fetchOpcode ctx = some (isa, opcode)) :
    decodeInsn db ctx stale insn =
      ((decodeFetched db ctx stale insn isa opcode).1,
        (decodeFetched db ctx stale insn isa opcode).2.insn,
        (decodeFetched db ctx stale insn isa opcode).2.context) := by
  rw [decodeInsn, if_neg hlength, h]

/-- The template of `INVALID` is decoded, and leaves `is_undefined` alone. -/
theorem decodeTemplate_invalid (s : Internal) :
    (decodeTemplate d.toDb 0 s).1 = true ∧
      (decodeTemplate d.toDb 0 s).2.insn.attributes.isUndefined =
        s.insn.attributes.isUndefined := by
  have hdecodes : templateDecodes d.toDb s.opcode (isInsnInItBlock s) 0 = true := by
    rw [templateDecodes, d.invalid_conditions, d.invalid_arguments]
    rfl
  refine ⟨(decodeTemplate_fst d.toDb 0 s).trans hdecodes, ?_⟩
  rw [decodeTemplate_eq, if_pos (d.invalid_conditions _ _), if_pos hdecodes]
  have hptemplate := enteredNodes_ptemplate d.toDb 0 s
  have hentered : (enteredNodes d.toDb 0 s).2.insn.attributes.isUndefined =
      s.insn.attributes.isUndefined :=
    congrArg Tags.isUndefined (enteredNodes_leaves d.toDb 0 s).tags
  rw [← hentered]
  generalize (enteredNodes d.toDb 0 s).2 = s' at hptemplate
  have hiform : (d.templates s'.ptemplate).iform ≠ iformIt := by
    rw [hptemplate]
    exact d.invalid_iform
  change (decodeExecution d.toDb s').insn.attributes.isUndefined = _
  unfold decodeExecution
  split
  · simp [decodeArmConditionalExecution, decodeConditionalExecution, hptemplate, d.invalid_cond,
      checkCondition]
  · simp [decodeThumbConditionalExecution, decodeConditionalExecution, hptemplate, d.invalid_cond,
      checkCondition]

/-- A miss is decoded as the instruction `INVALID`. -/
theorem decodeFetched_miss {isa : Isa} {opcode : BitVec 32} (h : d.lookup isa opcode = 0) :
    (decodeFetched d.toDb ctx stale insn isa opcode).1 = true ∧
      (decodeFetched d.toDb ctx stale insn isa opcode).2.insn.attributes.isUndefined = false := by
  let s : Internal := startState ctx stale insn isa opcode
  obtain ⟨hok, hdefined⟩ := decodeTemplate_invalid d { s with encoding := 0 }
  have hbase : decodeEncoding d.toDb (d.lookup isa opcode) s =
      decodeTemplate d.toDb 0 { s with encoding := 0 } := by
    have hmatch : s.opcode &&& (d.encodings 0).mask = (d.encodings 0).opcode := by
      rw [d.invalid_mask, d.invalid_opcode]
      exact BitVec.and_zero
    rw [h, decodeEncoding]
    dsimp only
    rw [if_neg (not_not.mpr hmatch), d.invalid_templates]
    exact tryEach_of_accepted [] hok
  have hwants : wantsAlias d.toDb ctx (d.lookup isa opcode)
      (baseState d.toDb ctx stale insn isa opcode) = false := by
    rw [wantsAlias, h, d.invalid_hasAlias, Bool.and_false, Bool.false_and]
  have hdecodes : baseDecodes d.toDb ctx stale insn isa opcode = true :=
    (congrArg Prod.fst hbase).trans hok
  rw [decodeFetched_eq, hdecodes, if_pos rfl, aliasStep, hwants, if_neg Bool.false_ne_true]
  refine ⟨rfl, ?_⟩
  change (decodeEncoding d.toDb (d.lookup isa opcode) s).2.insn.attributes.isUndefined = false
  rw [hbase, hdefined]
  rfl

theorem missCaught_iff :
    MissCaught d ctx stale insn ↔
      ∀ isa opcode, fetchOpcode ctx = some (isa, opcode) →
        ctx.length = 0 ∨ d.Allocated opcode ∨ d.lookup isa opcode ≠ 0 := by
  refine forall_congr' fun isa => forall_congr' fun opcode => forall_congr' fun hfetch => ?_
  constructor
  · intro h
    by_contra hnot
    simp only [not_or, not_not] at hnot
    obtain ⟨hlength, hnone, hmiss⟩ := hnot
    obtain ⟨hok, hdefined⟩ := decodeFetched_miss d ctx stale insn hmiss
    have hout := h hnone
    rw [decodeInsn_of_fetched ctx stale insn hlength hfetch, hok, hdefined] at hout
    simp at hout
  · intro h hnone
    left
    by_cases hlength : ctx.length = 0
    · rw [decodeInsn, if_pos hlength]
    · have hreal : d.lookup isa opcode ≠ 0 := (h.resolve_left hlength).resolve_left hnone
      rw [decodeInsn_of_fetched ctx stale insn hlength hfetch]
      change (decodeEncoding d.toDb (d.lookup isa opcode)
        (startState ctx stale insn isa opcode)).1 = false
      rw [Bool.eq_false_iff]
      intro hok
      have hmatch := ((decodeEncoding_fst_iff d.toDb _ _).mp hok).1
      exact hnone ⟨_, Nat.pos_of_ne_zero hreal, d.lookup_lt isa opcode, hmatch⟩

end AArch32

/-! ## Both decoders -/

/-- A word that no real encoding has is caught exactly where its lookup does not answer 0: the entry
it ends in then fails its own comparison. -/
theorem missCaught_both (d : AArch64.GeneratedDb) (stale : Argument) (d' : AArch32.GeneratedDb)
    (stale' : AArch32.Internal) (ctx : Context) (insn : Insn) :
    (AArch64.MissCaught d ctx stale insn ↔
        ctx.length = 0 ∨ d.Allocated (AArch64.fetchOpcode ctx) ∨
          d.lookupA64 (AArch64.fetchOpcode ctx) ≠ 0) ∧
      (AArch32.MissCaught d' ctx stale' insn ↔
        ∀ isa opcode, AArch32.fetchOpcode ctx = some (isa, opcode) →
          ctx.length = 0 ∨ d'.Allocated opcode ∨ d'.lookup isa opcode ≠ 0) :=
  ⟨AArch64.missCaught_iff d ctx stale insn, AArch32.missCaught_iff d' ctx stale' insn⟩

/-- The invalid record and `ADC` with its lookup. -/
def adcTables : AArch64.GeneratedDb where
  encodings := fun i =>
    if i = 1 then { opcode := 0x1a000000, mask := 0xffe0fc00, firstTemplate := 1, templateCount := 1 }
    else { opcode := 0, mask := 0, firstTemplate := 0, templateCount := 1 }
  templates := fun i => if i = 1 then { iform := 2 } else { iform := 1, bitdiffs := 1 }
  bitdiffs := fun _ => ⟨0, 0⟩
  encodedins := fun _ => []
  arguments := fun _ => []
  aliases := fun _ => []
  reginfo := fun _ => { symbol := .none, size := 0, isEven := false, isLast := false }
  iform2mnem := id
  iflags := fun _ => []
  aliascond := fun _ _ => false
  a64 := .ifThen (.entry 0xffe0fc00 0x1a000000 []) (.leaf 1) .empty
  count := 2
  lookup_lt := by
    intro opcode
    unfold AArch64.Db.lookupA64 Generator.Tree.walk
    split
    · rw [Generator.Tree.walk]
      exact Nat.one_lt_two
    · rw [Generator.Tree.walk]
      exact Nat.zero_lt_two
  invalid_mask := rfl
  invalid_opcode := rfl

/-- The word CD613E30 is no instruction, and is decoded as one. -/
theorem not_missCaught_cd613e30 :
    ¬∀ (d : AArch64.GeneratedDb) (ctx : Context) (stale : Argument) (insn : Insn),
      AArch64.MissCaught d ctx stale insn := by
  intro h
  have hout := h adcTables (AArch64.Excerpt.contextOf 0x30 0x3e 0x61 0xcd 4 false) default default
    (by
      rintro ⟨i, hpos, hlt, hmatch⟩
      obtain rfl : i = 1 := by
        have hcount : adcTables.count = 2 := rfl
        omega
      exact absurd hmatch (by decide))
  exact absurd hout (by decide)

end Amed

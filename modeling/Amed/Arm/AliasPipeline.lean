import Mathlib.Data.List.Find
import Amed.Generator.AliasTables
import Amed.Arm.Pipeline

/-!
# From the records to the alias

Over tables that are made of one list of records, the alias step of the decoders looks for an alias
among the records that landed on the base encoding, in their order, and takes the first whose
fixed bits and whose own condition hold.

## Implementation notes

`value` evaluates the C expressions of the conditions. The index of the condition and the index of
the row are members of one union, which the tables hold as `aliascond`.
-/

namespace Amed

open Generator

/-- The first alias of the record at `p` that passes. -/
def FirstAlias (records : List ConditionRecord) (p : Nat) (fits : Nat → Bool)
    (value : List Char → Bool) (q : Nat) : Prop :=
  LandsOn (records.map ConditionRecord.toAliasRecord) q p ∧ AliasPasses records fits value q ∧
    ∀ q' < q, LandsOn (records.map ConditionRecord.toAliasRecord) q' p →
      ¬AliasPasses records fits value q'

/-- A base encoding, none of whose aliases has an alias. -/
structure BaseRecord (records : List ConditionRecord) (p : Nat) : Prop where
  base : ∃ e, records[p]? = some e ∧ e.aliasof = none
  plain : ∀ q, LandsOn (records.map ConditionRecord.toAliasRecord) q p →
    ∀ q', ¬LandsOn (records.map ConditionRecord.toAliasRecord) q' q

/-- The search of a decoder whose tables agree with those of the records, on the aliases of a base
encoding. -/
theorem find?_eq_some_iff_firstAlias {name : List Char} {records : List ConditionRecord}
    (hfits : (aliasTables name records).Fits) {p : Nat} (hp : BaseRecord records p)
    (fits : Nat → Bool) (value : List Char → Bool) {union : Nat → Nat} {row : List Nat}
    (hunion : ∀ q < records.length, union q = (aliasTables name records).union q)
    (hrow : row = readRow (aliasTables name records).rows.sequence (union p)) (q : Nat) :
    (row.find? fun q => fits q &&
      value (aliascondFunction (aliasTables name records).conditions.aliascond (union q))) =
        some q ↔ FirstAlias records p fits value q := by
  obtain ⟨e, he, hbase⟩ := hp.base
  rw [hunion p (List.getElem?_eq_some_iff.mp he).choose] at hrow
  rw [FirstAlias, ← find?_aliases_iff hfits he hbase hp.plain fits value q, hrow]
  apply Eq.congr_left
  apply List.find?_congr
  intro q hq
  rw [readRow_union hfits he hbase, (AliasState.process_holds records).registry,
    (process_holds _).aliases] at hq
  obtain ⟨id, hid, -⟩ := hq
  have hlt := lt_of_aliasofAt hid
  rw [List.length_map] at hlt
  rw [hunion q hlt]

/-! ## AArch64 -/

namespace AArch64

/-- The alias tables are made of the records. -/
structure AliasesFrom (db : Db) (name : List Char) (records : List ConditionRecord)
    (value : List Char → BitVec 32 → Bool) : Prop where
  fits : (aliasTables name records).Fits
  union : ∀ q < records.length, (db.encodings q).aliascond = (aliasTables name records).union q
  hasAlias : ∀ p, (aliasTables name records).conditions.registry.aliases (.record p) ≠ [] →
    (db.encodings p).hasAlias = true
  aliases : ∀ index, db.aliases index =
    readRow (aliasTables name records).rows.sequence index
  aliascond : ∀ index opcode, db.aliascond index opcode =
    value (aliascondFunction (aliasTables name records).conditions.aliascond index) opcode

/-- The fixed bits of an encoding. -/
def hasBits (db : Db) (opcode : BitVec 32) (q : Nat) : Bool :=
  opcode &&& (db.encodings q).mask = (db.encodings q).opcode

variable {db : Db} {name : List Char} {records : List ConditionRecord}
  {value : List Char → BitVec 32 → Bool}

theorem AliasesFrom.selectAlias_iff (h : AliasesFrom db name records value) {p : Nat}
    (hp : BaseRecord records p) (opcode : BitVec 32) (q : Nat) :
    selectAlias db opcode p = some q ↔
      FirstAlias records p (hasBits db opcode) (value · opcode) q := by
  rw [← find?_eq_some_iff_firstAlias h.fits hp (hasBits db opcode) (value · opcode) h.union
    (h.aliases _) q, selectAlias]
  simp only [h.aliascond]
  rfl

/-- A record with an alias is marked as one that has aliases. -/
theorem AliasesFrom.hasAlias_of_landsOn (h : AliasesFrom db name records value) {p q : Nat}
    (hq : LandsOn (records.map ConditionRecord.toAliasRecord) q p) :
    (db.encodings p).hasAlias = true := by
  apply h.hasAlias p
  change (AliasState.process records).registry.aliases (.record p) ≠ []
  rw [(AliasState.process_holds records).registry]
  exact List.ne_nil_of_mem (((process_holds _).aliases p q).mpr hq)

/-- The base decode leads to the alias step. -/
def AliasWanted (db : Db) (ctx : Context) (stale : Argument) (insn : Insn) : Prop :=
  ctx.decodeAliases = true ∧
    (baseState db ctx stale insn).insn.attributes.isUndefined = false ∧
      (baseState db ctx stale insn).insn.attributes.isUnpredictable = false

theorem AliasesFrom.chosenAlias_iff (h : AliasesFrom db name records value) (ctx : Context)
    (stale : Argument) (insn : Insn) (hp : BaseRecord records (lookedUp db ctx)) (q : Nat) :
    chosenAlias db ctx stale insn = some q ↔
      AliasWanted db ctx stale insn ∧
        FirstAlias records (lookedUp db ctx) (hasBits db (fetchOpcode ctx))
          (value · (fetchOpcode ctx)) q := by
  rw [← h.selectAlias_iff hp, chosenAlias]
  by_cases hselect : selectAlias db (fetchOpcode ctx) (lookedUp db ctx) = some q
  · have hhas := h.hasAlias_of_landsOn ((h.selectAlias_iff hp _ q).mp hselect).1
    have hwants : wantsAlias db ctx (baseState db ctx stale insn) = true ↔
        AliasWanted db ctx stale insn := by
      change (_ && (db.encodings (lookedUp db ctx)).hasAlias && !(_ || _)) = true ↔ _
      rw [hhas, AliasWanted, Bool.and_true, Bool.and_eq_true, Bool.not_eq_true', Bool.or_eq_false_iff]
    rw [hselect, ← hwants]
    split <;> simp_all
  · have hnone : ¬(if wantsAlias db ctx (baseState db ctx stale insn) then
        selectAlias db (fetchOpcode ctx) (lookedUp db ctx) else none) = some q := by
      split
      · exact hselect
      · simp
    exact iff_of_false hnone fun hboth => hselect hboth.2

end AArch64

/-! ## AArch32 -/

namespace AArch32

/-- The alias tables are made of the records. -/
structure AliasesFrom (db : Db) (name : List Char) (records : List ConditionRecord)
    (value : List Char → BitVec 32 → Bool → Bool) : Prop where
  fits : (aliasTables name records).Fits
  union : ∀ q < records.length, (db.encodings q).aliascond = (aliasTables name records).union q
  hasAlias : ∀ p, (aliasTables name records).conditions.registry.aliases (.record p) ≠ [] →
    (db.encodings p).hasAlias = true
  aliases : ∀ index, db.aliases index =
    readRow (aliasTables name records).rows.sequence index
  aliascond : ∀ index opcode inItBlock, db.aliascond index opcode inItBlock =
    value (aliascondFunction (aliasTables name records).conditions.aliascond index) opcode inItBlock

/-- The fixed bits of an encoding. -/
def hasBits (db : Db) (opcode : BitVec 32) (q : Nat) : Bool :=
  opcode &&& (db.encodings q).mask = (db.encodings q).opcode

variable {db : Db} {name : List Char} {records : List ConditionRecord}
  {value : List Char → BitVec 32 → Bool → Bool}

theorem AliasesFrom.selectAlias_iff (h : AliasesFrom db name records value) {p : Nat}
    (hp : BaseRecord records p) (s : Internal) (q : Nat) :
    selectAlias db s p = some q ↔
      FirstAlias records p (hasBits db s.opcode) (value · s.opcode (isInsnInItBlock s)) q := by
  rw [← find?_eq_some_iff_firstAlias h.fits hp (hasBits db s.opcode)
    (value · s.opcode (isInsnInItBlock s)) h.union (h.aliases _) q, selectAlias]
  simp only [h.aliascond]
  rfl

/-- A record with an alias is marked as one that has aliases. -/
theorem AliasesFrom.hasAlias_of_landsOn (h : AliasesFrom db name records value) {p q : Nat}
    (hq : LandsOn (records.map ConditionRecord.toAliasRecord) q p) :
    (db.encodings p).hasAlias = true := by
  apply h.hasAlias p
  change (AliasState.process records).registry.aliases (.record p) ≠ []
  rw [(AliasState.process_holds records).registry]
  exact List.ne_nil_of_mem (((process_holds _).aliases p q).mpr hq)

variable (ctx : Context) (stale : Internal) (insn : Insn) (isa : Isa) (opcode : BitVec 32)

/-- The base decode leads to the alias step. -/
def AliasWanted (db : Db) : Prop :=
  ctx.decodeAliases = true ∧
    (baseState db ctx stale insn isa opcode).insn.attributes.isUndefined = false ∧
      (baseState db ctx stale insn isa opcode).insn.attributes.isUnpredictable = false

theorem AliasesFrom.chosenAlias_iff (h : AliasesFrom db name records value)
    (hp : BaseRecord records (db.lookup isa opcode)) (q : Nat) :
    chosenAlias db ctx stale insn isa opcode = some q ↔
      AliasWanted ctx stale insn isa opcode db ∧
        FirstAlias records (db.lookup isa opcode) (hasBits db opcode)
          (value · opcode (isInsnInItBlock (baseState db ctx stale insn isa opcode))) q := by
  have hopcode := baseState_opcode db ctx stale insn isa opcode
  have hselects := h.selectAlias_iff hp (baseState db ctx stale insn isa opcode) q
  rw [hopcode] at hselects
  rw [← hselects, chosenAlias]
  by_cases hselect : selectAlias db (baseState db ctx stale insn isa opcode)
      (db.lookup isa opcode) = some q
  · have hhas := h.hasAlias_of_landsOn (hselects.mp hselect).1
    have hwants : wantsAlias db ctx (db.lookup isa opcode)
        (baseState db ctx stale insn isa opcode) = true ↔
          AliasWanted ctx stale insn isa opcode db := by
      rw [wantsAlias, hhas, AliasWanted, Bool.and_true, Bool.and_eq_true, Bool.not_eq_true',
        Bool.or_eq_false_iff]
    rw [hselect, ← hwants]
    split <;> simp_all
  · have hnone : ¬(if wantsAlias db ctx (db.lookup isa opcode)
        (baseState db ctx stale insn isa opcode) then
          selectAlias db (baseState db ctx stale insn isa opcode) (db.lookup isa opcode)
        else none) = some q := by
      split
      · exact hselect
      · simp
    exact iff_of_false hnone fun hboth => hselect hboth.2

end AArch32

/-! ## Both decoders -/

/-- The alias step of both decoders decodes an alias exactly where it is wanted and the alias is the
first of the base encoding, in the order of the records, whose fixed bits and whose own condition
hold. -/
theorem chosenAlias_both {db : AArch64.Db} {db' : AArch32.Db} {name name' : List Char}
    {records records' : List ConditionRecord} {value : List Char → BitVec 32 → Bool}
    {value' : List Char → BitVec 32 → Bool → Bool} (h : AArch64.AliasesFrom db name records value)
    (h' : AArch32.AliasesFrom db' name' records' value') (ctx : Context) (stale : Argument)
    (stale' : AArch32.Internal) (insn : Insn) :
    (BaseRecord records (AArch64.lookedUp db ctx) →
        ∀ q, AArch64.chosenAlias db ctx stale insn = some q ↔
          AArch64.AliasWanted db ctx stale insn ∧
            FirstAlias records (AArch64.lookedUp db ctx)
              (AArch64.hasBits db (AArch64.fetchOpcode ctx))
              (value · (AArch64.fetchOpcode ctx)) q) ∧
      ∀ isa opcode, BaseRecord records' (db'.lookup isa opcode) →
        ∀ q, AArch32.chosenAlias db' ctx stale' insn isa opcode = some q ↔
          AArch32.AliasWanted ctx stale' insn isa opcode db' ∧
            FirstAlias records' (db'.lookup isa opcode) (AArch32.hasBits db' opcode)
              (value' · opcode (AArch32.isInsnInItBlock
                (AArch32.baseState db' ctx stale' insn isa opcode))) q :=
  ⟨fun hp => h.chosenAlias_iff ctx stale insn hp,
    fun isa opcode hp => h'.chosenAlias_iff ctx stale' insn isa opcode hp⟩

/-- `SBFM` behind another encoding, with two aliases. -/
def sampleConditions : List ConditionRecord :=
  [{ id := "NOP" }, { id := "SBFM" },
    { id := "SXTB", aliasof := some "SBFM", condition := "(imms == 7)".toList },
    { id := "ASR", aliasof := some "SBFM", condition := "(imms == 31)".toList }]

/-- The conditions of the sample. -/
def sampleValue (condition : List Char) (opcode : BitVec 32) : Bool :=
  if condition = "(imms == 7)".toList then opcode.extractLsb' 10 6 = 7
  else if condition = "(imms == 31)".toList then opcode.extractLsb' 10 6 = 31
  else false

/-- The pattern of `SBFM`, and the row of the alias tables. -/
def sampleAliasA64 : AArch64.Db :=
  { AArch64.Excerpt.tables with
    a64 := .leaf 1
    encodings := fun i =>
      { opcode := 0x13000000
        mask := 0x7f800000
        firstTemplate := i
        templateCount := 1
        aliascond := (aliasTables [] sampleConditions).union i
        hasAlias := i = 1 }
    aliases := readRow (aliasTables [] sampleConditions).rows.sequence
    aliascond := fun index opcode =>
      sampleValue (aliascondFunction (aliasTables [] sampleConditions).conditions.aliascond index)
        opcode }

def sampleAliasA32 : AArch32.Db :=
  { AArch32.Excerpt.tables with
    encodings := fun i =>
      { opcode := 0
        mask := 0
        firstTemplate := i
        templateCount := 1
        aliascond := (aliasTables [] sampleConditions).union i
        hasAlias := i = 1 }
    aliases := readRow (aliasTables [] sampleConditions).rows.sequence
    aliascond := fun index opcode _ =>
      sampleValue (aliascondFunction (aliasTables [] sampleConditions).conditions.aliascond index)
        opcode }

/-- An alias with its base, among the records. -/
def namesBase (records : List AliasRecord) (q p : Nat) : Bool :=
  (aliasofAt records q).isSome && aliasofAt records q == idAt records p

theorem namesBase_of_landsOn {records : List AliasRecord} {q p : Nat} (h : LandsOn records q p) :
    q < records.length ∧ p < records.length ∧ namesBase records q p = true := by
  obtain ⟨id, hq, hp, -⟩ := h
  refine ⟨lt_of_aliasofAt hq, lt_of_idAt hp, ?_⟩
  rw [namesBase, hq, hp]
  simp

theorem sampleConditions_landsOn {q p : Nat}
    (h : LandsOn (sampleConditions.map ConditionRecord.toAliasRecord) q p) : p = 1 ∧ q ≠ 1 := by
  obtain ⟨hq, hp, hnames⟩ := namesBase_of_landsOn h
  have hall : ∀ q < 4, ∀ p < 4,
      namesBase (sampleConditions.map ConditionRecord.toAliasRecord) q p = true →
        p = 1 ∧ q ≠ 1 := by decide +kernel
  exact hall q hq p hp hnames

theorem sampleConditions_fits : (aliasTables [] sampleConditions).Fits where
  encodings := by decide +kernel
  conditions := by decide +kernel
  rows := by decide +kernel

theorem sampleConditions_hasAlias {p : Nat}
    (h : (aliasTables [] sampleConditions).conditions.registry.aliases (.record p) ≠ []) :
    p = 1 := by
  obtain ⟨q, hq⟩ := List.exists_mem_of_ne_nil _ h
  have hregistry := (AliasState.process_holds sampleConditions).registry
  change q ∈ (AliasState.process sampleConditions).registry.aliases (.record p) at hq
  rw [hregistry, (process_holds _).aliases] at hq
  exact (sampleConditions_landsOn hq).1

theorem sampleAliasA64_aliasesFrom :
    AArch64.AliasesFrom sampleAliasA64 [] sampleConditions sampleValue where
  fits := sampleConditions_fits
  union _ _ := rfl
  hasAlias _ h := decide_eq_true (sampleConditions_hasAlias h)
  aliases _ := rfl
  aliascond _ _ := rfl

theorem sampleAliasA32_aliasesFrom :
    AArch32.AliasesFrom sampleAliasA32 [] sampleConditions fun text opcode _ =>
      sampleValue text opcode where
  fits := sampleConditions_fits
  union _ _ := rfl
  hasAlias _ h := decide_eq_true (sampleConditions_hasAlias h)
  aliases _ := rfl
  aliascond _ _ _ := rfl

/-- The word 13007C00 is an `ASR`: its `imms` is 31. -/
theorem chosenAlias_asr :
    FirstAlias sampleConditions 1
      (AArch64.hasBits sampleAliasA64
        (AArch64.fetchOpcode (AArch64.Excerpt.contextOf 0x00 0x7c 0x00 0x13 4 true)))
      (sampleValue ·
        (AArch64.fetchOpcode (AArch64.Excerpt.contextOf 0x00 0x7c 0x00 0x13 4 true))) 3 := by
  refine (((chosenAlias_both sampleAliasA64_aliasesFrom sampleAliasA32_aliasesFrom
    (AArch64.Excerpt.contextOf 0x00 0x7c 0x00 0x13 4 true) default AArch32.Excerpt.blank
    default).1 ⟨⟨_, rfl, rfl⟩, fun q hq q' hq' => ?_⟩ 3).mp (by decide +kernel)).2
  exact (sampleConditions_landsOn hq).2 (sampleConditions_landsOn hq').1

end Amed

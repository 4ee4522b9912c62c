import Amed.Generator.IsaformLookup
import Amed.Arm.Miss
import Amed.AArch32.Excerpt

/-!
# From the records to a decoded instruction

Over tables that are made of one list of records, the decoders take a word for the most specific
record that describes it. A word that no record describes is refused, or taken for record 0, or
for a record that has its fixed bits although one of its constraints rules the word out: the
decoders compare the fixed bits once more, and the constraints are only tested where the tree needs
them to divide.
-/

namespace Amed

open Generator

/-- The opcode and the mask of a record in the generated table of the encodings. -/
def Generator.ArmRecord.pattern (r : ArmRecord) : BitVec 32 × BitVec 32 :=
  (BitVec.ofNat 32 r.opcode, BitVec.ofNat 32 r.mask)

/-- The comparison of `decode_encoding` with a record. -/
theorem Generator.ArmRecord.and_pattern_iff (r : ArmRecord) (opcode : BitVec 32) :
    opcode &&& r.pattern.2 = r.pattern.1 ↔ opcode.toNat &&& r.mask = r.opcode := by
  have hopcode := ArmRecord.lt_of_and_eq r.opcode_inside r.mask_lt
  rw [ArmRecord.pattern, ← BitVec.toNat_inj, BitVec.toNat_and, BitVec.toNat_ofNat,
    BitVec.toNat_ofNat, Nat.mod_eq_of_lt r.mask_lt, Nat.mod_eq_of_lt hopcode]

/-- A record that has the fixed bits of an opcode, while one of its constraints rules it out. -/
structure Excluded (records : List ArmRecord) (isaform : List Char) (opcode : BitVec 32)
    (i : Nat) (r : ArmRecord) : Prop where
  record : records[i]? = some r
  kept : r.kept isaform = true
  bits : opcode.toNat &&& r.mask = r.opcode
  excluded : ∃ word ∈ constraintWords r.cnsts, ∃ named values,
    Reads r.fields word named values ∧ Matches values (concatenation named opcode.toNat)

/-- An answer whose record has the fixed bits of the opcode. -/
theorem Generator.FindsRecord.candidate_or_excluded {records : List ArmRecord} {isaform : List Char}
    {opcode : BitVec 32} {answer : Nat} (h : FindsRecord records isaform opcode answer)
    (hne : answer ≠ 0)
    (hbits : ∀ r, records[answer]? = some r → opcode.toNat &&& r.mask = r.opcode) :
    ∃ r, Candidate records isaform opcode answer r ∨ Excluded records isaform opcode answer r := by
  obtain ⟨r, hr, hkept⟩ := h.answered hne
  refine ⟨r, ?_⟩
  by_cases hcnsts : ∀ word ∈ constraintWords r.cnsts, ∀ named values,
      Reads r.fields word named values → ¬Matches values (concatenation named opcode.toNat)
  · exact Or.inl ⟨hr, hkept, hbits r hr, hcnsts⟩
  · push Not at hcnsts
    exact Or.inr ⟨hr, hkept, hbits r hr, hcnsts⟩

/-! ## AArch64 -/

namespace AArch64

def isaformA64 : List Char := ['A', '6', '4']

/-- The tables are made of the records. -/
structure MadeFrom (db : Db) (records : List ArmRecord) : Prop where
  tree : ∃ fuel, getTree fuel (isaformEntries isaformA64 records) = some db.a64
  pattern : ∀ i r, records[i]? = some r →
    ((db.encodings i).opcode, (db.encodings i).mask) = r.pattern

variable {db : Db} {records : List ArmRecord} (ctx : Context) (stale : Argument) (insn : Insn)

theorem MadeFrom.finds (h : MadeFrom db records) (opcode : BitVec 32) :
    FindsRecord records isaformA64 opcode (db.lookupA64 opcode) := by
  obtain ⟨fuel, htree⟩ := h.tree
  exact walk_finds htree opcode

theorem MadeFrom.matches_iff (h : MadeFrom db records) {i : Nat} {r : ArmRecord}
    (hr : records[i]? = some r) (opcode : BitVec 32) :
    opcode &&& (db.encodings i).mask = (db.encodings i).opcode ↔
      opcode.toNat &&& r.mask = r.opcode := by
  obtain ⟨hopcode, hmask⟩ := Prod.mk.inj (h.pattern i r hr)
  rw [hopcode, hmask]
  exact r.and_pattern_iff opcode

/-- What the decoder makes of a word that a record describes. The tags are those of the record,
where no alias of it is decoded. -/
structure DecodesAs (db : Db) (records : List ArmRecord) (ctx : Context) (stale : Argument)
    (insn : Insn) : Prop where
  accepted : (decodeInsn db ctx stale insn).1 = true
  record : ∃ r, Candidate records isaformA64 (fetchOpcode ctx) (lookedUp db ctx) r ∧
    ∀ j r', Candidate records isaformA64 (fetchOpcode ctx) j r' → r'.specificity ≤ r.specificity
  tagged : aliasDecodes db stale ctx insn = false →
    encodingDecodes db (fetchOpcode ctx) (lookedUp db ctx) = true →
      Tagged db (lookedUp db ctx) (decodeInsn db ctx stale insn).2
  aliased : aliasDecodes db stale ctx insn = true →
    ∃ palias ∈ db.aliases (db.encodings (lookedUp db ctx)).aliases,
      chosenAlias db ctx stale insn = some palias ∧
        Tagged db palias (decodeInsn db ctx stale insn).2
  /-- A record without a template that can be decoded leaves the tags of the caller. -/
  untagged : aliasDecodes db stale ctx insn = false →
    encodingDecodes db (fetchOpcode ctx) (lookedUp db ctx) = false →
      Insn.tags (decodeInsn db ctx stale insn).2 =
        { Insn.tags insn with isAlias := (decodeInsn db ctx stale insn).2.attributes.isAlias }

theorem decodesAs_of_candidate (h : MadeFrom db records) (hlength : ctx.length ≠ 0)
    (hdescribed : ∃ i r, Candidate records isaformA64 (fetchOpcode ctx) i r) :
    DecodesAs db records ctx stale insn := by
  obtain ⟨r, hr, hbest⟩ := (h.finds (fetchOpcode ctx)).described hdescribed
  have hmatch : MatchesLookup db ctx := (h.matches_iff hr.record _).mpr hr.describes.bits
  have hok : (decodeInsn db ctx stale insn).1 = true := by
    rw [decodeInsn_fst, decide_eq_true_eq]
    exact ⟨hlength, hmatch⟩
  refine ⟨hok, ⟨r, hr, hbest⟩, fun hplain hdecodes => ?_, fun halias => ?_, fun hplain hnone => ?_⟩
  · have hfinal := finalEncoding_of_plain hplain
    rw [← hfinal] at hdecodes ⊢
    exact decodeInsn_tagged db stale ctx insn hok hdecodes
  · obtain ⟨palias, hchosen, hfinal⟩ := finalEncoding_of_alias halias
    refine ⟨palias, chosenAlias_mem hchosen, hchosen, ?_⟩
    rw [← hfinal]
    exact decodeInsn_tagged db stale ctx insn hok (encodingDecodes_of_alias db stale ctx insn halias)
  · rw [← finalEncoding_of_plain hplain] at hnone
    exact decodeInsn_untagged db stale ctx insn hok hnone

theorem excluded_of_accepted (h : MadeFrom db records)
    (hok : (decodeInsn db ctx stale insn).1 = true)
    (hnone : ¬∃ i r, Candidate records isaformA64 (fetchOpcode ctx) i r) :
    lookedUp db ctx = 0 ∨
      ∃ r, Excluded records isaformA64 (fetchOpcode ctx) (lookedUp db ctx) r := by
  rw [decodeInsn_fst, decide_eq_true_eq] at hok
  by_cases hzero : lookedUp db ctx = 0
  · exact Or.inl hzero
  · right
    obtain ⟨r, hcandidate | hexcluded⟩ := (h.finds (fetchOpcode ctx)).candidate_or_excluded hzero
      fun r hr => (h.matches_iff hr _).mp hok.2
    · exact absurd ⟨_, r, hcandidate⟩ hnone
    · exact ⟨r, hexcluded⟩

end AArch64

/-! ## AArch32 -/

namespace AArch32

def Isa.isaform : Isa → List Char
  | .a32 => ['A', '3', '2']
  | .t32 => ['T', '3', '2']
  | .t16 => ['T', '1', '6']

/-- The tables are made of the records. -/
structure MadeFrom (db : Db) (records : List ArmRecord) : Prop where
  tree : ∀ isa : Isa, ∃ fuel,
    getTree fuel (isaformEntries isa.isaform records) = some (db.trees isa)
  pattern : ∀ i r, records[i]? = some r →
    ((db.encodings i).opcode, (db.encodings i).mask) = r.pattern

variable {db : Db} {records : List ArmRecord} (ctx : Context) (stale : Internal) (insn : Insn)

theorem MadeFrom.finds (h : MadeFrom db records) (isa : Isa) (opcode : BitVec 32) :
    FindsRecord records isa.isaform opcode (db.lookup isa opcode) := by
  obtain ⟨fuel, htree⟩ := h.tree isa
  exact walk_finds htree opcode

theorem MadeFrom.matches_iff (h : MadeFrom db records) {i : Nat} {r : ArmRecord}
    (hr : records[i]? = some r) (opcode : BitVec 32) :
    opcode &&& (db.encodings i).mask = (db.encodings i).opcode ↔
      opcode.toNat &&& r.mask = r.opcode := by
  obtain ⟨hopcode, hmask⟩ := Prod.mk.inj (h.pattern i r hr)
  rw [hopcode, hmask]
  exact r.and_pattern_iff opcode

/-- What the decoder makes of a word that a record describes: it is accepted exactly where a
template of the record is. The tags are those of the record, where no alias of it is decoded. -/
structure DecodesAs (db : Db) (records : List ArmRecord) (ctx : Context) (stale : Internal)
    (insn : Insn) (isa : Isa) (opcode : BitVec 32) : Prop where
  record : ∃ r, Candidate records isa.isaform opcode (db.lookup isa opcode) r ∧
    ∀ j r', Candidate records isa.isaform opcode j r' → r'.specificity ≤ r.specificity
  accepted : (decodeFetched db ctx stale insn isa opcode).1 =
    encodingDecodes db opcode (isInsnInItBlock (startState ctx stale insn isa opcode))
      (db.lookup isa opcode)
  tagged : (decodeFetched db ctx stale insn isa opcode).1 = true →
    aliasDecodes db ctx stale insn isa opcode = false →
      Tagged db (db.lookup isa opcode) (decodeFetched db ctx stale insn isa opcode).2.insn
  aliased : (decodeFetched db ctx stale insn isa opcode).1 = true →
    aliasDecodes db ctx stale insn isa opcode = true →
      ∃ palias ∈ db.aliases (db.encodings (db.lookup isa opcode)).aliases,
        chosenAlias db ctx stale insn isa opcode = some palias ∧
          Tagged db palias (decodeFetched db ctx stale insn isa opcode).2.insn

variable (isa : Isa) (opcode : BitVec 32)

theorem decodesAs_of_candidate (h : MadeFrom db records)
    (hdescribed : ∃ i r, Candidate records isa.isaform opcode i r) :
    DecodesAs db records ctx stale insn isa opcode := by
  obtain ⟨r, hr, hbest⟩ := (h.finds isa opcode).described hdescribed
  have hmatch := (h.matches_iff hr.record opcode).mpr hr.describes.bits
  refine ⟨⟨r, hr, hbest⟩, ?_, fun hok hplain => ?_, fun hok halias => ?_⟩
  · change baseDecodes db ctx stale insn isa opcode = _
    rw [Bool.eq_iff_iff, baseDecodes, decodeEncoding_fst_iff]
    exact and_iff_right hmatch
  · rw [← finalEncoding_of_plain hplain]
    exact decodeFetched_tagged db ctx stale insn isa opcode hok
  · obtain ⟨palias, hchosen, hfinal⟩ := finalEncoding_of_alias halias
    refine ⟨palias, chosenAlias_mem hchosen, hchosen, ?_⟩
    rw [← hfinal]
    exact decodeFetched_tagged db ctx stale insn isa opcode hok

theorem excluded_of_accepted (h : MadeFrom db records)
    (hok : (decodeFetched db ctx stale insn isa opcode).1 = true)
    (hnone : ¬∃ i r, Candidate records isa.isaform opcode i r) :
    db.lookup isa opcode = 0 ∨
      ∃ r, Excluded records isa.isaform opcode (db.lookup isa opcode) r := by
  have hmatch := ((decodeEncoding_fst_iff db _ _).mp hok).1
  by_cases hzero : db.lookup isa opcode = 0
  · exact Or.inl hzero
  · right
    obtain ⟨r, hcandidate | hexcluded⟩ := (h.finds isa opcode).candidate_or_excluded hzero
      fun r hr => (h.matches_iff hr _).mp hmatch
    · exact absurd ⟨_, r, hcandidate⟩ hnone
    · exact ⟨r, hexcluded⟩

end AArch32

/-! ## Both decoders -/

/-- Tables made of records decode a word that a record describes as the most specific such record,
and a word that no record describes at most as record 0 or as a record whose constraints rule the
word out. -/
theorem decodesAs_both {db : AArch64.Db} {db' : AArch32.Db} {records records' : List ArmRecord}
    (h : AArch64.MadeFrom db records) (h' : AArch32.MadeFrom db' records') (ctx : Context)
    (hlength : ctx.length ≠ 0) (stale : Argument) (stale' : AArch32.Internal) (insn : Insn) :
    ((∃ i r, Candidate records AArch64.isaformA64 (AArch64.fetchOpcode ctx) i r) →
        AArch64.DecodesAs db records ctx stale insn) ∧
      ((AArch64.decodeInsn db ctx stale insn).1 = true →
        (¬∃ i r, Candidate records AArch64.isaformA64 (AArch64.fetchOpcode ctx) i r) →
          AArch64.lookedUp db ctx = 0 ∨ ∃ r, Excluded records AArch64.isaformA64
            (AArch64.fetchOpcode ctx) (AArch64.lookedUp db ctx) r) ∧
      ∀ isa opcode, AArch32.fetchOpcode ctx = some (isa, opcode) →
        ((∃ i r, Candidate records' isa.isaform opcode i r) →
          AArch32.DecodesAs db' records' ctx stale' insn isa opcode) ∧
        ((AArch32.decodeInsn db' ctx stale' insn).1 = true →
          (¬∃ i r, Candidate records' isa.isaform opcode i r) →
            db'.lookup isa opcode = 0 ∨
              ∃ r, Excluded records' isa.isaform opcode (db'.lookup isa opcode) r) := by
  refine ⟨AArch64.decodesAs_of_candidate ctx stale insn h hlength,
    AArch64.excluded_of_accepted ctx stale insn h, fun isa opcode hfetch => ⟨?_, fun hok => ?_⟩⟩
  · exact AArch32.decodesAs_of_candidate ctx stale' insn isa opcode h'
  · rw [AArch32.decodeInsn_of_fetched ctx stale' insn hlength hfetch] at hok
    exact AArch32.excluded_of_accepted ctx stale' insn isa opcode h' hok

/-- The A64 tables of the sample records, each with one template. -/
def sampleA64 : AArch64.Db :=
  { AArch64.Excerpt.tables with
    a64 := .leaf 4
    encodings := fun i =>
      { opcode := ((sampleRecords[i]?).map fun r => r.pattern.1).getD 0
        mask := ((sampleRecords[i]?).map fun r => r.pattern.2).getD 0
        firstTemplate := i
        templateCount := 1 } }

/-- The AArch32 tables of the sample records. -/
def sampleA32 : AArch32.Db :=
  { AArch32.Excerpt.tables with
    trees := fun isa =>
      match isa with
      | .a32 => .leaf 1
      | .t32 => .leaf 2
      | .t16 => .leaf 3
    encodings := fun i =>
      { opcode := ((sampleRecords[i]?).map fun r => r.pattern.1).getD 0
        mask := ((sampleRecords[i]?).map fun r => r.pattern.2).getD 0
        firstTemplate := i
        templateCount := 1 } }

theorem sampleA64_madeFrom : AArch64.MadeFrom sampleA64 sampleRecords where
  tree := ⟨1, getTree_sampleRecords.2.2.2⟩
  pattern := fun i r hr => by simp [sampleA64, hr]

theorem sampleA32_madeFrom : AArch32.MadeFrom sampleA32 sampleRecords where
  tree := fun isa =>
    match isa with
    | .a32 => ⟨1, getTree_sampleRecords.1⟩
    | .t32 => ⟨1, getTree_sampleRecords.2.1⟩
    | .t16 => ⟨1, getTree_sampleRecords.2.2.1⟩
  pattern := fun i r hr => by simp [sampleA32, hr]

/-- The word 1A000000 is `ADC`. -/
theorem decodesAs_adc :
    AArch64.DecodesAs sampleA64 sampleRecords
      (AArch64.Excerpt.contextOf 0x00 0x00 0x00 0x1a 4 false) default default := by
  refine (decodesAs_both sampleA64_madeFrom sampleA32_madeFrom
    (AArch64.Excerpt.contextOf 0x00 0x00 0x00 0x1a 4 false) (by decide) default
    AArch32.Excerpt.blank default).1
    ⟨4, plainRecord ['A', '6', '4'] false 0x1a000000 0xffe0fc00 (by decide) (by decide), rfl, rfl,
      by decide, fun word hword => absurd hword List.not_mem_nil⟩

end Amed

import Amed.AArch64.Outcome
import Amed.AArch32.Outcome

/-!
# Documentation tags

`page`, `iclass`, `cclass` and `encoding` of an instruction should name the encoding that was
accepted. `iclass` and `cclass` have 16 bits in the tables; `page` shares a union of one-bit flags,
so that every page from 1 on is stored as 1.

## Implementation notes

`DocTags` is a row as the generated initializer writes it. `Stores` says what the compiler makes
of it in `amed_db_encoding`. `page` is the last member of its union that a row initializes with
another value than 1.
-/

namespace Amed

/-- The documentation tags of a row of the encodings: the numbers of the enumerators. -/
structure DocTags where
  page : Nat
  iclass : Nat
  cclass : Nat
  iclass_lt : iclass < 2 ^ 16
  cclass_lt : cclass < 2 ^ 16

/-- What an initializer stores in the one-bit `page`. -/
def DocTags.pageBit (tags : DocTags) : Bool := tags.page ≠ 0

/-- A decoded instruction reports the tags of a row. -/
structure DocTags.Reported (tags : DocTags) (encoding : Nat) (insn : Insn) : Prop where
  page : insn.page = tags.page
  iclass : insn.iclass = tags.iclass
  cclass : insn.cclass = tags.cclass
  encoding : insn.encoding = encoding

theorem DocTags.toNat_pageBit (tags : DocTags) : tags.pageBit.toNat = tags.page ↔ tags.page ≤ 1 := by
  unfold pageBit
  by_cases h : tags.page = 0
  · simp [h]
  · simp [h]
    omega

/-- Two pages are told apart by their bit exactly where one of them is 0. -/
theorem DocTags.pageBit_ne_iff (tags tags' : DocTags) :
    tags.pageBit.toNat ≠ tags'.pageBit.toNat ↔ ¬(tags.page = 0 ↔ tags'.page = 0) := by
  unfold pageBit
  by_cases h : tags.page = 0 <;> by_cases h' : tags'.page = 0 <;> simp [h, h']

/-! ## AArch64 -/

namespace AArch64

/-- The tables with the rows they were made of. The index of an encoding has 16 bits. -/
structure DocumentedDb extends Db where
  tags : Nat → DocTags
  stored : ∀ i, (encodings i).page = (tags i).pageBit ∧ (encodings i).iclass = (tags i).iclass ∧
    (encodings i).cclass = (tags i).cclass
  lookup_lt : ∀ opcode, toDb.lookupA64 opcode < 2 ^ 16
  aliases_lt : ∀ i, ∀ palias ∈ aliases i, palias < 2 ^ 16

variable (d : DocumentedDb) (ctx : Context) (stale : Argument) (insn : Insn)

theorem finalEncoding_lt : finalEncoding d.toDb stale ctx insn < 2 ^ 16 := by
  unfold finalEncoding
  split
  · cases hchosen : chosenAlias d.toDb ctx stale insn with
    | none => exact Nat.two_pow_pos 16
    | some palias => exact d.aliases_lt _ _ (chosenAlias_mem hchosen)
  · exact d.lookup_lt _

/-- An encoding is accepted in the end: the call succeeds and one of its templates is decoded. -/
def Accepted (encoding : Nat) : Prop :=
  (decodeInsn d.toDb ctx stale insn).1 = true ∧ finalEncoding d.toDb stale ctx insn = encoding ∧
    encodingDecodes d.toDb (fetchOpcode ctx) encoding = true

variable {d ctx stale insn}

theorem Accepted.tagged {encoding : Nat} (h : Accepted d ctx stale insn encoding) :
    (decodeInsn d.toDb ctx stale insn).2.page = (d.tags encoding).pageBit.toNat ∧
      (decodeInsn d.toDb ctx stale insn).2.iclass = (d.tags encoding).iclass ∧
      (decodeInsn d.toDb ctx stale insn).2.cclass = (d.tags encoding).cclass ∧
      (decodeInsn d.toDb ctx stale insn).2.encoding = encoding := by
  obtain ⟨hok, rfl, hdecodes⟩ := h
  have htagged := decodeInsn_tagged d.toDb stale ctx insn hok hdecodes
  obtain ⟨hpage, hiclass, hcclass⟩ := d.stored (finalEncoding d.toDb stale ctx insn)
  exact ⟨by rw [htagged.page, hpage], by rw [htagged.iclass, hiclass],
    by rw [htagged.cclass, hcclass],
    by rw [htagged.encoding, Nat.mod_eq_of_lt (finalEncoding_lt d ctx stale insn)]⟩

end AArch64

/-! ## AArch32 -/

namespace AArch32

/-- The tables with the rows they were made of. The index of an encoding has 16 bits. -/
structure DocumentedDb extends Db where
  tags : Nat → DocTags
  stored : ∀ i, (encodings i).page = (tags i).pageBit ∧ (encodings i).iclass = (tags i).iclass ∧
    (encodings i).cclass = (tags i).cclass
  lookup_lt : ∀ isa opcode, toDb.lookup isa opcode < 2 ^ 16
  aliases_lt : ∀ i, ∀ palias ∈ aliases i, palias < 2 ^ 16

variable (d : DocumentedDb) (ctx : Context) (stale : Internal) (insn : Insn)

theorem finalEncoding_lt (isa : Isa) (opcode : BitVec 32) :
    finalEncoding d.toDb ctx stale insn isa opcode < 2 ^ 16 := by
  unfold finalEncoding
  split
  · cases hchosen : chosenAlias d.toDb ctx stale insn isa opcode with
    | none => exact Nat.two_pow_pos 16
    | some palias => exact d.aliases_lt _ _ (chosenAlias_mem hchosen)
  · exact d.lookup_lt _ _

/-- An encoding is accepted in the end: the call succeeds with it. -/
def Accepted (encoding : Nat) : Prop :=
  ctx.length ≠ 0 ∧ ∃ isa opcode, fetchOpcode ctx = some (isa, opcode) ∧
    baseDecodes d.toDb ctx stale insn isa opcode = true ∧
      finalEncoding d.toDb ctx stale insn isa opcode = encoding

variable {d ctx stale insn}

theorem Accepted.tagged {encoding : Nat} (h : Accepted d ctx stale insn encoding) :
    (decodeInsn d.toDb ctx stale insn).2.1.page = (d.tags encoding).pageBit.toNat ∧
      (decodeInsn d.toDb ctx stale insn).2.1.iclass = (d.tags encoding).iclass ∧
      (decodeInsn d.toDb ctx stale insn).2.1.cclass = (d.tags encoding).cclass ∧
      (decodeInsn d.toDb ctx stale insn).2.1.encoding = encoding := by
  obtain ⟨hlength, isa, opcode, hfetch, hbase, rfl⟩ := h
  have htagged := decodeFetched_tagged d.toDb ctx stale insn isa opcode hbase
  obtain ⟨hpage, hiclass, hcclass⟩ := d.stored (finalEncoding d.toDb ctx stale insn isa opcode)
  rw [decodeInsn, if_neg hlength, hfetch]
  exact ⟨by rw [htagged.page, hpage], by rw [htagged.iclass, hiclass],
    by rw [htagged.cclass, hcclass],
    by rw [htagged.encoding, Nat.mod_eq_of_lt (finalEncoding_lt d ctx stale insn isa opcode)]⟩

end AArch32

/-! ## Both decoders -/

/-- An instruction that reports the stored tags of an encoding. -/
structure StoredTags (tags : Nat → DocTags) (encoding : Nat) (insn : Insn) : Prop where
  page : insn.page = (tags encoding).pageBit.toNat
  iclass : insn.iclass = (tags encoding).iclass
  cclass : insn.cclass = (tags encoding).cclass
  encoding : insn.encoding = encoding

theorem StoredTags.reported_iff {tags : Nat → DocTags} {encoding : Nat} {insn : Insn}
    (h : StoredTags tags encoding insn) :
    (tags encoding).Reported encoding insn ↔ (tags encoding).page ≤ 1 := by
  rw [← DocTags.toNat_pageBit, ← h.page]
  exact ⟨fun hreported => hreported.page,
    fun hpage => ⟨hpage, h.iclass, h.cclass, h.encoding⟩⟩

/-- An instruction that one of the two decoders returns for an accepted encoding, with the tags of
the rows its tables were made of. -/
inductive Decoded : (Nat → DocTags) → Nat → Insn → Prop
  | aarch64 {d : AArch64.DocumentedDb} {ctx : Context} {stale : Argument} {insn : Insn}
      {encoding : Nat} (h : AArch64.Accepted d ctx stale insn encoding) :
      Decoded d.tags encoding (AArch64.decodeInsn d.toDb ctx stale insn).2
  | aarch32 {d : AArch32.DocumentedDb} {ctx : Context} {stale : AArch32.Internal} {insn : Insn}
      {encoding : Nat} (h : AArch32.Accepted d ctx stale insn encoding) :
      Decoded d.tags encoding (AArch32.decodeInsn d.toDb ctx stale insn).2.1

theorem Decoded.stored {tags : Nat → DocTags} {encoding : Nat} {insn : Insn}
    (h : Decoded tags encoding insn) : StoredTags tags encoding insn := by
  cases h with
  | aarch64 h =>
      obtain ⟨hpage, hiclass, hcclass, hencoding⟩ := h.tagged
      exact ⟨hpage, hiclass, hcclass, hencoding⟩
  | aarch32 h =>
      obtain ⟨hpage, hiclass, hcclass, hencoding⟩ := h.tagged
      exact ⟨hpage, hiclass, hcclass, hencoding⟩

/-- The tags are those of the accepted encoding exactly where its page is 0 or 1, and two encodings
of different pages report different ones exactly where one of the pages is 0. -/
theorem docTags_iff {tags : Nat → DocTags} {encoding encoding' : Nat} {insn insn' : Insn}
    (h : Decoded tags encoding insn) (h' : Decoded tags encoding' insn') :
    ((tags encoding).Reported encoding insn ↔ (tags encoding).page ≤ 1) ∧
      (insn.page ≠ insn'.page ↔ ¬((tags encoding).page = 0 ↔ (tags encoding').page = 0)) := by
  refine ⟨h.stored.reported_iff, ?_⟩
  rw [h.stored.page, h'.stored.page, DocTags.pageBit_ne_iff]

/-- The rows of `DUP (element)`, of its alias `MOV` and of the invalid record. -/
def dupTags (i : Nat) : DocTags :=
  if i = 811 then ⟨393, 62, 445, by decide, by decide⟩
  else if i = 1746 then ⟨751, 62, 1028, by decide, by decide⟩
  else ⟨1, 0, 0, by decide, by decide⟩

open AArch64.Excerpt in
def documentedDup : AArch64.DocumentedDb where
  toDb := tables
  tags := dupTags
  stored := by
    intro i
    change (encodings i).page = _ ∧ (encodings i).iclass = _ ∧ (encodings i).cclass = _
    unfold encodings dupTags
    split
    · exact ⟨rfl, rfl, rfl⟩
    · exact ⟨rfl, rfl, rfl⟩
    · rename_i hdup hmov
      rw [if_neg hdup, if_neg hmov]
      exact ⟨rfl, rfl, rfl⟩
  lookup_lt := by
    intro opcode
    unfold AArch64.Db.lookupA64 tables Generator.Tree.walk
    split <;> rw [Generator.Tree.walk] <;> decide
  aliases_lt := by
    intro i palias h
    have hmem : palias ∈ if i = 298 then [1746] else [] := h
    split at hmem
    · rw [List.mem_singleton.mp hmem]
      decide
    · cases hmem

open AArch64 AArch64.Excerpt in
/-- `DUP (element)` with `imm5` = 01000, decoded without and with its alias: both report page 1. -/
theorem decoded_dup :
    Decoded documentedDup.tags 811
        (decodeInsn tables (contextOf 0x2c 0x05 0x08 0x5e 4 false) default default).2 ∧
      Decoded documentedDup.tags 1746
        (decodeInsn tables (contextOf 0x2c 0x05 0x08 0x5e 4 true) default default).2 :=
  ⟨.aarch64 (d := documentedDup) ⟨by decide, by decide, by decide⟩,
    .aarch64 (d := documentedDup) ⟨by decide, by decide, by decide⟩⟩

open AArch64 AArch64.Excerpt in
theorem docTags_dup :
    ¬(dupTags 811).Reported 811
        (decodeInsn tables (contextOf 0x2c 0x05 0x08 0x5e 4 false) default default).2 ∧
      (decodeInsn tables (contextOf 0x2c 0x05 0x08 0x5e 4 false) default default).2.page =
        (decodeInsn tables (contextOf 0x2c 0x05 0x08 0x5e 4 true) default default).2.page := by
  obtain ⟨hreported, hpages⟩ := docTags_iff decoded_dup.1 decoded_dup.2
  exact ⟨mt hreported.mp (by decide), not_not.mp (mt hpages.mp (by decide))⟩

/-- `DUP (element)` reports a page that is not its own, and the one its alias reports. -/
theorem not_docTags_dup :
    ¬∀ (tags : Nat → DocTags) (encoding encoding' : Nat) (insn insn' : Insn),
      Decoded tags encoding insn → Decoded tags encoding' insn' →
        (tags encoding).Reported encoding insn ∧
          ((tags encoding).page ≠ (tags encoding').page → insn.page ≠ insn'.page) := by
  intro h
  have hpage := (h _ _ _ _ _ decoded_dup.1 decoded_dup.2).1.page
  exact absurd hpage (by decide)

end Amed

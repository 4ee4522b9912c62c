import Mathlib.Data.List.Induction
import Mathlib.Data.List.Nodup

/-!
# Aliases of encodings

`process_encoding` hangs every alias on the hash that the table of seen encodings holds for the
encoding it is an alias of, and `register_encoding_aliases` writes out what hangs on each encoding.

## Implementation notes

Perl hands the records around by reference. A reference is the position of a record, or the hash
that is made up where an encoding is named before any record with its identifier. No record comes
with a list of aliases of its own.
-/

namespace Amed.Generator

/-- What registering aliases reads of an encoding record; `aliasof` is there with `aliascond`. -/
structure AliasRecord where
  id : String
  aliasof : Option String := none
  deriving DecidableEq, Repr

/-- A reference to a hash: a record, or the one that naming an unseen encoding makes up. -/
inductive HashRef
  | record (index : Nat)
  | placeholder (id : String)
  deriving DecidableEq, Repr

/-- The part of the generator that registers aliases. -/
structure Registry where
  seen : String → Option HashRef := fun _ => none
  aliases : HashRef → List Nat := fun _ => []
  encodings : List AliasRecord := []

namespace Registry

/-- `push @{ $self->{seen}->{encodings}->{$alias_of}->{aliases} }, $encoding`. -/
def pushAlias (s : Registry) (aliasof : String) (index : Nat) : Registry :=
  let target := (s.seen aliasof).getD (.placeholder aliasof)
  { s with
    seen := fun id => if id = aliasof then some target else s.seen id
    aliases := fun ref => if ref = target then s.aliases ref ++ [index] else s.aliases ref }

/-- `process_encoding`. -/
def processEncoding (s : Registry) (e : AliasRecord) : Registry :=
  let index := s.encodings.length
  let s := { s with seen := fun id => if id = e.id then some (.record index) else s.seen id }
  let s :=
    match e.aliasof with
    | some aliasof => s.pushAlias aliasof index
    | none => s
  { s with encodings := s.encodings ++ [e] }

/-- The run over the records. -/
def process (records : List AliasRecord) : Registry := records.foldl processEncoding {}

/-- `register_encoding_aliases`: the row of indexes with its end mark; none where there are no
aliases. -/
def registerEncodingAliases (s : Registry) (index : Nat) : Option (List Nat) :=
  match s.aliases (.record index) with
  | [] => none
  | indexes => some (indexes ++ [0])

/-- The aliases that are emitted for an encoding. -/
def emitted (s : Registry) (index : Nat) : List Nat :=
  ((s.registerEncodingAliases index).getD [0]).dropLast

theorem emitted_eq (s : Registry) (index : Nat) : s.emitted index = s.aliases (.record index) := by
  unfold emitted registerEncodingAliases
  split
  · rename_i h
    rw [h]
    rfl
  · simp

theorem process_concat (records : List AliasRecord) (e : AliasRecord) :
    process (records ++ [e]) = (process records).processEncoding e := by
  rw [process, List.foldl_append]
  rfl

end Registry

/-! ## Where an alias ends up -/

def idAt (records : List AliasRecord) (p : Nat) : Option String := records[p]?.map (·.id)

def aliasofAt (records : List AliasRecord) (q : Nat) : Option String :=
  records[q]?.bind (·.aliasof)

/-- The last record with an identifier is at position `p`. -/
def LatestRecord (records : List AliasRecord) (id : String) (p : Nat) : Prop :=
  idAt records p = some id ∧ ∀ p', p < p' → idAt records p' ≠ some id

/-- The record at `q` is an alias that names the record at `p`. -/
def NamesBase (records : List AliasRecord) (q p : Nat) : Prop :=
  ∃ id, aliasofAt records q = some id ∧ idAt records p = some id

/-- When the alias at `q` is registered, the last record with the identifier it names is the one at
`p`. -/
def LandsOn (records : List AliasRecord) (q p : Nat) : Prop :=
  ∃ id, aliasofAt records q = some id ∧ idAt records p = some id ∧ p ≤ q ∧
    ∀ p', p < p' → p' ≤ q → idAt records p' ≠ some id

theorem LandsOn.names {records : List AliasRecord} {q p : Nat} (h : LandsOn records q p) :
    NamesBase records q p := by
  obtain ⟨id, hq, hp, -⟩ := h
  exact ⟨id, hq, hp⟩

section Concat

variable (records : List AliasRecord) (e : AliasRecord)

theorem getElem?_concat (i : Nat) :
    (records ++ [e])[i]? =
      if i < records.length then records[i]? else if i = records.length then some e else none := by
  split
  · rename_i h
    exact List.getElem?_append_left h
  · split
    · rename_i h
      rw [h, List.getElem?_concat_length]
    · exact List.getElem?_eq_none (by rw [List.length_append, List.length_singleton]; omega)

theorem idAt_concat (p : Nat) :
    idAt (records ++ [e]) p =
      if p < records.length then idAt records p
      else if p = records.length then some e.id else none := by
  rw [idAt, getElem?_concat]
  split
  · rfl
  · split <;> rfl

theorem aliasofAt_concat (q : Nat) :
    aliasofAt (records ++ [e]) q =
      if q < records.length then aliasofAt records q
      else if q = records.length then e.aliasof else none := by
  rw [aliasofAt, getElem?_concat]
  split
  · rfl
  · split <;> rfl

variable {records e}

theorem lt_of_idAt {p : Nat} {id : String} (h : idAt records p = some id) : p < records.length := by
  obtain ⟨e, he, -⟩ := Option.map_eq_some_iff.mp h
  exact (List.getElem?_eq_some_iff.mp he).1

theorem lt_of_aliasofAt {q : Nat} {id : String} (h : aliasofAt records q = some id) :
    q < records.length := by
  obtain ⟨e, he, -⟩ := Option.bind_eq_some_iff.mp h
  exact (List.getElem?_eq_some_iff.mp he).1

/-- A record takes its identifier over. -/
theorem latestRecord_concat {id : String} {p : Nat} :
    LatestRecord (records ++ [e]) id p ↔
      if e.id = id then p = records.length else LatestRecord records id p := by
  unfold LatestRecord
  simp only [idAt_concat]
  by_cases hid : e.id = id
  · rw [if_pos hid]
    constructor
    · rintro ⟨hp, hlast⟩
      have hle : records.length ≤ p := by
        by_contra hlt
        have h := hlast records.length (by omega)
        rw [if_neg (Nat.lt_irrefl _), if_pos rfl, hid] at h
        exact h rfl
      rw [if_neg (by omega)] at hp
      by_contra hne
      rw [if_neg hne] at hp
      cases hp
    · rintro rfl
      refine ⟨by rw [if_neg (Nat.lt_irrefl _), if_pos rfl, hid], fun p' hp' => ?_⟩
      rw [if_neg (by omega), if_neg (by omega)]
      nofun
  · rw [if_neg hid]
    constructor
    · rintro ⟨hp, hlast⟩
      have hlt : p < records.length := by
        by_contra hge
        rw [if_neg hge] at hp
        split at hp
        · exact hid (Option.some.inj hp)
        · cases hp
      rw [if_pos hlt] at hp
      refine ⟨hp, fun p' hp' hid' => ?_⟩
      have h := hlast p' hp'
      rw [if_pos (lt_of_idAt hid')] at h
      exact h hid'
    · rintro ⟨hp, hlast⟩
      refine ⟨by rw [if_pos (lt_of_idAt hp), hp], fun p' hp' => ?_⟩
      split
      · exact hlast p' hp'
      · split
        · exact fun h => hid (Option.some.inj h)
        · nofun

/-- A record brings at most itself as an alias. -/
theorem landsOn_concat {q p : Nat} :
    LandsOn (records ++ [e]) q p ↔
      LandsOn records q p ∨
        q = records.length ∧ ∃ id, e.aliasof = some id ∧ LatestRecord (records ++ [e]) id p := by
  have hidAt (p : Nat) (hp : p < records.length) :
      idAt (records ++ [e]) p = idAt records p := by
    rw [idAt_concat, if_pos hp]
  constructor
  · rintro ⟨id, hq, hp, hle, hlast⟩
    rw [aliasofAt_concat] at hq
    split at hq
    · rename_i hlt
      rw [hidAt p (by omega)] at hp
      refine .inl ⟨id, hq, hp, hle, fun p' hlt' hle' => ?_⟩
      rw [← hidAt p' (by omega)]
      exact hlast p' hlt' hle'
    · split at hq
      · rename_i hlength
        refine .inr ⟨hlength, id, hq, hp, fun p' hlt' hid' => ?_⟩
        have hlt := lt_of_idAt hid'
        rw [List.length_append, List.length_singleton] at hlt
        exact hlast p' hlt' (by omega) hid'
      · cases hq
  · rintro (⟨id, hq, hp, hle, hlast⟩ | ⟨rfl, id, hq, hp, hlast⟩)
    · have hlt := lt_of_aliasofAt hq
      refine ⟨id, by rw [aliasofAt_concat, if_pos hlt, hq], by rw [hidAt p (by omega), hp], hle,
        fun p' hlt' hle' => ?_⟩
      rw [hidAt p' (by omega)]
      exact hlast p' hlt' hle'
    · have hle := lt_of_idAt hp
      rw [List.length_append, List.length_singleton] at hle
      refine ⟨id, ?_, hp, by omega, fun p' hlt' _ => hlast p' hlt'⟩
      rw [aliasofAt_concat, if_neg (Nat.lt_irrefl _), if_pos rfl, hq]

end Concat

/-! ## The run -/

/-- What the registry holds after the records. -/
structure RegistryHolds (records : List AliasRecord) (s : Registry) : Prop where
  encodings : s.encodings = records
  seen : ∀ id p, s.seen id = some (.record p) ↔ LatestRecord records id p
  aliases : ∀ p q, q ∈ s.aliases (.record p) ↔ LandsOn records q p
  nodup : ∀ p, (s.aliases (.record p)).Nodup

/-- A hash that is made up is no record. -/
theorem getD_placeholder {ref : Option HashRef} {id : String} {p : Nat} :
    ref.getD (.placeholder id) = .record p ↔ ref = some (.record p) := by
  cases ref with
  | none => simp
  | some ref => simp

theorem pushAlias_seen (s : Registry) (aliasof : String) (index : Nat) {id : String} {p : Nat} :
    (s.pushAlias aliasof index).seen id = some (.record p) ↔ s.seen id = some (.record p) := by
  dsimp only [Registry.pushAlias]
  split
  · rename_i hid
    rw [hid, Option.some_inj, getD_placeholder]
  · rfl

theorem pushAlias_aliases (s : Registry) (aliasof : String) (index p : Nat) :
    (s.pushAlias aliasof index).aliases (.record p) =
      if s.seen aliasof = some (.record p) then s.aliases (.record p) ++ [index]
      else s.aliases (.record p) := by
  have hiff : HashRef.record p = (s.seen aliasof).getD (.placeholder aliasof) ↔
      s.seen aliasof = some (.record p) := eq_comm.trans getD_placeholder
  dsimp only [Registry.pushAlias]
  simp only [hiff]

theorem RegistryHolds.processEncoding {records : List AliasRecord} {s : Registry}
    (h : RegistryHolds records s) (e : AliasRecord) :
    RegistryHolds (records ++ [e]) (s.processEncoding e) := by
  -- the registry in which the alias is pushed
  let s₁ : Registry := { s with
    seen := fun id => if id = e.id then some (.record s.encodings.length) else s.seen id }
  have hlength : s.encodings.length = records.length := by rw [h.encodings]
  have hseen (id : String) (p : Nat) :
      s₁.seen id = some (.record p) ↔ LatestRecord (records ++ [e]) id p := by
    rw [latestRecord_concat]
    by_cases hid : e.id = id
    · rw [if_pos hid, ← hlength]
      change (if id = e.id then _ else _) = _ ↔ _
      rw [if_pos hid.symm, Option.some_inj, HashRef.record.injEq, eq_comm]
    · rw [if_neg hid, ← h.seen]
      change (if id = e.id then _ else _) = _ ↔ _
      rw [if_neg (fun h => hid h.symm)]
  have hnot (p : Nat) : records.length ∉ s.aliases (.record p) := by
    rw [h.aliases]
    rintro ⟨id, hq, -⟩
    exact absurd (lt_of_aliasofAt hq) (Nat.lt_irrefl _)
  cases haliasof : e.aliasof with
  | none =>
      have hs : s.processEncoding e = { s₁ with encodings := s.encodings ++ [e] } := by
        rw [Registry.processEncoding, haliasof]
      rw [hs]
      refine ⟨by rw [h.encodings], hseen, fun p q => ?_, h.nodup⟩
      rw [landsOn_concat, haliasof]
      simp [s₁, h.aliases]
  | some aliasof =>
      have hs : s.processEncoding e = { s₁.pushAlias aliasof s.encodings.length with
          encodings := s.encodings ++ [e] } := by
        rw [Registry.processEncoding, haliasof]
        rfl
      have haliases (p : Nat) := pushAlias_aliases s₁ aliasof s.encodings.length p
      rw [hs]
      refine ⟨by rw [h.encodings],
        fun id p => (pushAlias_seen s₁ aliasof s.encodings.length).trans (hseen id p),
        fun p q => ?_, fun p => ?_⟩
      · rw [haliases, landsOn_concat, haliasof, hlength]
        have hold : q ∈ s₁.aliases (.record p) ↔ LandsOn records q p := h.aliases p q
        split
        · rename_i hlatest
          rw [hseen] at hlatest
          rw [List.mem_append, List.mem_singleton, hold]
          simp [hlatest]
        · rename_i hlatest
          rw [hseen] at hlatest
          rw [hold]
          simp [hlatest]
      · rw [haliases, hlength]
        split
        · exact (h.nodup p).append (List.nodup_singleton _) (by simpa using hnot p)
        · exact h.nodup p

/-- The registry after a run. -/
theorem process_holds (records : List AliasRecord) :
    RegistryHolds records (Registry.process records) := by
  induction records using List.reverseRecOn with
  | nil =>
      refine ⟨rfl, fun id p => ⟨nofun, fun h => nomatch h.1⟩,
        fun p q => ⟨fun h => absurd h List.not_mem_nil, ?_⟩, fun p => List.nodup_nil⟩
      rintro ⟨id, -, hp, -⟩
      cases hp
  | append_singleton records e ih =>
      rw [Registry.process_concat]
      exact ih.processEncoding e

/-! ## Every alias of an encoding -/

/-- Each base encoding is emitted with exactly the aliases that name it, each of them once. -/
def AliasesEmitted (records : List AliasRecord) : Prop :=
  ∀ p e, records[p]? = some e → e.aliasof = none →
    ((Registry.process records).emitted p).Nodup ∧
      ∀ q, q ∈ (Registry.process records).emitted p ↔ NamesBase records q p

/-- That is so exactly where every alias stands behind the base that it names, and no other record
takes the identifier over between the two. -/
theorem aliasesEmitted_iff (records : List AliasRecord) :
    AliasesEmitted records ↔
      ∀ (p q : Nat) (e a : AliasRecord), records[p]? = some e → e.aliasof = none →
        records[q]? = some a → a.aliasof = some e.id →
          p < q ∧ ∀ (p' : Nat) (e' : AliasRecord), p < p' → p' ≤ q →
            records[p']? = some e' → e'.id ≠ e.id := by
  have hrun := process_holds records
  constructor
  · intro h p q e a he hbase halias hnames
    have hid : idAt records p = some e.id := by rw [idAt, he]; rfl
    have hq : aliasofAt records q = some e.id := by rw [aliasofAt, halias]; exact hnames
    have hmem := ((h p e he hbase).2 q).mpr ⟨e.id, hq, hid⟩
    rw [Registry.emitted_eq, hrun.aliases] at hmem
    obtain ⟨id, hid', -, hle, hlast⟩ := hmem
    obtain rfl : e.id = id := Option.some.inj (hq.symm.trans hid')
    have hne : p ≠ q := by
      rintro rfl
      rw [halias] at he
      cases he
      rw [hbase] at hnames
      cases hnames
    refine ⟨by omega, fun p' e' hlt hle' he' heq => hlast p' hlt hle' ?_⟩
    rw [idAt, he', ← heq]
    rfl
  · intro h p e he hbase
    have hid : idAt records p = some e.id := by rw [idAt, he]; rfl
    rw [Registry.emitted_eq]
    refine ⟨hrun.nodup p, fun q => ?_⟩
    rw [hrun.aliases]
    refine ⟨LandsOn.names, ?_⟩
    rintro ⟨id, hq, hp⟩
    obtain rfl : e.id = id := Option.some.inj (hid.symm.trans hp)
    obtain ⟨a, halias, hnames⟩ := Option.bind_eq_some_iff.mp hq
    obtain ⟨hlt, hlast⟩ := h p q e a he hbase halias hnames
    refine ⟨e.id, hq, hid, by omega, fun p' hlt' hle' hid' => ?_⟩
    obtain ⟨e', he', heq⟩ := Option.map_eq_some_iff.mp hid'
    exact hlast p' e' hlt' hle' he' heq

/-- An alias in front of its base is lost: the base takes the place of the hash it hangs on. -/
theorem not_aliasesEmitted_aliasFirst :
    ¬∀ records : List AliasRecord, AliasesEmitted records := by
  intro h
  have hbase := (h [{ id := "NOP" }, { id := "MOV", aliasof := some "DUP" }, { id := "DUP" }] 2
    { id := "DUP" } rfl rfl).2 1
  have hnames : NamesBase [{ id := "NOP" }, { id := "MOV", aliasof := some "DUP" }, { id := "DUP" }]
      1 2 := ⟨"DUP", rfl, rfl⟩
  exact absurd (hbase.mpr hnames) (by decide)

end Amed.Generator

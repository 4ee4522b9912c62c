import Mathlib.Tactic.Ring
import Amed.Generator.Aliases
import Amed.Generator.Dictionary
import Amed.Generator.Sequence
import Amed.Library.Numbering
import Amed.Library.Numerals
import Amed.Library.Statements

/-!
# The tables of the aliases

`process_encoding` registers the condition of an alias, and `encoding_to_c` the row of the aliases
of an encoding. `generate_aliasconds` writes the conditions as the cases of a switch. Both indices
of a record are written to one union, `aliascond` before `aliases`.

## Implementation notes

The C expression that the printer makes of a condition is a text here, and the function that
evaluates it is a parameter.
-/

namespace Amed.Generator

open Brackets Delimited Statements Printing

/-- What the alias tables are made of: a record, the condition of an alias and the C expression
that it is printed as. -/
structure ConditionRecord extends AliasRecord where
  aliascond : List Char := []
  condition : List Char := []
  deriving DecidableEq, Repr

/-- The generator with the columns of the records, in their order: the indices of `aliascond`. -/
structure AliasState where
  registry : Registry := {}
  aliascond : Dictionary
  indexes : List (Option Nat) := []

namespace AliasState

/-- `new`. -/
def new : AliasState :=
  { aliascond :=
      ((Dictionary.new false).add "aliascond".toList "aliascond".toList "false".toList).2 }

/-- `register_aliascond`: the index of the condition. -/
def registerAliascond (d : Dictionary) (e : ConditionRecord) : Option Nat × Dictionary :=
  let registered := d.add "aliascond".toList "aliascond".toList e.condition
  let d := registered.2.setComment registered.1 e.aliascond
  (d.items[registered.1]?.map DictionaryItem.index, d)

/-- `process_encoding`. -/
def processEncoding (s : AliasState) (e : ConditionRecord) : AliasState :=
  let registered :=
    if e.aliasof.isSome then registerAliascond s.aliascond e else (none, s.aliascond)
  { registry := s.registry.processEncoding e.toAliasRecord
    aliascond := registered.2
    indexes := s.indexes ++ [registered.1] }

/-- The run over the records. -/
def process (records : List ConditionRecord) : AliasState := records.foldl processEncoding new

theorem process_concat (records : List ConditionRecord) (e : ConditionRecord) :
    process (records ++ [e]) = (process records).processEncoding e := by
  rw [process, List.foldl_append]
  rfl

/-- What the generator holds behind the records. -/
structure Holds (records : List ConditionRecord) (s : AliasState) : Prop where
  registry : s.registry = Registry.process (records.map ConditionRecord.toAliasRecord)
  dictionary : s.aliascond.Holds
  length : s.indexes.length = records.length
  condition : ∀ (q : Nat) (e : ConditionRecord), records[q]? = some e → e.aliasof.isSome →
    ∃ index item, s.indexes[q]? = some (some index) ∧ s.aliascond.items[index]? = some item ∧
      item.data = e.condition
  plain : ∀ (q : Nat) (e : ConditionRecord), records[q]? = some e → e.aliasof = none →
    s.indexes[q]? = some none

theorem new_holds : Holds [] new where
  registry := rfl
  dictionary := (Dictionary.new_holds.add _ _ _).holds
  length := rfl
  condition q e h := by cases h
  plain q e h := by cases h

/-- The index of a condition leads to it. -/
theorem registerAliascond_spec {d : Dictionary} (h : d.Holds) (e : ConditionRecord) :
    (registerAliascond d e).2.Holds ∧ d.Grows (registerAliascond d e).2 ∧
      ∃ index item, (registerAliascond d e).1 = some index ∧
        (registerAliascond d e).2.items[index]? = some item ∧ item.data = e.condition := by
  obtain ⟨hholds, hgrows, item, hitem, hdata, hindex⟩ :=
    h.add "aliascond".toList "aliascond".toList e.condition
  have hcomment := Dictionary.grows_setComment
    (d.add "aliascond".toList "aliascond".toList e.condition).2
    (d.add "aliascond".toList "aliascond".toList e.condition).1 e.aliascond
  obtain ⟨comment, hkept⟩ := hcomment _ item hitem
  refine ⟨hholds.setComment _ _, hgrows.trans hcomment, _, _, ?_, hkept, hdata⟩
  rw [registerAliascond]
  dsimp only
  rw [hkept, Option.map_some, hindex]

theorem Holds.processEncoding {records : List ConditionRecord} {s : AliasState}
    (h : Holds records s) (e : ConditionRecord) :
    Holds (records ++ [e]) (s.processEncoding e) := by
  have hregistry : (s.processEncoding e).registry =
      Registry.process ((records ++ [e]).map ConditionRecord.toAliasRecord) := by
    rw [List.map_append, List.map_singleton, Registry.process_concat, ← h.registry]
    rfl
  have hlength : (s.processEncoding e).indexes.length = (records ++ [e]).length := by
    rw [List.length_append, ← h.length]
    exact List.length_append
  by_cases halias : e.aliasof.isSome
  · obtain ⟨hholds, hgrows, index, item, hindex, hitem, hdata⟩ :=
      registerAliascond_spec h.dictionary e
    have hs : s.processEncoding e =
        { registry := s.registry.processEncoding e.toAliasRecord
          aliascond := (registerAliascond s.aliascond e).2
          indexes := s.indexes ++ [some index] } := by
      rw [AliasState.processEncoding, if_pos halias, hindex]
    rw [hs] at hregistry hlength ⊢
    refine ⟨hregistry, hholds, hlength, fun q e' he' halias' => ?_, fun q e' he' hplain => ?_⟩
    · obtain he' | ⟨rfl, rfl⟩ := Numbering.getElem?_concat_eq_some_iff.mp he'
      · obtain ⟨index', item', hindex', hitem', hdata'⟩ := h.condition q e' he' halias'
        obtain ⟨comment, hkept⟩ := hgrows index' item' hitem'
        exact ⟨index', _, Numbering.getElem?_concat_of_some hindex' _, hkept, hdata'⟩
      · rw [← h.length]
        exact ⟨index, item, List.getElem?_concat_length, hitem, hdata⟩
    · obtain he' | ⟨rfl, rfl⟩ := Numbering.getElem?_concat_eq_some_iff.mp he'
      · exact Numbering.getElem?_concat_of_some (h.plain q e' he' hplain) _
      · rw [hplain] at halias
        cases halias
  · have hs : s.processEncoding e =
        { registry := s.registry.processEncoding e.toAliasRecord
          aliascond := s.aliascond
          indexes := s.indexes ++ [none] } := by
      rw [AliasState.processEncoding, if_neg halias]
    rw [hs] at hregistry hlength ⊢
    refine ⟨hregistry, h.dictionary, hlength, fun q e' he' halias' => ?_,
      fun q e' he' hplain => ?_⟩
    · obtain he' | ⟨rfl, rfl⟩ := Numbering.getElem?_concat_eq_some_iff.mp he'
      · obtain ⟨index', item', hindex', hitem', hdata'⟩ := h.condition q e' he' halias'
        exact ⟨index', item', Numbering.getElem?_concat_of_some hindex' _, hitem', hdata'⟩
      · exact absurd halias' halias
    · obtain he' | ⟨rfl, rfl⟩ := Numbering.getElem?_concat_eq_some_iff.mp he'
      · exact Numbering.getElem?_concat_of_some (h.plain q e' he' hplain) _
      · rw [← h.length]
        exact List.getElem?_concat_length

theorem process_holds (records : List ConditionRecord) : Holds records (process records) := by
  induction records using List.reverseRecOn with
  | nil => exact new_holds
  | append_singleton records e ih =>
      rw [process_concat]
      exact ih.processEncoding e

end AliasState

/-! ## The function of the conditions -/

/-- `generate_aliasconds`: the body of `is_alias_condition_ok`. What it returns is an expression. -/
def aliascondBody (d : Dictionary) : Stmt Empty Unit (List Char) :=
  .seq (.switch () (d.items.map fun item => ((item.index : Int), .ret item.data)))
    (.ret "false".toList)

/-- The expression that `is_alias_condition_ok` returns for an index. -/
def aliascondFunction (d : Dictionary) (index : Nat) : List Char :=
  ((aliascondBody d).exec (fun c => nomatch c) (fun _ => (index : Int))).valueOr "false".toList

/-- The function compiles: no label stands twice. -/
theorem aliascondBody_compiles {d : Dictionary} (h : d.Holds) :
    (aliascondBody d).Compiles (fun _ => True) (fun _ => True) False := by
  refine ⟨⟨trivial, ?_, ?_⟩, trivial⟩
  · rw [List.map_map, List.nodup_iff_getElem?_ne_getElem?]
    intro i j hij hj heq
    rw [List.length_map] at hj
    rw [List.getElem?_map, List.getElem?_map, List.getElem?_eq_getElem hj,
      List.getElem?_eq_getElem (hij.trans hj), Option.map_some, Option.map_some,
      Option.some_inj] at heq
    have hi' := h.index i _ (List.getElem?_eq_getElem (hij.trans hj))
    have hj' := h.index j _ (List.getElem?_eq_getElem hj)
    have heq' : ((d.items[i].index : Nat) : Int) = (d.items[j].index : Nat) := heq
    rw [hi', hj'] at heq'
    omega
  · rw [Stmt.casesCompile_iff]
    intro c hc
    obtain ⟨item, -, rfl⟩ := List.mem_map.mp hc
    trivial

/-- It returns the condition with the index. -/
theorem aliascondFunction_eq {d : Dictionary} (h : d.Holds) {index : Nat} {item : DictionaryItem}
    (hitem : d.items[index]? = some item) : aliascondFunction d index = item.data := by
  have hnodup := (aliascondBody_compiles h).1.2.1
  have hmem : ((item.index : Int), Stmt.ret item.data) ∈
      d.items.map fun item => ((item.index : Int), (Stmt.ret item.data : Stmt Empty Unit _)) :=
    List.mem_map_of_mem (List.mem_of_getElem? hitem)
  have hfound := Stmt.find?_of_mem hnodup hmem
  have hstops : ∀ c ∈ d.items.map fun item =>
      ((item.index : Int), (Stmt.ret item.data : Stmt Empty Unit (List Char))),
      c.2.exec (fun c => nomatch c) (fun _ => (index : Int)) ≠ .fell := by
    intro c hc
    obtain ⟨item, -, rfl⟩ := List.mem_map.mp hc
    exact nofun
  rw [h.index index item hitem] at hfound
  rw [aliascondFunction, aliascondBody, Stmt.exec, Stmt.exec, Stmt.exec,
    Stmt.jump_of_ne_fell _ _ hstops, hfound]
  rfl

/-! ## The rows of the aliases -/

/-- The aliases of a record are in the order of the records. -/
theorem process_aliases_sorted (records : List AliasRecord) (p : Nat) :
    ((Registry.process records).aliases (.record p)).Pairwise (· < ·) := by
  induction records using List.reverseRecOn with
  | nil => exact .nil
  | append_singleton records e ih =>
      have hrun := process_holds records
      have hlt : ∀ q ∈ (Registry.process records).aliases (.record p),
          q < (Registry.process records).encodings.length := by
        intro q hq
        obtain ⟨id, hid, -⟩ := (hrun.aliases p q).mp hq
        rw [hrun.encodings]
        exact lt_of_aliasofAt hid
      rw [Registry.process_concat, Registry.processEncoding]
      cases e.aliasof with
      | none => exact ih
      | some aliasof =>
          dsimp only
          rw [pushAlias_aliases]
          split
          · exact List.pairwise_append.mpr ⟨ih, List.pairwise_singleton _ _,
              fun q hq a ha => List.mem_singleton.mp ha ▸ hlt q hq⟩
          · exact ih

/-- The sequence of the aliases with the column of the records, in their order: the indices of
`aliases`. -/
structure RowState where
  sequence : Sequence
  indexes : List (Option Nat) := []

namespace RowState

/-- `new`. -/
def new (name : List Char) : RowState :=
  { sequence := ((Sequence.new name "uint16_t".toList).add [['0']]).2 }

/-- The comment that `register_encoding_aliases` gives to a row. -/
def comment (registry : Registry) (p : Nat) : List Char :=
  let id (i : Nat) : List Char := (registry.encodings[i]?.map fun e => e.id.toList).getD []
  id p ++ ": ".toList ++ [' '].intercalate ((registry.aliases (.record p)).map id)

/-- `register_encoding_aliases` in `encoding_to_c`, for the record at `p`. -/
def encodingToC (registry : Registry) (s : RowState) (p : Nat) : RowState :=
  match registry.registerEncodingAliases p with
  | none => { s with indexes := s.indexes ++ [none] }
  | some row =>
      let registered := s.sequence.add (row.map decimal)
      let sequence := registered.2.setComment registered.1 (comment registry p)
      { sequence := sequence
        indexes := s.indexes ++ [sequence.items[registered.1]?.map SequenceItem.index] }

/-- `generate_encodings`, as far as the first `n` records. -/
def generateEncodings (name : List Char) (registry : Registry) (n : Nat) : RowState :=
  (List.range n).foldl (encodingToC registry) (new name)

/-- What stands in the table and in the column behind the first `n` records. -/
structure Holds (registry : Registry) (n : Nat) (s : RowState)
    (arrays : List (List (List Char))) : Prop where
  filled : s.sequence.Filled arrays
  first : Placed arrays 0 [['0']]
  length : s.indexes.length = n
  row : ∀ p < n, ∀ row, registry.registerEncodingAliases p = some row →
    ∃ index, s.indexes[p]? = some (some index) ∧ Placed arrays index (row.map decimal)
  plain : ∀ p < n, registry.registerEncodingAliases p = none → s.indexes[p]? = some none

theorem isElement_decimal (n : Nat) : IsElement (decimal n) :=
  isElement_of_forall (forall_toDigits (by decide) (by decide) n)

theorem new_holds (registry : Registry) (name : List Char) :
    ∃ arrays, Holds registry 0 (new name) arrays := by
  have hzero : ∀ e ∈ [['0']], IsElement e := by
    intro e he
    rw [List.mem_singleton.mp he]
    exact isElement_decimal 0
  obtain ⟨more, hfilled, index, hindex, hplaced⟩ :=
    (Sequence.new_filled name "uint16_t".toList).add (List.cons_ne_nil _ _) hzero
  have hfirst : index = 0 := (Option.some.inj hindex).symm
  rw [hfirst] at hplaced
  exact ⟨_, hfilled, hplaced, rfl, fun p hp => absurd hp (Nat.not_lt_zero p),
    fun p hp => absurd hp (Nat.not_lt_zero p)⟩

theorem Holds.encodingToC {registry : Registry} {n : Nat} {s : RowState}
    {arrays : List (List (List Char))} (h : Holds registry n s arrays) :
    ∃ more, Holds registry (n + 1) (encodingToC registry s n) (arrays ++ more) := by
  cases hrow : registry.registerEncodingAliases n with
  | none =>
      have hs : RowState.encodingToC registry s n = { s with indexes := s.indexes ++ [none] } := by
        rw [RowState.encodingToC, hrow]
      refine ⟨[], ?_⟩
      rw [List.append_nil, hs]
      refine ⟨h.filled, h.first, by simp [h.length], fun p hp row hp' => ?_, fun p hp hp' => ?_⟩
      · obtain hp | rfl := Nat.lt_succ_iff_lt_or_eq.mp hp
        · obtain ⟨index, hindex, hplaced⟩ := h.row p hp row hp'
          exact ⟨index, Numbering.getElem?_concat_of_some hindex _, hplaced⟩
        · rw [hrow] at hp'
          cases hp'
      · obtain hp | rfl := Nat.lt_succ_iff_lt_or_eq.mp hp
        · exact Numbering.getElem?_concat_of_some (h.plain p hp hp') _
        · rw [← h.length]
          exact List.getElem?_concat_length
  | some row =>
      have hne : row.map decimal ≠ [] := by
        rw [Registry.registerEncodingAliases] at hrow
        split at hrow
        · cases hrow
        · cases hrow
          simp
      have helements : ∀ e ∈ row.map decimal, IsElement e := by
        intro e he
        obtain ⟨i, -, rfl⟩ := List.mem_map.mp he
        exact isElement_decimal i
      obtain ⟨more, hfilled, index, hindex, hplaced⟩ := h.filled.add hne helements
      have hfilled' := hfilled.setComment (s.sequence.add (row.map decimal)).1 (comment registry n)
      have hindex' : ((s.sequence.add (row.map decimal)).2.setComment
          (s.sequence.add (row.map decimal)).1 (comment registry n)).items[
            (s.sequence.add (row.map decimal)).1]?.map SequenceItem.index = some index := by
        rw [← hindex, Sequence.setComment, List.getElem?_modify]
        simp [Function.comp_def]
      refine ⟨more, ?_⟩
      rw [RowState.encodingToC, hrow]
      dsimp only
      rw [hindex']
      refine ⟨hfilled', h.first.append more, by simp [h.length], fun p hp row' hp' => ?_,
        fun p hp hp' => ?_⟩
      · obtain hp | rfl := Nat.lt_succ_iff_lt_or_eq.mp hp
        · obtain ⟨index', hindex', hplaced'⟩ := h.row p hp row' hp'
          exact ⟨index', Numbering.getElem?_concat_of_some hindex' _, hplaced'.append more⟩
        · rw [hrow] at hp'
          cases hp'
          rw [← h.length]
          exact ⟨index, List.getElem?_concat_length, hplaced⟩
      · obtain hp | rfl := Nat.lt_succ_iff_lt_or_eq.mp hp
        · exact Numbering.getElem?_concat_of_some (h.plain p hp hp') _
        · rw [hrow] at hp'
          cases hp'

theorem generateEncodings_holds (name : List Char) (registry : Registry) (n : Nat) :
    ∃ arrays, Holds registry n (generateEncodings name registry n) arrays := by
  induction n with
  | zero => exact new_holds registry name
  | succ n ih =>
      obtain ⟨arrays, h⟩ := ih
      obtain ⟨more, hstep⟩ := h.encodingToC
      refine ⟨arrays ++ more, ?_⟩
      rw [generateEncodings, List.range_succ, List.foldl_append]
      exact hstep

end RowState

/-! ## What the decoders read -/

/-- The numbers of a table of `uint16_t` from an index on, up to a zero. -/
def readRow (s : Sequence) (index : Nat) : List Nat :=
  ((s.table.map fun e => (readNumeral e).getD 0 % 2 ^ 16).drop index).takeWhile (· ≠ 0)

theorem readRow_of_placed {s : Sequence} {arrays : List (List (List Char))} (h : s.Filled arrays)
    {index : Nat} {aliases : List Nat}
    (hplaced : Placed arrays index ((aliases ++ [0]).map decimal))
    (hfit : ∀ a ∈ aliases, 0 < a ∧ a < 2 ^ 16) : readRow s index = aliases := by
  obtain ⟨rest, hrest⟩ := h.table_of_placed hplaced
  have hread : ((aliases ++ [0]).map decimal).map (fun e => (readNumeral e).getD 0 % 2 ^ 16) =
      aliases ++ [0] := by
    rw [List.map_map, List.map_congr_left (g := id), List.map_id]
    intro a ha
    rw [Function.comp_apply, readNumeral_decimal, Option.getD_some, id]
    obtain ha | ha := List.mem_append.mp ha
    · exact Nat.mod_eq_of_lt (hfit a ha).2
    · rw [List.mem_singleton.mp ha]
      rfl
  have hnonzero : ∀ a ∈ aliases, decide (a ≠ 0) = true := by
    intro a ha
    exact decide_eq_true (Nat.ne_of_gt (hfit a ha).1)
  rw [readRow, ← List.map_drop, hrest, List.map_append, hread, List.append_assoc,
    List.takeWhile_append_of_pos hnonzero]
  simp

/-- The alias tables of a generator. -/
structure AliasTables where
  conditions : AliasState
  rows : RowState

/-- The tables that are made of the records. -/
def aliasTables (name : List Char) (records : List ConditionRecord) : AliasTables :=
  let conditions := AliasState.process records
  { conditions := conditions
    rows := RowState.generateEncodings name conditions.registry records.length }

namespace AliasTables

/-- The union of `aliascond` and `aliases` in the row of an encoding: `aliases` is written last. -/
def union (t : AliasTables) (p : Nat) : Nat :=
  ((t.rows.indexes[p]?.join <|> t.conditions.indexes[p]?.join).getD 0) % 2 ^ 16

/-- Everything can be reached by an index of 16 bits. -/
structure Fits (t : AliasTables) : Prop where
  encodings : t.conditions.registry.encodings.length ≤ 2 ^ 16
  conditions : t.conditions.aliascond.items.length ≤ 2 ^ 16
  rows : t.rows.sequence.table.length ≤ 2 ^ 16

end AliasTables

section Tables

variable {name : List Char} {records : List ConditionRecord}

theorem ConditionRecord.aliasofAt {p : Nat} {e : ConditionRecord} (h : records[p]? = some e) :
    aliasofAt (records.map ConditionRecord.toAliasRecord) p = e.aliasof := by
  rw [Generator.aliasofAt, List.getElem?_map, h]
  rfl

/-- What the union of a base encoding leads to: its aliases. -/
theorem readRow_union (hfits : (aliasTables name records).Fits) {p : Nat} {e : ConditionRecord}
    (he : records[p]? = some e) (hbase : e.aliasof = none) :
    readRow (aliasTables name records).rows.sequence ((aliasTables name records).union p) =
      (AliasState.process records).registry.aliases (.record p) := by
  have hconditions := AliasState.process_holds records
  have hlt := (List.getElem?_eq_some_iff.mp he).choose
  have hrun := process_holds (records.map ConditionRecord.toAliasRecord)
  obtain ⟨arrays, hrows⟩ := RowState.generateEncodings_holds name
    (AliasState.process records).registry records.length
  have hencodings : (AliasState.process records).registry.encodings.length = records.length := by
    rw [hconditions.registry, hrun.encodings, List.length_map]
  -- an alias stands behind its base, so none of them has the index of the end mark
  have hfit : ∀ q ∈ (AliasState.process records).registry.aliases (.record p),
      0 < q ∧ q < 2 ^ 16 := by
    intro q hq
    rw [hconditions.registry, hrun.aliases] at hq
    obtain ⟨id, hid, -, hle, -⟩ := hq
    have hq' := lt_of_aliasofAt hid
    rw [List.length_map] at hq'
    have hbound := hfits.encodings
    change (AliasState.process records).registry.encodings.length ≤ _ at hbound
    refine ⟨Nat.pos_of_ne_zero ?_, by omega⟩
    rintro rfl
    obtain rfl : p = 0 := Nat.le_zero.mp hle
    rw [ConditionRecord.aliasofAt he, hbase] at hid
    cases hid
  have hunion : (aliasTables name records).union p =
      (((RowState.generateEncodings name (AliasState.process records).registry
        records.length).indexes[p]?.join <|>
          (AliasState.process records).indexes[p]?.join).getD 0) % 2 ^ 16 := rfl
  cases hrow : (AliasState.process records).registry.registerEncodingAliases p with
  | none =>
      rw [hrows.plain p hlt hrow, hconditions.plain p e he hbase] at hunion
      have haliases : (AliasState.process records).registry.aliases (.record p) = [] := by
        rw [Registry.registerEncodingAliases] at hrow
        split at hrow
        · assumption
        · cases hrow
      rw [hunion, haliases]
      exact readRow_of_placed hrows.filled hrows.first fun a ha => absurd ha List.not_mem_nil
  | some row =>
      obtain ⟨index, hindex, hplaced⟩ := hrows.row p hlt row hrow
      have hrow' : row = (AliasState.process records).registry.aliases (.record p) ++ [0] := by
        rw [Registry.registerEncodingAliases] at hrow
        split at hrow
        · cases hrow
        · exact (Option.some.inj hrow).symm
      have hindexlt : index < 2 ^ 16 :=
        (Sequence.Placed.lt hrows.filled hplaced).trans_le hfits.rows
      rw [hrow'] at hplaced
      rw [hindex] at hunion
      rw [hunion]
      change readRow _ (index % 2 ^ 16) = _
      rw [Nat.mod_eq_of_lt hindexlt]
      exact readRow_of_placed hrows.filled hplaced hfit

/-- What the union of an alias without aliases of its own leads to: its condition. -/
theorem aliascondFunction_union (hfits : (aliasTables name records).Fits) {q : Nat}
    {e : ConditionRecord} (he : records[q]? = some e) (halias : e.aliasof.isSome)
    (hown : ∀ q', ¬LandsOn (records.map ConditionRecord.toAliasRecord) q' q) :
    aliascondFunction (aliasTables name records).conditions.aliascond
      ((aliasTables name records).union q) = e.condition := by
  have hconditions := AliasState.process_holds records
  have hlt := (List.getElem?_eq_some_iff.mp he).choose
  have hrun := process_holds (records.map ConditionRecord.toAliasRecord)
  obtain ⟨arrays, hrows⟩ := RowState.generateEncodings_holds name
    (AliasState.process records).registry records.length
  have haliases : (AliasState.process records).registry.aliases (.record q) = [] := by
    rw [List.eq_nil_iff_forall_not_mem]
    intro q' hq'
    rw [hconditions.registry, hrun.aliases] at hq'
    exact hown q' hq'
  have hrow : (AliasState.process records).registry.registerEncodingAliases q = none := by
    rw [Registry.registerEncodingAliases, haliases]
  obtain ⟨index, item, hindex, hitem, hdata⟩ := hconditions.condition q e he halias
  have hindexlt : index < 2 ^ 16 :=
    (List.getElem?_eq_some_iff.mp hitem).choose.trans_le hfits.conditions
  have hunion : (aliasTables name records).union q =
      (((RowState.generateEncodings name (AliasState.process records).registry
        records.length).indexes[q]?.join <|>
          (AliasState.process records).indexes[q]?.join).getD 0) % 2 ^ 16 := rfl
  rw [hrows.plain q hlt hrow, hindex] at hunion
  rw [hunion]
  change aliascondFunction _ (index % 2 ^ 16) = _
  rw [Nat.mod_eq_of_lt hindexlt, ← hdata]
  exact aliascondFunction_eq hconditions.dictionary hitem

/-- An alias that the decoders accept: its pattern matches and its condition holds. -/
def AliasPasses (records : List ConditionRecord) (fits : Nat → Bool) (value : List Char → Bool)
    (q : Nat) : Prop :=
  fits q = true ∧ ∃ e, records[q]? = some e ∧ value e.condition = true

/-- The search of `decode_alias` through the tables: it finds the first alias of the base encoding
that passes. -/
theorem find?_aliases_iff (hfits : (aliasTables name records).Fits) {p : Nat} {e : ConditionRecord}
    (he : records[p]? = some e) (hbase : e.aliasof = none)
    (hown : ∀ q, LandsOn (records.map ConditionRecord.toAliasRecord) q p →
      ∀ q', ¬LandsOn (records.map ConditionRecord.toAliasRecord) q' q)
    (fits : Nat → Bool) (value : List Char → Bool) (q : Nat) :
    ((readRow (aliasTables name records).rows.sequence
      ((aliasTables name records).union p)).find? fun q => fits q &&
        value (aliascondFunction (aliasTables name records).conditions.aliascond
          ((aliasTables name records).union q))) = some q ↔
      LandsOn (records.map ConditionRecord.toAliasRecord) q p ∧
        AliasPasses records fits value q ∧
          ∀ q' < q, LandsOn (records.map ConditionRecord.toAliasRecord) q' p →
            ¬AliasPasses records fits value q' := by
  have hregistry := (AliasState.process_holds records).registry
  have hrun := process_holds (records.map ConditionRecord.toAliasRecord)
  have hmem : ∀ q, q ∈ (AliasState.process records).registry.aliases (.record p) ↔
      LandsOn (records.map ConditionRecord.toAliasRecord) q p := by
    intro q
    rw [hregistry]
    exact hrun.aliases p q
  have hsorted := process_aliases_sorted (records.map ConditionRecord.toAliasRecord) p
  rw [← hregistry] at hsorted
  have hpasses : ∀ q, LandsOn (records.map ConditionRecord.toAliasRecord) q p →
      ((fits q && value (aliascondFunction (aliasTables name records).conditions.aliascond
        ((aliasTables name records).union q))) = true ↔ AliasPasses records fits value q) := by
    intro q hq
    obtain ⟨id, hid, -⟩ := id hq
    have hlt := lt_of_aliasofAt hid
    rw [List.length_map] at hlt
    have hq' : records[q]? = some records[q] := List.getElem?_eq_getElem hlt
    rw [ConditionRecord.aliasofAt hq'] at hid
    rw [aliascondFunction_union hfits hq' (by rw [hid]; rfl) (hown q hq), Bool.and_eq_true,
      AliasPasses, hq']
    simp
  rw [readRow_union hfits he hbase, Numbering.find?_eq_some_iff_least hsorted, hmem]
  constructor
  · rintro ⟨hq, hpass, hleast⟩
    refine ⟨hq, (hpasses q hq).mp hpass, fun q' hlt hq' => ?_⟩
    rw [← hpasses q' hq', Bool.not_eq_true]
    exact hleast q' ((hmem q').mpr hq') hlt
  · rintro ⟨hq, hpass, hleast⟩
    refine ⟨hq, (hpasses q hq).mpr hpass, fun q' hq' hlt => ?_⟩
    rw [← Bool.not_eq_true, hpasses q' ((hmem q').mp hq')]
    exact hleast q' hlt ((hmem q').mp hq')

end Tables

end Amed.Generator

import Amed.Generator.Bitdiffs
import Amed.Generator.EmittedLookup
import Amed.Generator.Lookup

/-!
# From the symbolic fields to the selected x86 template

`process_encoding` joins the bits of every template with those of its encoding, `generate_disasm`
prints one function with a case for each slot of the opcode maps, and the decoder takes the result
apart again.

## Implementation notes

The bits are joined by `|=`: where an encoding and its template both fill in a key, the hashcode is
compared with both values joined. A slot that no encoding is in returns 0.
-/

namespace Amed.Generator

open BitFields Selection Statements X86

/-! ## Joined bits -/

/-- An `ENCODING` record of the x86 database: the fields of its diagram and of its templates' bit
differences. -/
structure X86Record where
  invalid : Bool
  map : OpcodeMap
  op : UInt8
  fields : SymbolicFields
  templates : List SymbolicFields

/-- Two values of a key behind `|=`. -/
def joinValues : Option Nat → Option Nat → Option Nat
  | none, v => v
  | some v, none => some v
  | some v, some v' => some (v ||| v')

/-- The value of a key behind `$topcode |= $eopcode`. -/
def joinedValue (fe ft : SymbolicFields) (k : Key) : Option Nat :=
  joinValues (ft.value k) (fe.value k)

theorem joinValues_isSome (v v' : Option Nat) :
    (joinValues v v').isSome = (v.isSome || v'.isSome) := by
  cases v <;> cases v' <;> rfl

theorem joinValues_getD (v v' : Option Nat) :
    (joinValues v v').getD 0 = v.getD 0 ||| v'.getD 0 := by
  cases v <;> cases v' <;> simp [joinValues]

theorem joinedValue_lt {fe ft : SymbolicFields} {k : Key} {v : Nat}
    (h : joinedValue fe ft k = some v) : v < 2 ^ (fldinfo k).width := by
  have hgetD (f : SymbolicFields) : (f.value k).getD 0 < 2 ^ (fldinfo k).width := by
    cases hf : f.value k with
    | none => exact Nat.two_pow_pos _
    | some v => exact value_lt f k hf
  have hv : v = (ft.value k).getD 0 ||| (fe.value k).getD 0 := by
    rw [← joinValues_getD]
    change v = (joinedValue fe ft k).getD 0
    rw [h]
    rfl
  rw [hv]
  exact Nat.or_lt_two_pow (hgetD ft) (hgetD fe)

/-- The settings of some keys. -/
def settingsBy (value : Key → Option Nat) (ks : List Key) : List Setting :=
  ks.filterMap fun k => (value k).map (Setting.mk (fldinfo k))

theorem settingsBy_cons (value : Key → Option Nat) (k : Key) (ks : List Key) :
    maskOf (settingsBy value (k :: ks)) =
        (if (value k).isSome then (fldinfo k).mask else 0) ||| maskOf (settingsBy value ks) ∧
      valueOf (settingsBy value (k :: ks)) =
        (value k).getD 0 <<< (fldinfo k).pos ||| valueOf (settingsBy value ks) := by
  unfold settingsBy
  cases hv : value k with
  | none => simp [hv]
  | some v => simp [hv, maskOf, valueOf]

/-- The joined settings hold what both lists hold. -/
theorem settingsBy_join (value value' : Key → Option Nat) (ks : List Key) :
    maskOf (settingsBy (fun k => joinValues (value k) (value' k)) ks) =
        maskOf (settingsBy value ks) ||| maskOf (settingsBy value' ks) ∧
      valueOf (settingsBy (fun k => joinValues (value k) (value' k)) ks) =
        valueOf (settingsBy value ks) ||| valueOf (settingsBy value' ks) := by
  induction ks with
  | nil => simp [settingsBy, maskOf, valueOf]
  | cons k ks ih =>
      obtain ⟨hmask, hvalue⟩ := ih
      obtain ⟨hm, hv⟩ := settingsBy_cons value k ks
      obtain ⟨hm', hv'⟩ := settingsBy_cons value' k ks
      obtain ⟨hm'', hv''⟩ := settingsBy_cons (fun k => joinValues (value k) (value' k)) k ks
      have hfirst : (if (joinValues (value k) (value' k)).isSome then (fldinfo k).mask else 0) =
          (if (value k).isSome then (fldinfo k).mask else 0) |||
            if (value' k).isSome then (fldinfo k).mask else 0 := by
        rw [joinValues_isSome]
        cases (value k).isSome <;> cases (value' k).isSome <;> simp
      constructor
      · rw [hm, hm', hm'', hmask, hfirst]
        ac_rfl
      · rw [hv, hv', hv'', hvalue, joinValues_getD, Nat.shiftLeft_or_distrib]
        ac_rfl

/-- A word passes the joined test exactly when every key has its joined value. -/
theorem and_joined_iff (fe ft : SymbolicFields) (w : Nat) :
    w &&& ((getOpcodes ft).2 ||| (getOpcodes fe).2) = (getOpcodes ft).1 ||| (getOpcodes fe).1 ↔
      ∀ k v, joinedValue fe ft k = some v → (fldinfo k).get w = v := by
  have hfits : ∀ s ∈ settingsBy (joinedValue fe ft) keys, s.Fits := by
    intro s hs
    obtain ⟨k, -, hk⟩ := List.mem_filterMap.mp hs
    obtain ⟨v, hv, rfl⟩ := Option.map_eq_some_iff.mp hk
    exact joinedValue_lt hv
  have hapart : (settingsBy (joinedValue fe ft) keys).Pairwise fun s t => s.field.Apart t.field := by
    refine keys_apart.filterMap _ fun k k' hkk s hs t ht => ?_
    obtain ⟨v, -, rfl⟩ := Option.map_eq_some_iff.mp hs
    obtain ⟨v', -, rfl⟩ := Option.map_eq_some_iff.mp ht
    exact hkk
  obtain ⟨hmask, hvalue⟩ := settingsBy_join ft.value fe.value keys
  rw [getOpcodes_eq, getOpcodes_eq]
  change w &&& (maskOf (settingsBy ft.value keys) ||| maskOf (settingsBy fe.value keys)) =
    valueOf (settingsBy ft.value keys) ||| valueOf (settingsBy fe.value keys) ↔ _
  rw [← hmask, ← hvalue]
  refine (and_maskOf_eq_iff hfits hapart w).trans ?_
  constructor
  · intro h k v hv
    exact h ⟨fldinfo k, v⟩ (List.mem_filterMap.mpr ⟨k, mem_keys k, by rw [hv]; rfl⟩)
  · intro h s hs
    obtain ⟨k, -, hk⟩ := List.mem_filterMap.mp hs
    obtain ⟨v, hv, rfl⟩ := Option.map_eq_some_iff.mp hk
    exact h k v hv

theorem getOpcodes_lt (f : SymbolicFields) :
    (getOpcodes f).1 < 2 ^ 32 ∧ (getOpcodes f).2 < 2 ^ 32 := by
  rw [getOpcodes_eq]
  exact ⟨valueOf_lt (settings_fits f) (settings_range f), maskOf_lt (settings_range f)⟩

theorem getOpcodes_within (f : SymbolicFields) : Within (getOpcodes f).1 (getOpcodes f).2 := by
  rw [getOpcodes_eq]
  exact valueOf_within (settings_fits f)

/-- `$template->{diagram}`. -/
def joinedTemplate (fe ft : SymbolicFields) : TemplateRecord where
  opcode := BitVec.ofNat 64 ((getOpcodes ft).1 ||| (getOpcodes fe).1)
  mask := BitVec.ofNat 64 ((getOpcodes ft).2 ||| (getOpcodes fe).2)
  inside := by
    rw [← BitVec.ofNat_and]
    exact congrArg (BitVec.ofNat 64) ((getOpcodes_within ft).or (getOpcodes_within fe))

/-- The record with the bits that `process_encoding` has filled in. -/
def X86Record.processed (r : X86Record) : EncodingRecord where
  invalid := r.invalid
  map := r.map
  op := r.op
  templates := r.templates.map (joinedTemplate r.fields)

/-- A diagram that has the joined value of every key. -/
def MeetsJoined (fe ft : SymbolicFields) (d : Diagram) : Prop :=
  ∀ k v, joinedValue fe ft k = some v → diagramValue d k = v

/-- The entry of a template matches the hashcodes of the diagrams that have its values. -/
theorem joinedTemplate_matches_iff (fe ft : SymbolicFields) {d : Diagram} (h : FieldsFit d)
    (encoding template : Nat) :
    ((joinedTemplate fe ft).entry encoding template).Matches (d.hashcode.setWidth 64) ↔
      MeetsJoined fe ft d := by
  have hvalue := Nat.or_lt_two_pow (getOpcodes_lt ft).1 (getOpcodes_lt fe).1
  have hmask := Nat.or_lt_two_pow (getOpcodes_lt ft).2 (getOpcodes_lt fe).2
  have hword : (d.hashcode.setWidth 64).toNat = d.hashcode.toNat := toNat_opcode _
  have htest : d.hashcode.setWidth 64 &&& (joinedTemplate fe ft).mask =
      (joinedTemplate fe ft).opcode ↔ MeetsJoined fe ft d := by
    rw [joinedTemplate, ← BitVec.toNat_inj, BitVec.toNat_and, hword, BitVec.toNat_ofNat,
      BitVec.toNat_ofNat, Nat.mod_eq_of_lt (by omega), Nat.mod_eq_of_lt (by omega), and_joined_iff]
    refine forall₃_congr fun k v _ => ?_
    rw [fldinfo_get_hashcode h]
  rw [← htest]
  exact and_iff_left fun c hc => absurd hc List.not_mem_nil

/-! ## The printed function -/

/-- `scalar @$table`: the slot of the last record, and one more. -/
def tableSize (records : List EncodingRecord) : Nat :=
  ((records.filter fun e => !e.invalid).map fun e => e.slot + 1).foldl max 0

/-- What is printed for a slot. -/
def Disasm.slotCode (d : Disasm) (slot : Nat) : Statement :=
  if (d.entries slot).isEmpty then .ret 0 else .seq (d.trees slot).print .brk

def Disasm.slotCases (d : Disasm) : List (Int × Statement) :=
  (List.range (tableSize d.records)).map fun slot : Nat => ((slot : Int), d.slotCode slot)

/-- The body of `x86_lookup`. -/
def Disasm.functionBody (d : Disasm) : Statement := .seq (.switch .index d.slotCases) (.ret 0)

/-- The printed `x86_lookup`. -/
def Disasm.x86Function (d : Disasm) (index hashcode : BitVec 32) : Nat :=
  (execPrinted index hashcode d.functionBody).valueOr 0

theorem slot_lt_tableSize {records : List EncodingRecord} {e : EncodingRecord} (h : e ∈ records)
    (hvalid : e.invalid = false) : e.slot < tableSize records := by
  refine (Numbering.le_foldl_max _ 0).2 (e.slot + 1) (List.mem_map.mpr ⟨e, ?_, rfl⟩)
  rw [List.mem_filter, hvalid]
  exact ⟨h, rfl⟩

/-- The entries of a slot with the numbers of their records and templates. -/
theorem mem_slotEntries {slot : Nat} {records : List EncodingRecord} {encoding template : Nat}
    {e : Entry} :
    e ∈ slotEntries slot records encoding template ↔
      ∃ (i : Nat) (r : EncodingRecord) (j : Nat) (t : TemplateRecord), records[i]? = some r ∧
        r.invalid = false ∧ r.slot = slot ∧ r.templates[j]? = some t ∧
        e = t.entry (encoding + i)
          (template + ((records.take i).map fun r => r.templates.length).sum + j) := by
  induction records generalizing encoding template with
  | nil => simp [slotEntries]
  | cons r records ih =>
      rw [slotEntries, List.mem_append, ih]
      constructor
      · rintro (hfirst | ⟨i, r', j, t, hr, hvalid, hslot, ht, rfl⟩)
        · split at hfirst
          · cases hfirst
          · rename_i hkept
            simp only [Bool.or_eq_true, decide_eq_true_eq, not_or, Bool.not_eq_true,
              not_not, ne_eq] at hkept
            obtain ⟨p, hp, rfl⟩ := List.mem_map.mp hfirst
            obtain ⟨t, k⟩ := p
            obtain ⟨hle, ht⟩ := List.mk_mem_zipIdx_iff_le_and_getElem?_sub.mp hp
            refine ⟨0, r, k - template, t, rfl, hkept.1, hkept.2, ht, ?_⟩
            simp [Nat.add_sub_cancel' hle]
        · refine ⟨i + 1, r', j, t, hr, hvalid, hslot, ht, ?_⟩
          rw [List.take_succ_cons, List.map_cons, List.sum_cons]
          congr 1 <;> omega
      · rintro ⟨i, r', j, t, hr, hvalid, hslot, ht, rfl⟩
        cases i with
        | zero =>
            cases hr
            left
            rw [hvalid, hslot]
            simp only [ne_eq, not_true_eq_false, decide_false, Bool.or_self, Bool.false_eq_true,
              if_false]
            refine List.mem_map.mpr ⟨(t, template + j), ?_, by simp⟩
            rw [List.mk_mem_zipIdx_iff_le_and_getElem?_sub]
            exact ⟨Nat.le_add_right _ _, by rwa [Nat.add_sub_cancel_left]⟩
        | succ i =>
            right
            refine ⟨i, r', j, t, hr, hvalid, hslot, ht, ?_⟩
            rw [List.take_succ_cons, List.map_cons, List.sum_cons]
            congr 1 <;> omega

namespace Disasm

variable (d : Disasm)

theorem entries_of_ge {slot : Nat} (h : tableSize d.records ≤ slot) : d.entries slot = [] := by
  rw [List.eq_nil_iff_forall_not_mem]
  intro e he
  obtain ⟨i, r, j, t, hr, hvalid, rfl, -⟩ := mem_slotEntries.mp he
  have := slot_lt_tableSize (List.mem_of_getElem? hr) hvalid
  omega

/-- The masks of the templates are masks of hashcodes. -/
def Low : Prop := ∀ r ∈ d.records, ∀ t ∈ r.templates, Inside t.mask lowMask

theorem lowEntries (h : d.Low) (slot : Nat) : LowEntries (d.entries slot) := by
  intro e he
  obtain ⟨i, r, j, t, hr, -, -, ht, rfl⟩ := mem_slotEntries.mp he
  exact h r (List.mem_of_getElem? hr) t (List.mem_of_getElem? ht)

theorem printable_of_ne_nil (h : d.Low) {slot : Nat} (hne : d.entries slot ≠ []) :
    (d.trees slot).Printable :=
  getTree_printable (d.lowEntries h slot) (d.divided slot hne)

/-- The code of a slot returns, or breaks where its tree ends nowhere. -/
theorem exec_slotCode (h : d.Low) (index hashcode : BitVec 32) (slot : Nat) :
    execPrinted index hashcode (d.slotCode slot) ≠ .fell ∧
      ((execPrinted index hashcode (d.slotCode slot)).leave.andThen (.returned 0)) =
        .returned (d.x86Lookup slot hashcode) := by
  unfold slotCode x86Lookup walk
  cases hempty : (d.entries slot).isEmpty with
  | true =>
      rw [if_pos rfl, if_pos rfl]
      exact ⟨by simp [execPrinted, Stmt.exec],
        by simp [execPrinted, Stmt.exec, Outcome.leave, Outcome.andThen]⟩
  | false =>
      rw [if_neg Bool.false_ne_true, if_neg Bool.false_ne_true]
      have hne : d.entries slot ≠ [] := fun hnil => by simp [hnil] at hempty
      refine ⟨Stmt.exec_seq_brk_ne_fell _ _ _, ?_⟩
      have hexec : execPrinted index hashcode (.seq (d.trees slot).print .brk) =
          (execPrinted index hashcode (d.trees slot).print).andThen .broke := by
        simp only [execPrinted, Stmt.exec]
      rw [hexec, execPrinted_print index hashcode _ (d.printable_of_ne_nil h hne),
        Outcome.leave_andThen_ofOption, Outcome.andThen_ofOption]

theorem slotCases_nodup : (d.slotCases.map Prod.fst).Nodup := by
  rw [slotCases, List.map_map]
  exact List.nodup_range.map fun _ _ h => Int.ofNat.inj h

theorem find_slotCases (slot : Nat) :
    (d.slotCases.find? fun c => c.1 = (slot : Int)) =
      if slot < tableSize d.records then some ((slot : Int), d.slotCode slot) else none := by
  split
  · rename_i hlt
    have hmem : ((slot : Int), d.slotCode slot) ∈ d.slotCases :=
      List.mem_map.mpr ⟨slot, List.mem_range.mpr hlt, rfl⟩
    exact Stmt.find?_of_mem d.slotCases_nodup hmem
  · rename_i hge
    rw [List.find?_eq_none]
    intro c hc
    obtain ⟨slot', hslot', rfl⟩ := List.mem_map.mp hc
    rw [List.mem_range] at hslot'
    simp only [decide_eq_true_eq, Int.natCast_inj]
    omega

/-- The printed function is the lookup, for every index. -/
theorem x86Function_eq (h : d.Low) (index hashcode : BitVec 32) :
    d.x86Function index hashcode = d.x86Lookup index.toNat hashcode := by
  have hstops : ∀ c ∈ d.slotCases, execPrinted index hashcode c.2 ≠ .fell := by
    intro c hc
    obtain ⟨slot, -, rfl⟩ := List.mem_map.mp hc
    exact (d.exec_slotCode h index hashcode slot).1
  have hbody : execPrinted index hashcode d.functionBody =
      (Stmt.jump (Variables.declare index hashcode).holds
        (Variables.declare index hashcode).switchValue (index.toNat : Int)
        d.slotCases).leave.andThen (.returned 0) := by
    simp only [execPrinted, functionBody, Stmt.exec]
    rfl
  rw [x86Function, hbody, Stmt.jump_of_ne_fell _ _ hstops, find_slotCases]
  split
  · exact congrArg (Outcome.valueOr 0) (d.exec_slotCode h index hashcode index.toNat).2
  · rename_i hge
    rw [x86Lookup, walk, d.entries_of_ge (Nat.le_of_not_lt hge)]
    rfl

/-- The function compiles: the slots have different labels, and every break is in a switch. -/
theorem functionBody_compiles (h : d.Low) :
    d.functionBody.Compiles Test.Declared (SwitchValue.Declared True) False := by
  refine ⟨⟨trivial, d.slotCases_nodup, (Stmt.casesCompile_iff _ _ _).mpr fun c hc => ?_⟩, trivial⟩
  obtain ⟨slot, -, rfl⟩ := List.mem_map.mp hc
  change Stmt.Compiles _ _ True (d.slotCode slot)
  unfold slotCode
  split
  · trivial
  · rename_i hne
    refine ⟨print_compiles True True _ (d.printable_of_ne_nil h fun hnil => hne ?_), trivial⟩
    rw [hnil]
    rfl

end Disasm

/-! ## From the records to the template -/

/-- The number of the first template of a record. -/
def firstTemplateIndex (records : List X86Record) (i : Nat) : Nat :=
  ((records.take i).map fun r => r.templates.length).sum

/-- A template of a slot whose fields, joined with those of its record, a diagram meets. -/
structure TemplateCandidate (records : List X86Record) (slot : Nat) (d : Diagram)
    (i t : Nat) (r : X86Record) (ft : SymbolicFields) : Prop where
  record : records[i]? = some r
  valid : r.invalid = false
  slot : r.op.toNat + r.map.maped * 256 = slot
  first_le : firstTemplateIndex records i ≤ t
  template : r.templates[t - firstTemplateIndex records i]? = some ft
  meets : MeetsJoined r.fields ft d

/-- The number of bits that the joined fields fix. -/
def joinedBits (fe ft : SymbolicFields) : Nat := getBitCount (joinedTemplate fe ft).mask

/-- The lookup is the printed function of the records. -/
def LookupMadeFrom (db : X86.Db) (records : List X86Record) : Prop :=
  ∃ d : Disasm, d.records = records.map X86Record.processed ∧
    ∀ index hashcode : BitVec 32, db.lookup index.toNat hashcode = d.x86Function index hashcode

section Records

variable {d : Disasm} {records : List X86Record}

theorem low_of_records (h : d.records = records.map X86Record.processed) : d.Low := by
  intro r hr t ht
  rw [h] at hr
  obtain ⟨r', -, rfl⟩ := List.mem_map.mp hr
  obtain ⟨ft, -, rfl⟩ := List.mem_map.mp ht
  have hmask := Nat.or_lt_two_pow (getOpcodes_lt ft).2 (getOpcodes_lt r'.fields).2
  change BitVec.ofNat 64 _ &&& BitVec.ofNat 64 (2 ^ 32 - 1) = _
  rw [← BitVec.ofNat_and, Nat.and_two_pow_sub_one_eq_mod, Nat.mod_eq_of_lt hmask]
  rfl

/-- The function printed for the records compiles, and returns for every index and hashcode what the
trees of the slots lead to; behind the last slot that is 0. -/
theorem x86Function_of_records (h : d.records = records.map X86Record.processed) :
    d.functionBody.Compiles Test.Declared (SwitchValue.Declared True) False ∧
      (∀ index hashcode : BitVec 32,
        d.x86Function index hashcode = d.x86Lookup index.toNat hashcode) ∧
      ∀ index hashcode : BitVec 32, tableSize d.records ≤ index.toNat →
        d.x86Function index hashcode = 0 := by
  have hlow := low_of_records h
  refine ⟨d.functionBody_compiles hlow, d.x86Function_eq hlow, fun index hashcode hge => ?_⟩
  rw [d.x86Function_eq hlow, Disasm.x86Lookup, Disasm.walk, d.entries_of_ge hge]
  rfl

/-- The invalid record, and `HLT`. -/
def haltRecords : List X86Record :=
  [⟨true, .primary, 0, { }, [{ }]⟩, ⟨false, .primary, 0xf4, { }, [{ }]⟩]

/-- The function of these records: one case, and 0 elsewhere. -/
def haltDisasm : Disasm where
  records := haltRecords.map X86Record.processed
  trees := fun _ => .leaf (1 <<< 16 ||| 1)
  fuel := 1
  divided := by
    intro slot hne
    by_cases hslot : 0xf4 = slot
    · subst hslot
      rfl
    · refine absurd ?_ hne
      simp [haltRecords, slotEntries, X86Record.processed, EncodingRecord.slot, OpcodeMap.maped,
        hslot]

theorem x86Function_of_records_halt :
    haltDisasm.functionBody.Compiles Test.Declared (SwitchValue.Declared True) False ∧
      (∀ index hashcode : BitVec 32,
        haltDisasm.x86Function index hashcode = haltDisasm.x86Lookup index.toNat hashcode) ∧
      ∀ index hashcode : BitVec 32, tableSize haltDisasm.records ≤ index.toNat →
        haltDisasm.x86Function index hashcode = 0 :=
  x86Function_of_records rfl

/-- The entries of a slot are the joined templates of its records. -/
theorem mem_entries_of_records (h : d.records = records.map X86Record.processed) {slot : Nat}
    {e : Entry} :
    e ∈ d.entries slot ↔
      ∃ (i j : Nat) (r : X86Record) (ft : SymbolicFields), records[i]? = some r ∧
        r.invalid = false ∧ r.op.toNat + r.map.maped * 256 = slot ∧ r.templates[j]? = some ft ∧
        e = (joinedTemplate r.fields ft).entry i (firstTemplateIndex records i + j) := by
  have hfirst (i : Nat) : ((d.records.take i).map fun r => r.templates.length).sum =
      firstTemplateIndex records i := by
    rw [h, firstTemplateIndex, ← List.map_take, List.map_map]
    refine congrArg List.sum (List.map_congr_left fun r _ => ?_)
    exact List.length_map _
  rw [Disasm.entries, mem_slotEntries]
  constructor
  · rintro ⟨i, r', j, t, hr', hvalid, hslot, ht, rfl⟩
    rw [hfirst, Nat.zero_add, Nat.zero_add]
    rw [h, List.getElem?_map] at hr'
    obtain ⟨r, hr, rfl⟩ := Option.map_eq_some_iff.mp hr'
    rw [X86Record.processed, List.getElem?_map] at ht
    obtain ⟨ft, hft, rfl⟩ := Option.map_eq_some_iff.mp ht
    exact ⟨i, j, r, ft, hr, hvalid, hslot, hft, rfl⟩
  · rintro ⟨i, j, r, ft, hr, hvalid, hslot, hft, rfl⟩
    refine ⟨i, r.processed, j, joinedTemplate r.fields ft, ?_, hvalid, hslot, ?_, ?_⟩
    · rw [h, List.getElem?_map, hr]
      rfl
    · rw [X86Record.processed, List.getElem?_map, hft]
      rfl
    · rw [hfirst, Nat.zero_add, Nat.zero_add]

end Records

/-- What the lookup answers for a diagram in a slot. -/
structure FindsTemplate (records : List X86Record) (slot : Nat) (d : Diagram) (answer : Nat) :
    Prop where
  met : (∃ i t r ft, TemplateCandidate records slot d i t r ft) →
    ∃ i t r ft, TemplateCandidate records slot d i t r ft ∧ answer = i <<< 16 ||| t ∧
      ∀ i' t' r' ft', TemplateCandidate records slot d i' t' r' ft' →
        joinedBits r'.fields ft' ≤ joinedBits r.fields ft
  answered : answer ≠ 0 → ∃ (i j : Nat) (r : X86Record) (ft : SymbolicFields),
    records[i]? = some r ∧ r.invalid = false ∧ r.op.toNat + r.map.maped * 256 = slot ∧
      r.templates[j]? = some ft ∧ answer = i <<< 16 ||| (firstTemplateIndex records i + j)

theorem x86Lookup_finds {d : Disasm} {records : List X86Record}
    (h : d.records = records.map X86Record.processed) (slot : Nat) {diagram : Diagram}
    (hfit : FieldsFit diagram) :
    FindsTemplate records slot diagram (d.x86Lookup slot diagram.hashcode) := by
  have hselects := d.walk_selects slot diagram.hashcode
  have hentry {i t : Nat} {r : X86Record} {ft : SymbolicFields}
      (hc : TemplateCandidate records slot diagram i t r ft) :
      (joinedTemplate r.fields ft).entry i t ∈ d.entries slot := by
    refine (mem_entries_of_records h).mpr ⟨i, t - firstTemplateIndex records i, r, ft, hc.record,
      hc.valid, hc.slot, hc.template, ?_⟩
    rw [Nat.add_sub_cancel' hc.first_le]
  have hmatches {i t : Nat} {r : X86Record} {ft : SymbolicFields}
      (hc : TemplateCandidate records slot diagram i t r ft) :
      ((joinedTemplate r.fields ft).entry i t).Matches
        (diagram.hashcode.setWidth 64) :=
    (joinedTemplate_matches_iff _ _ hfit i t).mpr hc.meets
  constructor
  · rintro ⟨i, t, r, ft, hc⟩
    obtain ⟨e, he, hm, hwalk, hbest⟩ := hselects.complete ⟨_, hentry hc, hmatches hc⟩
    obtain ⟨i', j', r', ft', hr', hvalid, hslot, hft', rfl⟩ := (mem_entries_of_records h).mp he
    refine ⟨i', firstTemplateIndex records i' + j', r', ft',
      ⟨hr', hvalid, hslot, Nat.le_add_right _ _, ?_,
        (joinedTemplate_matches_iff _ _ hfit _ _).mp hm⟩, ?_, fun k l r'' ft'' hc' => ?_⟩
    · rwa [Nat.add_sub_cancel_left]
    · rw [Disasm.x86Lookup, hwalk]
      rfl
    · exact hbest _ (hentry hc') (hmatches hc')
  · intro hne
    cases hwalk : d.walk slot diagram.hashcode with
    | none =>
        rw [Disasm.x86Lookup, hwalk] at hne
        exact absurd rfl hne
    | some answer =>
        obtain ⟨e, he, rfl⟩ := hselects.sound answer hwalk
        obtain ⟨i, j, r, ft, hr, hvalid, hslot, hft, rfl⟩ := (mem_entries_of_records h).mp he
        refine ⟨i, j, r, ft, hr, hvalid, hslot, hft, ?_⟩
        rw [Disasm.x86Lookup, hwalk]
        rfl

/-! ## The decoder -/

theorem hashSizes_opcode (d : Diagram) : d.hashSizes.opcode = d.opcode := by
  unfold Diagram.hashSizes
  dsimp only
  split <;> rfl

/-- The size override of a template leaves the keys and the opcode alone. -/
theorem overrideSize_keys (d : Diagram) (t : DbTemplate) :
    (d.overrideSize t).opcode = d.opcode ∧
      ∀ k, diagramValue (d.overrideSize t) k = diagramValue d k := by
  unfold Diagram.overrideSize
  split
  · split
    · exact ⟨rfl, fun k => by cases k <;> rfl⟩
    · split
      · exact ⟨rfl, fun k => by cases k <;> rfl⟩
      · exact ⟨rfl, fun _ => rfl⟩
  · exact ⟨rfl, fun _ => rfl⟩

theorem meetsJoined_congr {fe ft : SymbolicFields} {d d' : Diagram}
    (h : ∀ k, diagramValue d' k = diagramValue d k) : MeetsJoined fe ft d' ↔ MeetsJoined fe ft d :=
  forall₃_congr fun k v _ => by rw [h k]

theorem templateCandidate_congr {records : List X86Record} {slot i t : Nat} {r : X86Record}
    {ft : SymbolicFields} {d d' : Diagram} (h : ∀ k, diagramValue d' k = diagramValue d k) :
    TemplateCandidate records slot d' i t r ft ↔ TemplateCandidate records slot d i t r ft := by
  constructor
  · exact fun hc => { hc with meets := (meetsJoined_congr h).mp hc.meets }
  · exact fun hc => { hc with meets := (meetsJoined_congr h).mpr hc.meets }

/-- The two halves of a result. -/
theorem result_halves (i : Nat) {t : Nat} (ht : t < 2 ^ 16) :
    (i <<< 16 ||| t) / 2 ^ 16 = i ∧ (i <<< 16 ||| t) % 2 ^ 16 = t := by
  rw [← Nat.shiftLeft_add_eq_or_of_lt ht, Nat.shiftLeft_eq]
  omega

/-- The templates have numbers of 16 bits. -/
def TemplatesFit (records : List X86Record) : Prop :=
  firstTemplateIndex records records.length ≤ 2 ^ 16

theorem firstTemplateIndex_succ {records : List X86Record} {i : Nat} {r : X86Record}
    (h : records[i]? = some r) :
    firstTemplateIndex records (i + 1) = firstTemplateIndex records i + r.templates.length := by
  rw [firstTemplateIndex, List.take_add_one, h, List.map_append, List.sum_append]
  simp [firstTemplateIndex]

theorem firstTemplateIndex_le (records : List X86Record) {i j : Nat} (h : i ≤ j) :
    firstTemplateIndex records i ≤ firstTemplateIndex records j := by
  unfold firstTemplateIndex
  obtain ⟨k, rfl⟩ := Nat.exists_eq_add_of_le h
  rw [List.take_add, List.map_append, List.sum_append]
  exact Nat.le_add_right _ _

theorem template_lt {records : List X86Record} (hfit : TemplatesFit records) {i j : Nat}
    {r : X86Record} {ft : SymbolicFields} (hr : records[i]? = some r)
    (hft : r.templates[j]? = some ft) : firstTemplateIndex records i + j < 2 ^ 16 := by
  have hlt : j < r.templates.length := (List.getElem?_eq_some_iff.mp hft).1
  have hi : i < records.length := (List.getElem?_eq_some_iff.mp hr).1
  have hstep := firstTemplateIndex_succ hr
  have hle := firstTemplateIndex_le records (Nat.succ_le_of_lt hi)
  unfold TemplatesFit at hfit
  rw [Nat.succ_eq_add_one] at hle
  omega

/-- The slot of the opcode maps that the decoder has looked into. -/
def slotOf (s : X86.Internal) : Nat := s.mapidx + s.diagram.opcode.toNat

/-- The decoder has gone on with a template of the records. -/
structure GoesOnWith (records : List X86Record) (s : X86.Internal) : Prop where
  /-- The bitfields of the diagram that the lookup has put together fit the hashcode. -/
  fits : FieldsFit s.diagram
  /-- It fixes the most bits, of the templates of the slot whose joined fields the diagram meets. -/
  best : (∃ i t r ft, TemplateCandidate records (slotOf s) s.diagram i t r ft) →
    ∃ r ft, TemplateCandidate records (slotOf s) s.diagram s.encoding s.ptemplate r ft ∧
      ∀ i' t' r' ft', TemplateCandidate records (slotOf s) s.diagram i' t' r' ft' →
        joinedBits r'.fields ft' ≤ joinedBits r.fields ft
  /-- An instruction that is not flagged has a record of the slot and a template of this record. -/
  real : s.insn.attributes.isUndefined = false →
    ∃ (r : X86Record) (j : Nat) (ft : SymbolicFields), records[s.encoding]? = some r ∧
      r.invalid = false ∧ r.op.toNat + r.map.maped * 256 = slotOf s ∧
      r.templates[j]? = some ft ∧ s.ptemplate = firstTemplateIndex records s.encoding + j

/-- The size override of a template touches no bitfield of the hashcode. -/
theorem overrideSize_fits {d : Diagram} (h : FieldsFit d) (t : DbTemplate) :
    FieldsFit (d.overrideSize t) := by
  unfold Diagram.overrideSize
  split
  · split
    · exact ⟨h.reg, h.rm, h.len, h.enc, h.asz, h.features⟩
    · split
      · exact ⟨h.reg, h.rm, h.len, h.enc, h.asz, h.features⟩
      · exact h
  · exact h

/-- The lookup in tables made of records goes on with the best template of the slot. -/
theorem selectTemplate_finds {db : X86.Db} {records : List X86Record}
    (h : LookupMadeFrom db records) (hfit : TemplatesFit records) (s : X86.Internal)
    (hfields : FieldsFit s.diagram.hashSizes) (hslot : slotOf s < 2 ^ 32) :
    GoesOnWith records (X86.selectTemplate db s) := by
  obtain ⟨d, hrecords, hlookup⟩ := h
  generalize hanswer : db.lookup (s.mapidx + s.diagram.hashSizes.opcode.toNat)
    s.diagram.hashSizes.hashcode = answer
  have hfinds : FindsTemplate records (slotOf s) s.diagram.hashSizes answer := by
    have hindex : (BitVec.ofNat 32 (slotOf s)).toNat = slotOf s := by
      rw [BitVec.toNat_ofNat, Nat.mod_eq_of_lt hslot]
    have hcall := hlookup (BitVec.ofNat 32 (slotOf s)) s.diagram.hashSizes.hashcode
    rw [d.x86Function_eq (low_of_records hrecords), hindex] at hcall
    rw [← hanswer, hashSizes_opcode]
    exact hcall ▸ x86Lookup_finds hrecords _ hfields
  have hencoding : (X86.selectTemplate db s).encoding = answer / 2 ^ 16 :=
    congrArg (· / 2 ^ 16) hanswer
  have htemplate : (X86.selectTemplate db s).ptemplate = answer % 2 ^ 16 :=
    congrArg (· % 2 ^ 16) hanswer
  obtain ⟨hopcode, hkeys⟩ := overrideSize_keys s.diagram.hashSizes
    (db.templates (X86.selectTemplate db s).ptemplate)
  have hslots : slotOf (X86.selectTemplate db s) = slotOf s :=
    congrArg (fun op : UInt8 => s.mapidx + op.toNat) (hopcode.trans (hashSizes_opcode _))
  have hcandidate (i t : Nat) (r : X86Record) (ft : SymbolicFields) :
      TemplateCandidate records (slotOf (X86.selectTemplate db s))
          (X86.selectTemplate db s).diagram i t r ft ↔
        TemplateCandidate records (slotOf s) s.diagram.hashSizes i t r ft := by
    rw [hslots]
    exact templateCandidate_congr hkeys
  refine ⟨overrideSize_fits hfields _, ?_, ?_⟩
  · simp only [hcandidate]
    intro hmet
    obtain ⟨i, t, r, ft, hc, rfl, hbest⟩ := hfinds.met hmet
    have ht : t < 2 ^ 16 := by
      have := template_lt hfit hc.record hc.template
      rwa [Nat.add_sub_cancel' hc.first_le] at this
    obtain ⟨hi, ht'⟩ := result_halves i ht
    rw [hencoding, htemplate, hi, ht']
    exact ⟨r, ft, hc, hbest⟩
  · intro hdefined
    have hne : answer ≠ 0 := by
      rintro rfl
      have hflag := selectTemplate_isUndefined db s
      rw [hanswer, hdefined] at hflag
      simp [flaggedAsMiss] at hflag
    obtain ⟨i, j, r, ft, hr, hvalid, hs, hft, rfl⟩ := hfinds.answered hne
    obtain ⟨hi, ht⟩ := result_halves i (template_lt hfit hr hft)
    rw [hencoding, htemplate, hi, ht, hslots]
    exact ⟨r, j, ft, hr, hvalid, hs, hft, rfl⟩

end Amed.Generator

import Amed.Generator.Constraints
import Amed.Generator.EmittedLookup

/-!
# The generated ARM lookups

`process_encoding` compiles the constraints of a record into its diagram and numbers the records in
their order. `generate_disasm` collects the records of an instruction set that are neither invalid
nor aliases, and `generate_isaform_disasm` divides them into a tree and prints its function.

## Implementation notes

A record keeps what the lookup is made from. Its opcode lies in its mask and its mask in a word of
32 bits; its constraints are texts that parse. Comments and file names are left out.
-/

namespace Amed.Generator

open BitFields Selection

/-! ## Records -/

/-- The constraint texts of a record: `$cnsts =~ /(\S+)/g`, for a text that is there. -/
def constraintWords : Option (List Char) → List (List Char)
  | none => []
  | some text => scanWords text

/-- An `ENCODING` record of the ARM databases. -/
structure ArmRecord where
  fields : List DiagramField
  opcode : Nat
  mask : Nat
  cnsts : Option (List Char)
  isaform : List Char
  invalid : Bool
  isAlias : Bool
  opcode_inside : opcode &&& mask = opcode
  mask_lt : mask < 2 ^ 32
  fields_apart : fields.Pairwise fun f g => f.field.Apart g.field
  fields_inside : ∀ f ∈ fields, f.pos + f.size ≤ 32
  cnsts_read : ∀ word ∈ constraintWords cnsts, ∃ named values,
    Reads fields word named values ∧ named.Nodup

/-- What `process_constraints` leaves in the diagram of a record. -/
def ArmRecord.processed (r : ArmRecord) : ProcessedConstraints :=
  processConstraints r.fields r.mask r.cnsts

/-- The constraints of the diagram. -/
def ArmRecord.diagramCnsts (r : ArmRecord) : List ConstraintEntry :=
  r.processed.cnsts.getD []

/-- A word that a record describes: its fixed bits are those of the record, and no constraint text
matches the fields it names. -/
structure ArmRecord.Describes (r : ArmRecord) (w : Nat) : Prop where
  bits : w &&& r.mask = r.opcode
  cnsts : ∀ word ∈ constraintWords r.cnsts, ∀ named values, Reads r.fields word named values →
    ¬Matches values (concatenation named w)

/-! ## Compiled constraints -/

/-- The loop over the patterns appends its constraints and collects their masks. -/
theorem processPatterns_masks {fields : List DiagramField} {texts : List (List Char)}
    {tmask cmask : Nat} {before : List ConstraintEntry} {p : ProcessedConstraints}
    (h : processPatterns fields texts tmask cmask before = p) (hok : p.returned ≠ none) :
    ∃ entries, p.cnsts = some (before ++ entries) ∧
      p.tmask = entries.foldl (fun m c => m ||| c.mask) tmask ∧
      p.cmask = entries.foldl (fun m c => m ||| c.mask) cmask ∧
      List.Forall₂ (fun text c => compileConstraint fields text = some ⟨c.mask, c.value⟩)
        texts entries := by
  induction texts generalizing tmask cmask before with
  | nil =>
      subst h
      exact ⟨[], by rw [List.append_nil]; rfl, rfl, rfl, .nil⟩
  | cons text texts ih =>
      rw [processPatterns] at h
      cases hm : compileConstraint fields text with
      | none =>
          rw [hm] at h
          subst h
          exact absurd rfl hok
      | some m =>
          rw [hm] at h
          obtain ⟨entries, hcnsts, ht, hc, hall⟩ := ih h
          refine ⟨⟨text, m.mask, m.cvalue⟩ :: entries, ?_, ht, hc, .cons hm hall⟩
          rw [hcnsts, List.append_assoc]
          rfl

/-- A text of constraints that read is scanned word by word. -/
theorem processConstraints_some {fields : List DiagramField} {text : List Char} (mask : Nat)
    (htext : text ≠ []) (h : ∀ word ∈ scanWords text, ∃ named values, Reads fields word named values) :
    processConstraints fields mask (some text) =
      processPatterns fields (scanWords text) mask 0 [] := by
  unfold processConstraints
  split
  · rename_i heq
    cases heq
  · rename_i heq
    exact absurd (Option.some.inj heq) htext
  · rename_i heq
    rw [Option.some.inj heq] at h
    obtain ⟨named, values, hreads⟩ := h ['0'] (by decide)
    obtain ⟨names, hmatch, -⟩ := hreads.text
    exact absurd hmatch (by simp [matchConstraint])
  · rename_i heq
    rw [Option.some.inj heq]

/-- What stands on the right has a counterpart on the left. -/
theorem exists_left_of_mem {α β : Type} {R : α → β → Prop} {xs : List α} {ys : List β}
    (h : List.Forall₂ R xs ys) {y : β} (hy : y ∈ ys) : ∃ x ∈ xs, R x y := by
  induction h with
  | nil => cases hy
  | cons hxy _ ih =>
      rcases List.mem_cons.mp hy with rfl | hy
      · exact ⟨_, List.mem_cons_self, hxy⟩
      · obtain ⟨x, hx, hR⟩ := ih hy
        exact ⟨x, List.mem_cons_of_mem _ hx, hR⟩

/-- What stands on the left has a counterpart on the right. -/
theorem exists_right_of_mem {α β : Type} {R : α → β → Prop} {xs : List α} {ys : List β}
    (h : List.Forall₂ R xs ys) {x : α} (hx : x ∈ xs) : ∃ y ∈ ys, R x y :=
  exists_left_of_mem h.flip hx

namespace ArmRecord

variable (r : ArmRecord)

theorem reads_of_mem {word : List Char} (h : word ∈ constraintWords r.cnsts) :
    ∃ named values, Reads r.fields word named values := by
  obtain ⟨named, values, hreads, -⟩ := r.cnsts_read word h
  exact ⟨named, values, hreads⟩

/-- The constraints of the diagram are those of the texts, and the masks collect theirs. -/
theorem processed_holds :
    r.processed.cmask = r.diagramCnsts.foldl (fun m c => m ||| c.mask) 0 ∧
      r.processed.tmask = r.diagramCnsts.foldl (fun m c => m ||| c.mask) r.mask ∧
      List.Forall₂ (fun text c => compileConstraint r.fields text = some ⟨c.mask, c.value⟩)
        (constraintWords r.cnsts) r.diagramCnsts := by
  have hwithout (hprocessed : r.processed = ⟨some 1, r.mask, 0, none⟩)
      (hwords : constraintWords r.cnsts = []) :
      r.processed.cmask = r.diagramCnsts.foldl (fun m c => m ||| c.mask) 0 ∧
        r.processed.tmask = r.diagramCnsts.foldl (fun m c => m ||| c.mask) r.mask ∧
        List.Forall₂ (fun text c => compileConstraint r.fields text = some ⟨c.mask, c.value⟩)
          (constraintWords r.cnsts) r.diagramCnsts := by
    rw [diagramCnsts, hprocessed, hwords]
    exact ⟨rfl, rfl, .nil⟩
  cases hcnsts : r.cnsts with
  | none =>
      rw [← hcnsts]
      exact hwithout (by rw [processed, hcnsts]; rfl) (by rw [hcnsts]; rfl)
  | some text =>
      by_cases htext : text = []
      · rw [← hcnsts]
        rw [htext] at hcnsts
        exact hwithout (by rw [processed, hcnsts]; rfl) (by rw [hcnsts]; rfl)
      · have hread : ∀ word ∈ scanWords text, ∃ named values, Reads r.fields word named values := by
          intro word hword
          exact r.reads_of_mem (by rwa [hcnsts])
        have hrun : processPatterns r.fields (scanWords text) r.mask 0 [] = r.processed := by
          rw [processed, hcnsts, processConstraints_some r.mask htext hread]
        obtain ⟨tmask, cmask, cs, hreturned, -⟩ :=
          processPatterns_eq r.fields_apart hread r.mask 0 []
        have hok : r.processed.returned ≠ none := by
          rw [← hrun, hreturned]
          exact Option.some_ne_none 0
        obtain ⟨entries, hentries, ht, hc, hall⟩ := processPatterns_masks hrun hok
        have hdiagram : r.diagramCnsts = entries := by
          rw [diagramCnsts, hentries, List.nil_append, Option.getD_some]
        rw [hdiagram]
        exact ⟨hc, ht, hall⟩

/-- A text with the constraint it is compiled to: the bits it fixes, and the word it rules out. -/
structure CompiledTo (fields : List DiagramField) (word : List Char) (c : ConstraintEntry) : Prop
    where
  mask_lt : c.mask < 2 ^ 32
  value_inside : c.value &&& c.mask = c.value
  rules_out : ∀ w, w &&& c.mask ≠ c.value ↔ ∀ named values, Reads fields word named values →
    ¬Matches values (concatenation named w)

/-- Two ways to read a word are the same. -/
theorem reads_unique {fields : List DiagramField} {word : List Char}
    {named named' : List DiagramField} {values values' : List Char}
    (h : Reads fields word named values) (h' : Reads fields word named' values') :
    named = named' ∧ values = values' := by
  obtain ⟨names, hmatch, hnamed⟩ := h.text
  obtain ⟨names', hmatch', hnamed'⟩ := h'.text
  rw [hmatch] at hmatch'
  cases hmatch'
  refine ⟨?_, rfl⟩
  exact List.right_unique_forall₂' (fun _ _ _ hf hf' => Option.some.inj (hf.symm.trans hf'))
    hnamed hnamed'

theorem compiledTo {word : List Char} (hword : word ∈ constraintWords r.cnsts)
    {c : ConstraintEntry} (h : compileConstraint r.fields word = some ⟨c.mask, c.value⟩) :
    CompiledTo r.fields word c := by
  obtain ⟨named, values, hreads, hnodup⟩ := r.cnsts_read word hword
  obtain ⟨m, hm, hmask, hcvalue⟩ := compileConstraint_eq hreads
  rw [h] at hm
  cases hm
  obtain ⟨names, hmatch, hnamed⟩ := hreads.text
  constructor
  · refine Nat.lt_pow_two_of_testBit _ fun k hk => ?_
    rw [Bool.eq_false_iff]
    intro hbit
    obtain ⟨p, hp, rfl, -⟩ := (hmask k).mp hbit
    obtain ⟨f, hf, hpos⟩ := List.mem_flatMap.mp (List.of_mem_zip hp).1
    obtain ⟨j, hj, heq⟩ := List.mem_map.mp (List.mem_reverse.mp hpos)
    have hinside := r.fields_inside f (mem_of_lookupFields hnamed f hf)
    rw [List.mem_range] at hj
    omega
  · apply Nat.eq_of_testBit_eq
    intro k
    rw [Nat.testBit_and]
    cases hbit : c.value.testBit k with
    | false => rfl
    | true =>
        obtain ⟨p, hp, hpos, hone⟩ := (hcvalue k).mp hbit
        rw [(hmask k).mpr ⟨p, hp, hpos, Or.inr hone⟩]
        rfl
  · intro w
    have hcompiled := (compiled_of_marks r.fields_apart h).2 named values hreads
    rw [hcompiled.1 hnodup w]
    constructor
    · intro hnot named' values' hreads'
      obtain ⟨rfl, rfl⟩ := reads_unique hreads hreads'
      exact hnot
    · exact fun hall => hall named values hreads

theorem diagramCnsts_compiled :
    List.Forall₂ (CompiledTo r.fields) (constraintWords r.cnsts) r.diagramCnsts := by
  have hall := r.processed_holds.2.2
  have hpair : List.Forall₂ (fun word c => word ∈ constraintWords r.cnsts ∧
      compileConstraint r.fields word = some ⟨c.mask, c.value⟩)
      (constraintWords r.cnsts) r.diagramCnsts := by
    rw [List.forall₂_and_left]
    exact ⟨fun word hword => hword, hall⟩
  exact hpair.imp fun _ _ h => r.compiledTo h.1 h.2

/-- The tests of the compiled constraints rule out what the texts rule out. -/
theorem describes_iff (w : Nat) :
    r.Describes w ↔ w &&& r.mask = r.opcode ∧ ∀ c ∈ r.diagramCnsts, w &&& c.mask ≠ c.value := by
  have hall := r.diagramCnsts_compiled
  constructor
  · rintro ⟨hbits, hcnsts⟩
    refine ⟨hbits, fun c hc => ?_⟩
    obtain ⟨word, hword, hcompiled⟩ := exists_left_of_mem hall hc
    exact (hcompiled.rules_out w).mpr (hcnsts word hword)
  · rintro ⟨hbits, hcnsts⟩
    refine ⟨hbits, fun word hword => ?_⟩
    obtain ⟨c, hc, hcompiled⟩ := exists_right_of_mem hall hword
    exact (hcompiled.rules_out w).mp (hcnsts c hc)

/-! ## Entries -/

theorem ofNat_and_ofNat (m n : Nat) :
    BitVec.ofNat 64 m &&& BitVec.ofNat 64 n = BitVec.ofNat 64 (m &&& n) :=
  (BitVec.ofNat_and ..).symm

def constraintOf (c : ConstraintEntry) : Constraint :=
  ⟨BitVec.ofNat 64 c.mask, BitVec.ofNat 64 c.value⟩

theorem ofNat_foldl_mask (cs : List ConstraintEntry) (m : Nat) :
    BitVec.ofNat 64 (cs.foldl (fun m c => m ||| c.mask) m) =
      (cs.map constraintOf).foldl (fun m c => m ||| c.mask) (BitVec.ofNat 64 m) := by
  induction cs generalizing m with
  | nil => rfl
  | cons c cs ih =>
      rw [List.foldl_cons, ih, List.map_cons, List.foldl_cons, constraintOf, BitVec.ofNat_or]

theorem foldl_mask_or (cs : List ConstraintEntry) (m n : Nat) :
    cs.foldl (fun m c => m ||| c.mask) (m ||| n) = m ||| cs.foldl (fun m c => m ||| c.mask) n := by
  induction cs generalizing n with
  | nil => rfl
  | cons c cs ih => rw [List.foldl_cons, Nat.or_assoc, ih, List.foldl_cons]

/-- The node data that `generate_isaform_disasm` makes of a record. -/
def entry (index : Nat) : Entry where
  opcode := BitVec.ofNat 64 r.opcode
  mask := BitVec.ofNat 64 r.mask
  cmask := BitVec.ofNat 64 r.processed.cmask
  tmask := BitVec.ofNat 64 r.processed.tmask
  cnsts := r.diagramCnsts.map constraintOf
  index := index
  opcode_inside := by rw [ofNat_and_ofNat, r.opcode_inside]
  value_inside := by
    intro c hc
    obtain ⟨c', hc', rfl⟩ := List.mem_map.mp hc
    obtain ⟨word, -, hcompiled⟩ := exists_left_of_mem r.diagramCnsts_compiled hc'
    rw [constraintOf, ofNat_and_ofNat, hcompiled.value_inside]
  cmask_eq := by
    rw [r.processed_holds.1]
    exact ofNat_foldl_mask _ _
  tmask_eq := by
    obtain ⟨hcmask, htmask, -⟩ := r.processed_holds
    rw [htmask, ← Nat.or_zero r.mask, foldl_mask_or, ← hcmask, BitVec.ofNat_or, Nat.or_zero]

theorem and_ofNat_iff (w : BitVec 64) {m v : Nat} (hm : m < 2 ^ 32) (hv : v < 2 ^ 32) :
    w &&& BitVec.ofNat 64 m = BitVec.ofNat 64 v ↔ w.toNat &&& m = v := by
  rw [← BitVec.toNat_inj, BitVec.toNat_and, BitVec.toNat_ofNat, BitVec.toNat_ofNat,
    Nat.mod_eq_of_lt (by omega), Nat.mod_eq_of_lt (by omega)]

theorem lt_of_and_eq {m v n : Nat} (h : v &&& m = v) (hm : m < n) : v < n := by
  rw [← h]
  exact Nat.and_le_right.trans_lt hm

/-- The entry of a record matches the opcodes that the record describes. -/
theorem entry_matches_iff (index : Nat) (opcode : BitVec 32) :
    (r.entry index).Matches (opcode.setWidth 64) ↔ r.Describes opcode.toNat := by
  rw [describes_iff, ← toNat_opcode opcode]
  refine and_congr (and_ofNat_iff _ r.mask_lt (lt_of_and_eq r.opcode_inside r.mask_lt)) ?_
  rw [entry, List.forall_mem_map]
  refine forall₂_congr fun c hc => not_congr ?_
  obtain ⟨word, -, hcompiled⟩ := exists_left_of_mem r.diagramCnsts_compiled hc
  exact and_ofNat_iff _ hcompiled.mask_lt (lt_of_and_eq hcompiled.value_inside hcompiled.mask_lt)

theorem entry_mask_low (index : Nat) : Inside (r.entry index).mask lowMask := by
  change BitVec.ofNat 64 r.mask &&& BitVec.ofNat 64 (2 ^ 32 - 1) = _
  rw [ofNat_and_ofNat, Nat.and_two_pow_sub_one_eq_mod, Nat.mod_eq_of_lt r.mask_lt]
  rfl

end ArmRecord

/-! ## The lookup of an instruction set -/

/-- `generate_disasm` keeps a record for its instruction set. -/
def ArmRecord.kept (isaform : List Char) (r : ArmRecord) : Bool :=
  !r.invalid && !r.isAlias && r.isaform = isaform

/-- The nodes of an instruction set, with the numbers `process_encoding` has given the records. -/
def isaformEntries (isaform : List Char) (records : List ArmRecord) : List Entry :=
  (records.zipIdx.filter fun p => p.1.kept isaform).map fun p => p.1.entry p.2

theorem mem_isaformEntries {isaform : List Char} {records : List ArmRecord} {e : Entry} :
    e ∈ isaformEntries isaform records ↔
      ∃ (i : Nat) (r : ArmRecord), records[i]? = some r ∧ r.kept isaform = true ∧ r.entry i = e := by
  simp only [isaformEntries, List.mem_map, List.mem_filter, Prod.exists, List.mem_zipIdx_iff_getElem?]
  constructor
  · rintro ⟨r, i, ⟨hr, hkept⟩, rfl⟩
    exact ⟨i, r, hr, hkept, rfl⟩
  · rintro ⟨i, r, hr, hkept, rfl⟩
    exact ⟨r, i, ⟨hr, hkept⟩, rfl⟩

/-- The number of bits that a record fixes or constrains, as the sort of `divide_hi_bits` counts
them. -/
def ArmRecord.specificity (r : ArmRecord) : Nat := getBitCount (BitVec.ofNat 64 r.processed.tmask)

/-- A record of the instruction set that describes an opcode, with its number. -/
structure Candidate (records : List ArmRecord) (isaform : List Char) (opcode : BitVec 32)
    (i : Nat) (r : ArmRecord) : Prop where
  record : records[i]? = some r
  kept : r.kept isaform = true
  describes : r.Describes opcode.toNat

theorem lowEntries_isaform (isaform : List Char) (records : List ArmRecord) :
    LowEntries (isaformEntries isaform records) := by
  intro e he
  obtain ⟨i, r, -, -, rfl⟩ := mem_isaformEntries.mp he
  exact r.entry_mask_low i

/-- What a lookup is to do on an opcode that a record describes, and on another one. -/
structure FindsRecord (records : List ArmRecord) (isaform : List Char) (opcode : BitVec 32)
    (answer : Nat) : Prop where
  described : (∃ i r, Candidate records isaform opcode i r) →
    ∃ r, Candidate records isaform opcode answer r ∧
      ∀ j r', Candidate records isaform opcode j r' → r'.specificity ≤ r.specificity
  answered : answer ≠ 0 → ∃ r, records[answer]? = some r ∧ r.kept isaform = true

section Lookup

variable {records : List ArmRecord} {isaform : List Char} {fuel : Nat} {tree : Tree}

/-- The walk finds the most specific record that describes an opcode. -/
theorem walk_finds (htree : getTree fuel (isaformEntries isaform records) = some tree)
    (opcode : BitVec 32) :
    FindsRecord records isaform opcode ((tree.walk (opcode.setWidth 64)).getD 0) := by
  have hselects := getTree_selectsFrom htree (opcode.setWidth 64)
  constructor
  · rintro ⟨i, r, hcandidate⟩
    obtain ⟨e, he, hmatches, hwalk, hbest⟩ := hselects.complete
      ⟨r.entry i, mem_isaformEntries.mpr ⟨i, r, hcandidate.record, hcandidate.kept, rfl⟩,
        (r.entry_matches_iff i opcode).mpr hcandidate.describes⟩
    obtain ⟨j, r', hr', hkept, rfl⟩ := mem_isaformEntries.mp he
    rw [hwalk, Option.getD_some]
    refine ⟨r', ⟨hr', hkept, (r'.entry_matches_iff j opcode).mp hmatches⟩, fun k r'' hc => ?_⟩
    exact hbest _ (mem_isaformEntries.mpr ⟨k, r'', hc.record, hc.kept, rfl⟩)
      ((r''.entry_matches_iff k opcode).mpr hc.describes)
  · intro hne
    cases hwalk : tree.walk (opcode.setWidth 64) with
    | none =>
        rw [hwalk] at hne
        exact absurd rfl hne
    | some i =>
        obtain ⟨e, he, rfl⟩ := hselects.sound i hwalk
        obtain ⟨j, r, hr, hkept, rfl⟩ := mem_isaformEntries.mp he
        exact ⟨r, hr, hkept⟩

/-- The function printed for an instruction set compiles. On an opcode that a record describes it
returns the number of such a record that fixes or constrains the most bits; on another one it
returns 0 or the number of a record of the instruction set. -/
theorem lookupFunction_finds (htree : getTree fuel (isaformEntries isaform records) = some tree)
    (opcode : BitVec 32) :
    LookupCompiles tree ∧ FindsRecord records isaform opcode (lookupFunction tree opcode) := by
  have hprintable := getTree_printable (lowEntries_isaform isaform records) htree
  refine ⟨lookupCompiles_of_printable hprintable, ?_⟩
  rw [lookupFunction_eq opcode hprintable]
  exact walk_finds htree opcode

end Lookup

/-- A record without constraints. -/
def plainRecord (isaform : List Char) (invalid : Bool) (opcode mask : Nat)
    (hopcode : opcode &&& mask = opcode) (hmask : mask < 2 ^ 32) : ArmRecord where
  fields := []
  opcode := opcode
  mask := mask
  cnsts := none
  isaform := isaform
  invalid := invalid
  isAlias := false
  opcode_inside := hopcode
  mask_lt := hmask
  fields_apart := .nil
  fields_inside := fun _ hf => absurd hf List.not_mem_nil
  cnsts_read := fun _ hword => absurd hword List.not_mem_nil

/-- `MOV` of A32, for the conditions other than 15. -/
def movRecord : ArmRecord where
  fields := [⟨['c', 'o', 'n', 'd'], 28, 4, []⟩]
  opcode := 0x01a00000
  mask := 0x0fef0000
  cnsts := some ['c', 'o', 'n', 'd', '!', '=', '0', 'b', '1', '1', '1', '1']
  isaform := ['A', '3', '2']
  invalid := false
  isAlias := false
  opcode_inside := by decide
  mask_lt := by decide
  fields_apart := List.pairwise_singleton _ _
  fields_inside := by simp
  cnsts_read := by
    intro word hword
    have hwords : constraintWords (some
        ['c', 'o', 'n', 'd', '!', '=', '0', 'b', '1', '1', '1', '1']) =
        [['c', 'o', 'n', 'd', '!', '=', '0', 'b', '1', '1', '1', '1']] := by decide
    rw [hwords] at hword
    obtain rfl := List.mem_singleton.mp hword
    exact ⟨[⟨['c', 'o', 'n', 'd'], 28, 4, []⟩], ['1', '1', '1', '1'],
      ⟨⟨['c', 'o', 'n', 'd'], by decide, .cons (by decide) .nil⟩, rfl⟩, List.nodup_singleton _⟩

/-- The invalid record, and one of each instruction set. -/
def sampleRecords : List ArmRecord :=
  [plainRecord ['A', '3', '2'] true 0 0 rfl (by decide), movRecord,
   plainRecord ['T', '3', '2'] false 0xea4f0000 0xffef0000 (by decide) (by decide),
   plainRecord ['T', '1', '6'] false 0x4600 0xff00 (by decide) (by decide),
   plainRecord ['A', '6', '4'] false 0x1a000000 0xffe0fc00 (by decide) (by decide)]

theorem getTree_sampleRecords :
    getTree 1 (isaformEntries ['A', '3', '2'] sampleRecords) = some (.leaf 1) ∧
      getTree 1 (isaformEntries ['T', '3', '2'] sampleRecords) = some (.leaf 2) ∧
      getTree 1 (isaformEntries ['T', '1', '6'] sampleRecords) = some (.leaf 3) ∧
      getTree 1 (isaformEntries ['A', '6', '4'] sampleRecords) = some (.leaf 4) :=
  ⟨rfl, rfl, rfl, rfl⟩

theorem lookupFunction_finds_mov :
    LookupCompiles (.leaf 1) ∧
      FindsRecord sampleRecords ['A', '3', '2'] 0xe1a00000 (lookupFunction (.leaf 1) 0xe1a00000) :=
  lookupFunction_finds getTree_sampleRecords.1 0xe1a00000

end Amed.Generator

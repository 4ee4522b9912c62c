import Amed.Generator.MostSpecific
import Amed.X86.Decoder

/-!
# The generated x86 lookup

`generate_disasm` puts the templates of the encodings of one opcode map slot into one decision
tree and returns the numbers of the encoding and the template in one word, and 0 behind every
tree. The decoder takes the encoding number 0 for a miss.

## Implementation notes

A record keeps what `add_entry` and `generate_disasm` read of it: whether it is the invalid one,
its map, its opcode and the bits of its templates. A slot that no encoding is in returns 0.
-/

namespace Amed.Generator

open Selection

/-- The opcode maps of `add_entry`. -/
inductive OpcodeMap
  | primary | map0F | map0F0F | map0F38 | map0F3A | xop8 | xop9 | xopA
  deriving DecidableEq, Repr

/-- The number of a map in the table `maped`. -/
def OpcodeMap.maped : OpcodeMap → Nat
  | .primary => 0
  | .map0F => 1
  | .map0F0F => 2
  | .map0F38 => 3
  | .map0F3A => 4
  | .xop8 => 5
  | .xop9 => 6
  | .xopA => 7

/-- The bits of a template with those of its encoding. -/
structure TemplateRecord where
  opcode : BitVec 64
  mask : BitVec 64
  inside : opcode &&& mask = opcode

/-- An encoding of the database. -/
structure EncodingRecord where
  invalid : Bool
  map : OpcodeMap
  op : UInt8
  templates : List TemplateRecord

/-- The slot of an encoding in the table of `add_entry`. -/
def EncodingRecord.slot (e : EncodingRecord) : Nat := e.op.toNat + e.map.maped * 256

theorem noConstraint_inside : ∀ c ∈ ([] : List Constraint), c.value &&& c.mask = c.value :=
  fun _ h => absurd h List.not_mem_nil

theorem noConstraint_cmask :
    (0 : BitVec 64) = ([] : List Constraint).foldl (fun m c => m ||| c.mask) 0 := rfl

theorem noConstraint_tmask (mask : BitVec 64) : mask = mask ||| 0 := BitVec.or_zero.symm

/-- The entry of a template: the result is `encoding << 16 | template`. -/
def TemplateRecord.entry (t : TemplateRecord) (encoding template : Nat) : Entry where
  opcode := t.opcode
  mask := t.mask
  cmask := 0
  tmask := t.mask
  cnsts := []
  index := encoding <<< 16 ||| template
  opcode_inside := t.inside
  value_inside := noConstraint_inside
  cmask_eq := noConstraint_cmask
  tmask_eq := noConstraint_tmask t.mask

/-- The entries of a slot. `process_encoding` numbers the encodings and the templates in the order
of the records. -/
def slotEntries (slot : Nat) : List EncodingRecord → Nat → Nat → List Entry
  | [], _, _ => []
  | e :: records, encoding, template =>
      (if e.invalid || e.slot ≠ slot then []
        else (e.templates.zipIdx template).map fun t => t.1.entry encoding t.2) ++
      slotEntries slot records (encoding + 1) (template + e.templates.length)

/-- The records of a database with the trees `generate_disasm` makes of its slots. -/
structure Disasm where
  records : List EncodingRecord
  trees : Nat → Tree
  fuel : Nat
  divided : ∀ slot, slotEntries slot records 0 0 ≠ [] →
    getTree fuel (slotEntries slot records 0 0) = some (trees slot)

/-- The templates of the real encodings in a slot. -/
def Disasm.entries (d : Disasm) (slot : Nat) : List Entry := slotEntries slot d.records 0 0

/-- What the code of a slot returns before the `return 0` behind it. -/
def Disasm.walk (d : Disasm) (slot : Nat) (hashcode : BitVec 32) : Option Nat :=
  if (d.entries slot).isEmpty then none else (d.trees slot).walk (hashcode.setWidth 64)

/-- `x86_lookup`. -/
def Disasm.x86Lookup (d : Disasm) (slot : Nat) (hashcode : BitVec 32) : Nat :=
  (d.walk slot hashcode).getD 0

/-- A template of the slot matches the hashcode. -/
def Disasm.HasMatch (d : Disasm) (slot : Nat) (hashcode : BitVec 32) : Prop :=
  ∃ e ∈ d.entries slot, e.Matches (hashcode.setWidth 64)

theorem Disasm.walk_selects (d : Disasm) (slot : Nat) (hashcode : BitVec 32) :
    Selects (Entry.Matches (hashcode.setWidth 64)) (fun e => getBitCount e.tmask) Entry.index
      (d.entries slot) (d.walk slot hashcode) := by
  unfold Disasm.walk
  split
  · rename_i hempty
    refine .none fun e he => ?_
    rw [List.isEmpty_iff.mp hempty] at he
    cases he
  · rename_i hne
    exact getTree_selectsFrom (d.divided slot (fun hnil => hne (List.isEmpty_iff.mpr hnil))) _

/-! ## The decoder's test -/

/-- The test of `decode_entry` on what the lookup returns. -/
def flaggedAsMiss (value : Nat) : Bool := value / 2 ^ 16 = 0

/-- The template `decode_entry` goes on with. -/
def templateOf (value : Nat) : Nat := value % 2 ^ 16

theorem selectTemplate_isUndefined (db : X86.Db) (s : X86.Internal) :
    (X86.selectTemplate db s).insn.attributes.isUndefined =
      (s.insn.attributes.isUndefined ||
        (s.diagram.hashSizes.enc ≠ X86.encodingNone && s.vfpc ≠ 0) ||
        flaggedAsMiss (db.lookup (s.mapidx + s.diagram.hashSizes.opcode.toNat)
          s.diagram.hashSizes.hashcode)) := rfl

/-- What a lookup is to do: the decoder flags exactly the misses, and a miss is neither the value
nor the template of a real entry. -/
structure Disasm.Unambiguous (d : Disasm) (slot : Nat) (hashcode : BitVec 32) : Prop where
  flagged_iff : flaggedAsMiss (d.x86Lookup slot hashcode) = true ↔ ¬d.HasMatch slot hashcode
  value : ¬d.HasMatch slot hashcode →
    ∀ slot', ∀ e ∈ d.entries slot', d.x86Lookup slot hashcode ≠ e.index
  template : ¬d.HasMatch slot hashcode →
    ∀ slot', ∀ e ∈ d.entries slot', templateOf (d.x86Lookup slot hashcode) ≠ templateOf e.index

/-- The tree ends in a matching template whose encoding is not the first one. -/
def Disasm.Found (d : Disasm) (slot : Nat) (hashcode : BitVec 32) : Prop :=
  ∃ e ∈ d.entries slot, e.Matches (hashcode.setWidth 64) ∧
    d.walk slot hashcode = some e.index ∧ flaggedAsMiss e.index = false

/-- Nothing matches, the tree ends nowhere, and template 0 belongs to the invalid encoding. -/
def Disasm.Missed (d : Disasm) (slot : Nat) (hashcode : BitVec 32) : Prop :=
  ¬d.HasMatch slot hashcode ∧ d.walk slot hashcode = none ∧
    ∀ slot', ∀ e ∈ d.entries slot', templateOf e.index ≠ 0

theorem Disasm.unambiguous_of_match {d : Disasm} {slot : Nat} {hashcode : BitVec 32}
    (h : d.HasMatch slot hashcode) :
    d.Unambiguous slot hashcode ↔ d.Found slot hashcode := by
  obtain ⟨e, he, hm, hwalk, -⟩ := (d.walk_selects slot hashcode).complete h
  have hvalue : d.x86Lookup slot hashcode = e.index := by
    rw [x86Lookup, hwalk]
    rfl
  constructor
  · intro hu
    refine ⟨e, he, hm, hwalk, ?_⟩
    rw [Bool.eq_false_iff, ← hvalue]
    exact fun hflag => hu.flagged_iff.mp hflag h
  · rintro ⟨e', he', hm', hwalk', hreal⟩
    have hindex : e.index = e'.index := Option.some.inj (hwalk.symm.trans hwalk')
    rw [← hindex, ← hvalue] at hreal
    refine ⟨⟨fun hflag => ?_, fun hmiss => absurd h hmiss⟩, fun hmiss => absurd h hmiss,
      fun hmiss => absurd h hmiss⟩
    rw [hreal] at hflag
    cases hflag

theorem Disasm.unambiguous_of_miss {d : Disasm} {slot : Nat} {hashcode : BitVec 32}
    (h : ¬d.HasMatch slot hashcode) :
    d.Unambiguous slot hashcode ↔ d.Missed slot hashcode := by
  constructor
  · intro hu
    have hnone : d.walk slot hashcode = none := by
      cases hwalk : d.walk slot hashcode with
      | none => rfl
      | some i =>
          -- a leaf that no test guards is taken without a match
          obtain ⟨e, he, rfl⟩ := (d.walk_selects slot hashcode).sound i hwalk
          refine absurd ?_ (hu.value h slot e he)
          rw [x86Lookup, hwalk]
          rfl
    have hzero : d.x86Lookup slot hashcode = 0 := by
      rw [x86Lookup, hnone]
      rfl
    refine ⟨h, hnone, fun slot' e he => ?_⟩
    have := hu.template h slot' e he
    rw [hzero] at this
    exact this.symm
  · rintro ⟨-, hnone, hreal⟩
    have hzero : d.x86Lookup slot hashcode = 0 := by
      rw [x86Lookup, hnone]
      rfl
    refine ⟨?_, fun _ slot' e he heq => ?_, fun _ slot' e he => ?_⟩
    · rw [hzero]
      exact ⟨fun _ => h, fun _ => rfl⟩
    · rw [hzero] at heq
      exact hreal slot' e he (by rw [← heq]; rfl)
    · rw [hzero]
      exact (hreal slot' e he).symm

/-- The lookup is unambiguous exactly where the tree ends in a match that is not of the first
encoding, or ends nowhere for want of a match while template 0 is not a real one. -/
theorem Disasm.unambiguous_iff (d : Disasm) (slot : Nat) (hashcode : BitVec 32) :
    d.Unambiguous slot hashcode ↔ d.Found slot hashcode ∨ d.Missed slot hashcode := by
  by_cases h : d.HasMatch slot hashcode
  · rw [unambiguous_of_match h]
    exact ⟨Or.inl, fun hor => hor.resolve_right fun hmiss => hmiss.1 h⟩
  · rw [unambiguous_of_miss h]
    refine ⟨Or.inr, fun hor => hor.resolve_left ?_⟩
    rintro ⟨e, he, hm, -⟩
    exact h ⟨e, he, hm⟩

/-- A database whose first encoding is AAA, in slot 37, as in the generated tables. -/
def aaaDisasm : Disasm where
  records := [⟨false, .primary, 0x37, [⟨0, 0, rfl⟩]⟩]
  trees := fun _ => .leaf 0
  fuel := 1
  divided := by
    intro slot hne
    by_cases hslot : 0x37 = slot
    · subst hslot
      rfl
    · refine absurd ?_ hne
      simp [slotEntries, EncodingRecord.slot, OpcodeMap.maped, hslot]

/-- AAA itself is flagged as a miss, and the miss in slot 36 goes on with the template of AAA. -/
theorem Disasm.not_unambiguous_aaa :
    ¬aaaDisasm.Unambiguous 0x37 0 ∧ ¬aaaDisasm.Unambiguous 0x36 0 := by
  have hentry : (TemplateRecord.mk 0 0 rfl).entry 0 0 ∈ aaaDisasm.entries 0x37 :=
    List.mem_singleton.mpr rfl
  constructor
  · intro h
    exact h.flagged_iff.mp rfl ⟨_, hentry, by decide, by simp [TemplateRecord.entry]⟩
  · intro h
    refine h.value ?_ 0x37 _ hentry rfl
    rintro ⟨e, he, -⟩
    have hnil : aaaDisasm.entries 0x36 = [] := rfl
    rw [hnil] at he
    cases he

end Amed.Generator

import Amed.X86.Locality

/-!
# The byte behind the opcode

`decode_entry` takes the byte behind the opcode for a ModRM byte before it knows whether
the encoding has one. The byte reaches the low 8 bits of the hashcode; tables that look at
these bits only for an encoding with a ModRM byte select the same template whatever it is.
-/

namespace Amed.X86

open Bytes

/-- An encoding without ModRM byte is selected without a look at the ModRM bits of the
hashcode. Encoding 0 also stands for a miss and is left out. -/
def Db.LookupIgnoresModrm (db : Db) : Prop :=
  ∀ (index : Nat) (h h' : BitVec 32), h.toNat / 256 = h'.toNat / 256 →
    db.lookup index h / 2 ^ 16 ≠ 0 →
    (db.encodings (db.lookup index h / 2 ^ 16)).hasModrm = false →
    db.lookup index h' = db.lookup index h

/-- The bits of the hashcode above those of the ModRM byte. -/
def Diagram.highHashcode (d : Diagram) : Nat :=
  d.len + 4 * d.yosz.toNat + 8 * d.zosz.toNat + 16 * d.f2.toNat + 32 * d.f3.toNat
    + 64 * d.p66.toNat + 128 * d.fb.toNat + 256 * d.enc + 2048 * d.e.toNat
    + 4096 * d.asz + 16384 * d.yasz.toNat + 32768 * d.longMode.toNat
    + 65536 * d.w.toNat + 131072 * d.features

theorem Diagram.hashcode_high {d : Diagram} (hreg : d.reg < 8) (hrm : d.rm < 8) :
    d.hashcode.toNat / 256 = d.highHashcode % 2 ^ 24 := by
  have hmodreg := Bool.toNat_lt d.modreg
  have hcr := Bool.toNat_lt d.cr
  have hsum : d.hashcode.toNat =
      (d.modreg.toNat + 2 * d.reg + 16 * d.cr.toNat + 32 * d.rm + 256 * d.highHashcode) % 2 ^ 32 := by
    rw [Diagram.hashcode, BitVec.toNat_ofNat]
    unfold Diagram.highHashcode
    congr 1
    omega
  rw [hsum]
  generalize d.highHashcode = high
  omega

/-- `set_modrm_field`, on the diagram. -/
def Diagram.setModrmField (d : Diagram) (modrm : UInt8) : Diagram :=
  { d with
    mod := bits modrm 6 2
    reg := bits modrm 3 3
    rm := bits modrm 0 3
    modreg := bits modrm 6 2 = 3
    cr := bits modrm 3 3 ≠ 0 }

/-- Above the low byte the hashcode does not depend on the ModRM byte. -/
theorem Diagram.setModrmField_hashcode (d : Diagram) (m m' : UInt8) :
    (d.setModrmField m).hashcode.toNat / 256 = (d.setModrmField m').hashcode.toNat / 256 := by
  have hm : (d.setModrmField m).reg < 8 ∧ (d.setModrmField m).rm < 8 :=
    ⟨bits_lt m 3 3, bits_lt m 0 3⟩
  have hm' : (d.setModrmField m').reg < 8 ∧ (d.setModrmField m').rm < 8 :=
    ⟨bits_lt m' 3 3, bits_lt m' 0 3⟩
  rw [hashcode_high hm.1 hm.2, hashcode_high hm'.1 hm'.2]
  rfl

theorem Diagram.setModrmField_hashSizes (d : Diagram) (m : UInt8) :
    (d.setModrmField m).hashSizes = d.hashSizes.setModrmField m := by
  unfold Diagram.hashSizes
  dsimp only
  by_cases h : d.enc = encodingNone
  · rw [if_pos h, if_pos (show (d.setModrmField m).enc = encodingNone from h)]
    rfl
  · rw [if_neg h, if_neg (show (d.setModrmField m).enc ≠ encodingNone from h)]
    rfl

theorem Diagram.setModrmField_overrideSize (d : Diagram) (t : DbTemplate) (m : UInt8) :
    (d.setModrmField m).overrideSize t = (d.overrideSize t).setModrmField m := by
  unfold Diagram.overrideSize
  change (if (d.longMode && d.osz ≠ 2) = true then _ else _) = _
  split
  · split
    · rfl
    · split <;> rfl
  · rfl

/-- The operand size is no part of the hashcode. -/
theorem Diagram.overrideSize_hashcode (d : Diagram) (t : DbTemplate) :
    (d.overrideSize t).hashcode = d.hashcode := by
  unfold Diagram.overrideSize
  split
  · split
    · rfl
    · split <;> rfl
  · rfl

theorem Diagram.overrideSize_opcode (d : Diagram) (t : DbTemplate) :
    (d.overrideSize t).opcode = d.opcode := by
  unfold Diagram.overrideSize
  split
  · split
    · rfl
    · split <;> rfl
  · rfl

/-- The outcome of a lookup, for a given byte behind the opcode. -/
def placeTemplate (db : Db) (t : Internal) (m : UInt8) (index : Nat) : Internal :=
  { t with
    encoding := index / 2 ^ 16
    ptemplate := index % 2 ^ 16
    diagram := (t.diagram.hashSizes.setModrmField m).overrideSize (db.templates (index % 2 ^ 16))
    insn.attributes.isUndefined :=
      t.insn.attributes.isUndefined || (t.diagram.hashSizes.enc ≠ encodingNone && t.vfpc ≠ 0) ||
        index / 2 ^ 16 = 0 }

/-- The entry of `x86_lookup` that was selected. -/
def Internal.entry (s : Internal) : Nat := s.encoding * 2 ^ 16 + s.ptemplate

/-- The entry of `x86_lookup` for a given byte behind the opcode. -/
def entryFor (db : Db) (s : Internal) (m : UInt8) : Nat :=
  db.lookup (s.mapidx + s.diagram.opcode.toNat) (s.diagram.setModrmField m).hashcode

theorem placeTemplate_entry (db : Db) (t : Internal) (m : UInt8) (index : Nat) :
    (placeTemplate db t m index).entry = index := by
  change index / 2 ^ 16 * 2 ^ 16 + index % 2 ^ 16 = index
  omega

/-- The entry is looked up from what the prefixes and the opcode leave. -/
theorem entryFor_placeTemplate (db : Db) (t : Internal) (m : UInt8) (index : Nat) (m' : UInt8) :
    entryFor db (placeTemplate db t m index) m' =
      db.lookup (t.mapidx + t.diagram.hashSizes.opcode.toNat)
        (t.diagram.hashSizes.setModrmField m').hashcode := by
  have hopcode : (placeTemplate db t m index).diagram.opcode = t.diagram.hashSizes.opcode :=
    Diagram.overrideSize_opcode _ _
  have hdiagram : (placeTemplate db t m index).diagram.setModrmField m' =
      (t.diagram.hashSizes.setModrmField m').overrideSize (db.templates (index % 2 ^ 16)) := by
    change ((t.diagram.hashSizes.setModrmField m).overrideSize _).setModrmField m' = _
    rw [← Diagram.setModrmField_overrideSize]
    rfl
  rw [entryFor, hopcode, hdiagram, Diagram.overrideSize_hashcode]
  rfl

theorem selectTemplate_eq (db : Db) (t : Internal) (m : UInt8) :
    selectTemplate db (t.setModrmField m) =
      placeTemplate db t m (db.lookup (t.mapidx + t.diagram.hashSizes.opcode.toNat)
        (t.diagram.hashSizes.setModrmField m).hashcode) := by
  unfold selectTemplate
  rw [show (t.setModrmField m).diagram = t.diagram.setModrmField m from rfl,
    t.diagram.setModrmField_hashSizes]
  rfl

section Selected

variable {db : Db} {t s : Internal} {m : UInt8}

/-- What is selected when another byte stands behind the opcode. -/
theorem selectTemplate_entryFor (hs : s = selectTemplate db (t.setModrmField m)) (m' : UInt8) :
    selectTemplate db (t.setModrmField m') = placeTemplate db t m' (entryFor db s m') := by
  rw [selectTemplate_eq] at hs
  rw [selectTemplate_eq, hs, entryFor_placeTemplate]

/-- Looking up the ModRM byte that was met gives the entry that was selected. -/
theorem entryFor_self (hs : s = selectTemplate db (t.setModrmField m)) :
    entryFor db s m = s.entry := by
  rw [selectTemplate_eq] at hs
  rw [hs, entryFor_placeTemplate, placeTemplate_entry]

/-- Where the lookup gives the same entry only the ModRM fields change. -/
theorem selectTemplate_of_entryFor (hs : s = selectTemplate db (t.setModrmField m)) {m' : UInt8}
    (hentry : entryFor db s m' = s.entry) :
    selectTemplate db (t.setModrmField m') = s.setModrmField m' := by
  rw [selectTemplate_entryFor hs, hentry]
  rw [selectTemplate_eq] at hs
  subst hs
  rw [placeTemplate_entry]
  unfold placeTemplate
  rw [Diagram.setModrmField_overrideSize, Diagram.setModrmField_overrideSize]
  rfl

/-- The template of an encoding without ModRM byte is selected whatever byte stands behind
the opcode. -/
theorem entryFor_setModrmField (hdb : db.LookupIgnoresModrm)
    (hs : s = selectTemplate db (t.setModrmField m)) (henc : s.encoding ≠ 0)
    (hm : (db.encodings s.encoding).hasModrm = false) (m' : UInt8) :
    entryFor db s m' = s.entry := by
  rw [← entryFor_self hs]
  rw [selectTemplate_eq] at hs
  subst hs
  rw [entryFor_placeTemplate, entryFor_placeTemplate]
  exact hdb _ _ _ (t.diagram.hashSizes.setModrmField_hashcode m m') henc hm

end Selected

open Excerpt in
theorem excerpt_lookupIgnoresModrm : tables.LookupIgnoresModrm := by
  intro index h h' _
  change Excerpt.lookup index h / 2 ^ 16 ≠ 0 →
    (Excerpt.encodings (Excerpt.lookup index h / 2 ^ 16)).hasModrm = false →
      Excerpt.lookup index h' = Excerpt.lookup index h
  unfold Excerpt.lookup
  split
  · cases h.getLsbD 0 <;> exact fun _ hm => absurd hm (by decide)
  · exact fun _ _ => rfl
  · exact fun _ _ => rfl
  · exact fun _ _ => rfl
  · cases h.getLsbD 0 && !h.getLsbD 14 with
    | true => exact fun _ hm => absurd hm (by decide)
    | false => exact fun henc _ => absurd rfl henc
  · exact fun henc _ => absurd rfl henc

end Amed.X86

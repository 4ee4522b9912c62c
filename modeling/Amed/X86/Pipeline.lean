import Amed.Generator.SlotLookup
import Amed.X86.Ranges

/-!
# The template of an accepted instruction

The generated lookup finds the best template for diagrams whose bitfields fit the hashcode. Every
phase of the decoder keeps them so, whatever bytes and features it is given.
-/

namespace Amed.X86

open Bytes Generator

/-- What the lookup relies on, while the prefixes are read. -/
structure Internal.Narrow (s : Internal) : Prop where
  asz_le : s.diagram.asz ≤ 2
  enc_lt : s.diagram.enc < 8
  features_lt : s.diagram.features < 128
  noSib : s.diagram.hasSib = false
  mapidx_le : s.mapidx ≤ mapIdxXopA

variable {df : DefaultSizes} {s s' : Internal} {buf : Buffer}

/-- Stepping over bytes and recording them. -/
theorem Internal.Narrow.recorded (hs : s.Narrow) (n : Nat) (type : BytecodeType)
    (bytes : List UInt8) : ((s.advance n).addBytecode type bytes).Narrow :=
  { hs with }

/-! ## Prefixes -/

theorem setMode_narrow {mode : MachineMode} (hdf : defaultSizes mode = some df)
    (features : BitVec 32) (s : Internal) : (setMode mode df (initialise features s)).Narrow where
  asz_le := (defaultSizes_le hdf).2
  enc_lt := Nat.mod_lt _ (Nat.two_pow_pos 3)
  features_lt := Nat.mod_lt _ (Nat.two_pow_pos 7)
  noSib := rfl
  mapidx_le := Nat.zero_le _

theorem applyPrefix_narrow (hdf : df.adsize ≤ 2) (hs : s.Narrow) (op : UInt8) :
    (applyPrefix df s op).Narrow := by
  refine Internal.Narrow.recorded ?_ 1 (prefixType op) [op]
  unfold prefixEffect
  split
  · exact { hs with }
  · split
    case h_8 => exact { hs with asz_le := (Nat.div_le_self _ _).trans hdf }
    all_goals exact { hs with }

theorem foldl_applyPrefix_narrow (hdf : df.adsize ≤ 2) (ps : List UInt8) (hs : s.Narrow) :
    (ps.foldl (applyPrefix df) s).Narrow := by
  induction ps generalizing s with
  | nil => exact hs
  | cons op ps ih => exact ih (applyPrefix_narrow hdf hs op)

/-! ## The escape -/

theorem takeBytes_narrow {type : BytecodeType} {n : Nat} {bs : List UInt8}
    (h : s.takeBytes buf type n = some (bs, s')) (hs : s.Narrow) : s'.Narrow := by
  obtain ⟨-, -, rfl⟩ := takeBytes_eq_some.mp h
  exact hs.recorded n type _

/-- The encodings of the vector prefixes have three bits. -/
theorem vectorEncodings_lt :
    encodingVex < 8 ∧ encodingXop < 8 ∧ encodingEvex < 8 ∧ encodingMvex < 8 := by
  decide

theorem mapIdx0F_le : mapIdx0F ≤ mapIdxXopA := by decide

theorem mmmmmField_le {v map : Nat} (h : mmmmmField v = some map) : map ≤ mapIdxXopA := by
  unfold mmmmmField at h
  split at h <;> cases h <;> decide

theorem mvexMap_le {v map : Nat} (h : mvexMap v = some map) : map ≤ mapIdxXopA := by
  unfold mvexMap at h
  split at h <;> cases h <;> decide

theorem xopMap_le {v map : Nat} (h : xopMap v = some map) : map ≤ mapIdxXopA := by
  unfold xopMap at h
  split at h <;> cases h <;> decide

theorem decodeMap_narrow (hs : s.Narrow) : (decodeMap buf s).Narrow := by
  unfold decodeMap
  dsimp only
  split
  · rename_i map word hsecond
    obtain ⟨op, -, hop⟩ := Option.bind_eq_some_iff.mp hsecond
    have hmap : map ≤ mapIdxXopA := by
      unfold secondEscape at hop
      split at hop
      · cases hop
        decide
      · split at hop
        · cases hop
          decide
        · split at hop <;> cases hop
          decide
    exact { hs with mapidx_le := hmap }
  · exact { hs with mapidx_le := mapIdx0F_le }

theorem decodeVex2_narrow (hs : s.Narrow) (h : decodeVex2 buf s = some s') : s'.Narrow := by
  unfold decodeVex2 at h
  split at h
  · rename_i byte0 byte1 s₁ htake
    have hs₁ := takeBytes_narrow htake hs
    split at h
    · cases h
    · cases h
      obtain ⟨p, f, g, hpp⟩ := s₁.diagram.setPpField_eq (bits byte1 0 2)
      obtain ⟨vl, ll, -, hll⟩ := (s₁.diagram.setPpField (bits byte1 0 2)).setLlField_eq
        ((bits_lt byte1 2 1).trans (by decide))
      rw [hll, hpp]
      exact ⟨hs₁.asz_le, vectorEncodings_lt.1, hs₁.features_lt, hs₁.noSib, mapIdx0F_le⟩
  · cases h

theorem decodeVex3_narrow (hs : s.Narrow) (h : decodeVex3 buf s = some s') : s'.Narrow := by
  unfold decodeVex3 at h
  split at h
  · rename_i byte0 byte1 byte2 s₁ htake
    have hs₁ := takeBytes_narrow htake hs
    split at h
    · cases h
    · split at h
      · cases h
      · rename_i map hmap
        cases h
        obtain ⟨p, f, g, hpp⟩ :=
          (s₁.diagram.setWField (bit byte2 7)).setPpField_eq (bits byte2 0 2)
        obtain ⟨vl, ll, -, hll⟩ :=
          ((s₁.diagram.setWField (bit byte2 7)).setPpField (bits byte2 0 2)).setLlField_eq
            ((bits_lt byte2 2 1).trans (by decide))
        rw [hll, hpp]
        exact ⟨hs₁.asz_le, vectorEncodings_lt.1, hs₁.features_lt, hs₁.noSib, mmmmmField_le hmap⟩
  · cases h

theorem decodeXop_narrow (hs : s.Narrow) (h : decodeXop buf s = some s') : s'.Narrow := by
  unfold decodeXop at h
  split at h
  · rename_i byte0 byte1 byte2 s₁ htake
    have hs₁ := takeBytes_narrow htake hs
    split at h
    · cases h
    · split at h
      · cases h
      · rename_i map hmap
        cases h
        obtain ⟨vl, ll, -, hll⟩ := Diagram.setLlField_eq (Diagram.setWField { s₁.diagram with
          enc := encodingXop, hasRex := true
          r := !bit byte1 7, x := !bit byte1 6, b := !bit byte1 5
          vvvv := 15 - bits byte2 3 4 } (bit byte2 7)) ((bits_lt byte2 2 1).trans (by decide))
        rw [hll]
        exact ⟨hs₁.asz_le, vectorEncodings_lt.2.1, hs₁.features_lt, hs₁.noSib, xopMap_le hmap⟩
  · cases h

theorem decodeMvex_narrow {byte1 byte2 byte3 : UInt8} (hs : s.Narrow)
    (h : decodeMvex s byte1 byte2 byte3 = some s') : s'.Narrow := by
  unfold decodeMvex at h
  split at h
  · cases h
  · rename_i map hmap
    cases h
    obtain ⟨p, f, g, hpp⟩ := s.diagram.setPpField_eq (bits byte2 0 2)
    rw [hpp]
    exact ⟨hs.asz_le, vectorEncodings_lt.2.2.2, hs.features_lt, hs.noSib, mvexMap_le hmap⟩

theorem decodeEvex_narrow {byte1 byte2 byte3 : UInt8} (hs : s.Narrow)
    (h : decodeEvex s byte1 byte2 byte3 = some s') : s'.Narrow := by
  unfold decodeEvex at h
  split at h
  · cases h
  · split at h
    · cases h
    · rename_i map hmap
      cases h
      obtain ⟨p, f, g, hpp⟩ := s.diagram.setPpField_eq (bits byte2 0 2)
      obtain ⟨vl, ll, -, hll⟩ := ((s.diagram.setPpField (bits byte2 0 2)).setWField
        (bit byte2 7)).setLlField_eq (bits_lt byte3 5 2)
      rw [hll, hpp]
      exact ⟨hs.asz_le, vectorEncodings_lt.2.2.1, hs.features_lt, hs.noSib, mmmmmField_le hmap⟩

theorem decodeMevex_narrow (hs : s.Narrow) (h : decodeMevex buf s = some s') : s'.Narrow := by
  unfold decodeMevex at h
  split at h
  · split at h
    · split at h
      · exact decodeMvex_narrow (hs.recorded 4 .mvex _) h
      · cases h
    · exact decodeEvex_narrow (hs.recorded 4 .evex _) h
  · cases h

theorem decodeEscape_narrow (hs : s.Narrow) (op : UInt8) : (decodeEscape buf s op).Narrow := by
  -- a refused vector prefix leaves the state as it was
  have hattempt : ∀ {o : Option Internal}, (∀ s', o = some s' → s'.Narrow) → (o.getD s).Narrow := by
    intro o h
    cases o with
    | none => exact hs
    | some s' => exact h s' rfl
  unfold decodeEscape
  split
  · exact decodeMap_narrow hs
  · exact hattempt fun _ => decodeXop_narrow hs
  · exact hattempt fun _ => decodeMevex_narrow hs
  · exact hattempt fun _ => decodeVex3_narrow hs
  · exact hattempt fun _ => decodeVex2_narrow hs
  · exact hs

theorem scanPrefixes_narrow (buf : Buffer) (hdf : df.adsize ≤ 2) (hs : s.Narrow) :
    (scanPrefixes buf df s).Narrow := by
  have hfold := foldl_applyPrefix_narrow hdf (prefixBytes buf s.diagram.longMode s.pc) hs
  rw [scanPrefixes_eq, leaveLoop]
  split
  · exact hfold
  · exact decodeEscape_narrow hfold _

/-! ## The opcode -/

/-- The opcode fetch keeps what the prefixes have settled, and reads fields that fit. -/
theorem fetchOpcode_fits {db : Db} (hs : s.Narrow) (h : fetchOpcode db buf s = (true, s')) :
    FieldsFit s'.diagram.hashSizes ∧ slotOf s' < 2 ^ 32 := by
  have hcarried : s'.carried = s.carried := by
    have := fetchOpcode_carried db buf s
    rwa [h] at this
  have hprefixed : s'.diagram.prefixed = s.diagram.prefixed := congrArg Carried.diagram hcarried
  have hfields := fetchOpcode_fields hs.noSib h
  have henc : s'.diagram.enc < 8 := by
    have heq : s'.diagram.enc = s.diagram.enc :=
      (congrArg Diagram.enc hprefixed :)
    rw [heq]
    exact hs.enc_lt
  have hasz : s'.diagram.asz < 4 := by
    have heq : s'.diagram.asz = s.diagram.asz :=
      (congrArg Diagram.asz hprefixed :)
    rw [heq]
    exact hs.asz_le.trans_lt (by decide)
  have hfeatures : s'.diagram.features < 128 := by
    have heq : s'.diagram.features = s.diagram.features :=
      (congrArg Diagram.features hprefixed :)
    rw [heq]
    exact hs.features_lt
  constructor
  · unfold Diagram.hashSizes
    dsimp only
    split <;> exact ⟨hfields.reg_lt, hfields.rm_lt, Nat.mod_lt _ (by decide), henc, hasz, hfeatures⟩
  · have hmap : s'.mapidx ≤ mapIdxXopA := by
      rw [show s'.mapidx = _ from congrArg Carried.mapidx hcarried]
      exact hs.mapidx_le
    have hop := s'.diagram.opcode.toNat_lt
    have hlast : mapIdxXopA = 1792 := rfl
    unfold slotOf
    omega

/-! ## Accepted instructions -/

/-- Whatever bytes are accepted, the decoder goes on with the best template of the records. -/
theorem accepted_goesOnWith {db : Db} {records : List X86Record} (hdb : LookupMadeFrom db records)
    (hfit : TemplatesFit records) {ctx : Context} {stale t : Internal} {insn : Insn}
    (h : accepted db ctx stale insn = some t) : GoesOnWith records t := by
  obtain ⟨df, s₂, hdf, hfetch, rfl⟩ := accepted_fetched h
  have hscan := scanPrefixes_narrow (contextBuffer ctx) (defaultSizes_le hdf).2
    (setMode_narrow hdf ctx.features (startState stale insn))
  obtain ⟨hfields, hslot⟩ := fetchOpcode_fits hscan hfetch
  exact selectTemplate_finds hdb hfit s₂ hfields hslot

/-- The tables with the lookup of two records. -/
def haltTables : Db :=
  { Excerpt.tables with
    lookup := fun index hashcode => haltDisasm.x86Function (BitVec.ofNat 32 index) hashcode }

theorem haltTables_madeFrom : LookupMadeFrom haltTables haltRecords := by
  refine ⟨haltDisasm, rfl, fun index hashcode => ?_⟩
  change haltDisasm.x86Function (BitVec.ofNat 32 index.toNat) hashcode = _
  rw [BitVec.ofNat_toNat, BitVec.setWidth_eq]

/-- `HLT` behind an operand size prefix. -/
theorem accepted_goesOnWith_halt :
    ∃ t, accepted haltTables (Excerpt.contextOf .mode32 [0x66, 0xf4] 2) default default = some t ∧
      GoesOnWith haltRecords t := by
  obtain ⟨t, ht⟩ := Option.isSome_iff_exists.mp (by decide : (accepted haltTables
    (Excerpt.contextOf .mode32 [0x66, 0xf4] 2) default default).isSome = true)
  exact ⟨t, ht, accepted_goesOnWith haltTables_madeFrom (by decide : 2 ≤ 2 ^ 16) ht⟩

end Amed.X86

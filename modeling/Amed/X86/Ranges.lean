import Amed.X86.IllegalPrefix

/-!
# The ranges of the diagram

What the prefixes, the opcode fetch and the ModRM byte leave in the diagram of an accepted
instruction, member by member.

## Implementation notes

A legacy encoding leaves vvvv and aaa, and MVEX the vector length, as the memory of the decoder
held them.
-/

namespace Amed.X86

open Bytes

/-- What the prefixes leave in the diagram, with the operand size. -/
structure Diagram.Ranged (d : Diagram) : Prop where
  asz_le : d.asz ≤ 2
  osz_le : d.osz ≤ 2
  unextended : d.hasRex = false → d.r = false ∧ d.x = false ∧ d.b = false
  low : d.enc ≠ encodingEvex → d.enc ≠ encodingMvex → d.rp = false ∧ d.vp = false
  vector : d.enc ≠ encodingNone → d.hasRex = true ∧ d.vvvv < 16
  mask : d.enc = encodingEvex ∨ d.enc = encodingMvex → d.aaa < 8
  length : d.enc = encodingEvex → d.vl ≤ 2

/-- Only the operand size is not among what the later phases leave alone. -/
theorem Diagram.Ranged.of_prefixed {d d' : Diagram} (h : d.Ranged)
    (hpre : d'.prefixed = d.prefixed) (hosz : d'.osz ≤ 2) : d'.Ranged := by
  have hranged : d'.prefixed.Ranged := by
    rw [hpre]
    exact ⟨h.asz_le, Nat.zero_le 2, h.unextended, h.low, h.vector, h.mask, h.length⟩
  exact ⟨hranged.asz_le, hosz, hranged.unextended, hranged.low, hranged.vector, hranged.mask,
    hranged.length⟩

/-- The diagram while the prefixes are read: there is no SIB byte yet. -/
structure Diagram.Opening (d : Diagram) : Prop where
  ranged : d.Ranged
  noSib : d.hasSib = false

/-! ## Prefixes -/

theorem Diagram.setPpField_eq (d : Diagram) (value : Nat) :
    ∃ p f g : Bool, d.setPpField value = { d with p66 := p, f3 := f, f2 := g } := by
  unfold Diagram.setPpField
  split <;> exact ⟨_, _, _, rfl⟩

theorem Diagram.setLlField_eq (d : Diagram) {value : Nat} (h : value < 4) :
    ∃ vl ll : Nat, vl ≤ 2 ∧ d.setLlField value = { d with vl := vl, ll := ll } := by
  obtain rfl | rfl | rfl | rfl : value = 0 ∨ value = 1 ∨ value = 2 ∨ value = 3 := by omega
  · exact ⟨0, 0, by decide, rfl⟩
  · exact ⟨1, 1, by decide, rfl⟩
  · exact ⟨2, 2, by decide, rfl⟩
  · exact ⟨2, 3, by decide, rfl⟩

theorem Diagram.setWField_osz {d : Diagram} (h : d.osz ≤ 2) (value : Bool) :
    (d.setWField value).osz ≤ 2 := by
  unfold Diagram.setWField
  split
  · exact le_refl 2
  · exact h

theorem defaultSizes_le {mode : MachineMode} {df : DefaultSizes} (h : defaultSizes mode = some df) :
    df.opsize ≤ 2 ∧ df.adsize ≤ 2 := by
  unfold defaultSizes at h
  split at h <;> cases h <;> decide

variable {df : DefaultSizes} {s s' : Internal} {buf : Buffer}

theorem applyPrefix_opening (hdf : df.opsize ≤ 2 ∧ df.adsize ≤ 2) (hs : s.diagram.Opening)
    (op : UInt8) : (applyPrefix df s op).diagram.Opening := by
  obtain ⟨hopsize, hadsize⟩ := hdf
  obtain ⟨h, hsib⟩ := hs
  change (prefixEffect df s op).diagram.Opening
  unfold prefixEffect
  split
  · have hosz := Diagram.setWField_osz h.osz_le (bit op 3)
    exact Diagram.Opening.mk (Diagram.Ranged.mk h.asz_le hosz (fun hrex => nomatch hrex) h.low
      (fun henc => And.intro rfl (h.vector henc).2) h.mask h.length) hsib
  · split
    case h_7 => exact ⟨{ h with osz_le := (Nat.div_le_self _ _).trans hopsize }, hsib⟩
    case h_8 => exact ⟨{ h with asz_le := (Nat.div_le_self _ _).trans hadsize }, hsib⟩
    all_goals exact ⟨{ h with }, hsib⟩

theorem foldl_applyPrefix_opening (hdf : df.opsize ≤ 2 ∧ df.adsize ≤ 2) (ps : List UInt8)
    (h : s.diagram.Opening) : (ps.foldl (applyPrefix df) s).diagram.Opening := by
  induction ps generalizing s with
  | nil => exact h
  | cons op ps ih => exact ih (applyPrefix_opening hdf h op)

/-! ## The escape -/

theorem takeBytes_diagram {type : BytecodeType} {n : Nat} {bs : List UInt8}
    (h : s.takeBytes buf type n = some (bs, s')) : s'.diagram = s.diagram := by
  obtain ⟨-, -, rfl⟩ := takeBytes_eq_some.mp h
  rfl

theorem vvvv_lt (byte : UInt8) : 15 - bits byte 3 4 < 16 := by omega

/-- VEX and XOP leave bit 4 alone. -/
theorem ranged_of_narrow {d d' : Diagram} (h : d.Ranged) (henc : d.enc = encodingNone)
    (henc' : d'.enc = encodingVex ∨ d'.enc = encodingXop) (hasz : d'.asz = d.asz)
    (hosz : d'.osz ≤ 2) (hrex : d'.hasRex = true) (hvvvv : d'.vvvv < 16)
    (hhigh : d'.rp = d.rp ∧ d'.vp = d.vp) : d'.Ranged := by
  have hnot : d'.enc ≠ encodingEvex ∧ d'.enc ≠ encodingMvex := by
    rcases henc' with henc' | henc' <;> rw [henc'] <;> decide
  constructor
  · exact hasz ▸ h.asz_le
  · exact hosz
  · intro hno
    rw [hrex] at hno
    cases hno
  · intro _ _
    rw [hhigh.1, hhigh.2]
    exact h.low (by rw [henc]; decide) (by rw [henc]; decide)
  · exact fun _ => ⟨hrex, hvvvv⟩
  · rintro (he | hm)
    · exact absurd he hnot.1
    · exact absurd hm hnot.2
  · exact fun he => absurd he hnot.1

/-- EVEX and MVEX fill it, with the mask. -/
theorem ranged_of_high {d d' : Diagram} (h : d.Ranged)
    (henc' : d'.enc = encodingEvex ∨ d'.enc = encodingMvex) (hasz : d'.asz = d.asz)
    (hosz : d'.osz ≤ 2) (hrex : d'.hasRex = true) (hvvvv : d'.vvvv < 16) (hmask : d'.aaa < 8)
    (hlength : d'.enc = encodingEvex → d'.vl ≤ 2) : d'.Ranged := by
  constructor
  · exact hasz ▸ h.asz_le
  · exact hosz
  · intro hno
    rw [hrex] at hno
    cases hno
  · intro he hm
    exact absurd henc' (by simp [he, hm])
  · exact fun _ => ⟨hrex, hvvvv⟩
  · exact fun _ => hmask
  · exact hlength

theorem decodeVex2_opening (hs : s.diagram.Opening) (henc : s.diagram.enc = encodingNone)
    (h : decodeVex2 buf s = some s') : s'.diagram.Opening := by
  unfold decodeVex2 at h
  split at h
  · rename_i byte0 byte1 s₁ htake
    rw [← takeBytes_diagram htake] at hs henc
    split at h
    · cases h
    · cases h
      obtain ⟨p, f, g, hpp⟩ := s₁.diagram.setPpField_eq (bits byte1 0 2)
      obtain ⟨vl, ll, -, hll⟩ := (s₁.diagram.setPpField (bits byte1 0 2)).setLlField_eq
        ((bits_lt byte1 2 1).trans (by decide))
      rw [hll, hpp]
      exact ⟨ranged_of_narrow hs.ranged henc (.inl rfl) rfl hs.ranged.osz_le rfl (vvvv_lt byte1)
        ⟨rfl, rfl⟩, hs.noSib⟩
  · cases h

theorem decodeVex3_opening (hs : s.diagram.Opening) (henc : s.diagram.enc = encodingNone)
    (h : decodeVex3 buf s = some s') : s'.diagram.Opening := by
  unfold decodeVex3 at h
  split at h
  · rename_i byte0 byte1 byte2 s₁ htake
    rw [← takeBytes_diagram htake] at hs henc
    split at h
    · cases h
    · split at h
      · cases h
      · cases h
        obtain ⟨p, f, g, hpp⟩ :=
          (s₁.diagram.setWField (bit byte2 7)).setPpField_eq (bits byte2 0 2)
        obtain ⟨vl, ll, -, hll⟩ :=
          ((s₁.diagram.setWField (bit byte2 7)).setPpField (bits byte2 0 2)).setLlField_eq
            ((bits_lt byte2 2 1).trans (by decide))
        rw [hll, hpp]
        exact ⟨ranged_of_narrow hs.ranged henc (.inl rfl) rfl
          (Diagram.setWField_osz hs.ranged.osz_le (bit byte2 7)) rfl (vvvv_lt byte2) ⟨rfl, rfl⟩,
          hs.noSib⟩
  · cases h

theorem decodeXop_opening (hs : s.diagram.Opening) (henc : s.diagram.enc = encodingNone)
    (h : decodeXop buf s = some s') : s'.diagram.Opening := by
  unfold decodeXop at h
  split at h
  · rename_i byte0 byte1 byte2 s₁ htake
    rw [← takeBytes_diagram htake] at hs henc
    split at h
    · cases h
    · split at h
      · cases h
      · cases h
        obtain ⟨vl, ll, -, hll⟩ := Diagram.setLlField_eq (Diagram.setWField { s₁.diagram with
          enc := encodingXop, hasRex := true
          r := !bit byte1 7, x := !bit byte1 6, b := !bit byte1 5
          vvvv := 15 - bits byte2 3 4 } (bit byte2 7)) ((bits_lt byte2 2 1).trans (by decide))
        rw [hll]
        exact ⟨ranged_of_narrow hs.ranged henc (.inr rfl) rfl
          (Diagram.setWField_osz hs.ranged.osz_le (bit byte2 7)) rfl (vvvv_lt byte2) ⟨rfl, rfl⟩,
          hs.noSib⟩
  · cases h

theorem decodeMvex_opening {byte1 byte2 byte3 : UInt8} (hs : s.diagram.Opening)
    (h : decodeMvex s byte1 byte2 byte3 = some s') : s'.diagram.Opening := by
  unfold decodeMvex at h
  split at h
  · cases h
  · cases h
    obtain ⟨p, f, g, hpp⟩ := s.diagram.setPpField_eq (bits byte2 0 2)
    rw [hpp]
    exact ⟨ranged_of_high hs.ranged (.inr rfl) rfl
      (Diagram.setWField_osz hs.ranged.osz_le (bit byte2 7)) rfl (vvvv_lt byte2) (bits_lt byte3 0 3)
      (fun he => nomatch he), hs.noSib⟩

theorem decodeEvex_opening {byte1 byte2 byte3 : UInt8} (hs : s.diagram.Opening)
    (h : decodeEvex s byte1 byte2 byte3 = some s') : s'.diagram.Opening := by
  unfold decodeEvex at h
  split at h
  · cases h
  · split at h
    · cases h
    · cases h
      obtain ⟨p, f, g, hpp⟩ := s.diagram.setPpField_eq (bits byte2 0 2)
      obtain ⟨vl, ll, hvl, hll⟩ := ((s.diagram.setPpField (bits byte2 0 2)).setWField
        (bit byte2 7)).setLlField_eq (bits_lt byte3 5 2)
      rw [hll, hpp]
      exact ⟨ranged_of_high hs.ranged (.inl rfl) rfl
        (Diagram.setWField_osz hs.ranged.osz_le (bit byte2 7)) rfl (vvvv_lt byte2) (bits_lt byte3 0 3)
        (fun _ => hvl), hs.noSib⟩

theorem decodeMevex_opening (hs : s.diagram.Opening) (h : decodeMevex buf s = some s') :
    s'.diagram.Opening := by
  unfold decodeMevex at h
  split at h
  · split at h
    · split at h
      · exact decodeMvex_opening (s := (s.advance 4).addBytecode .mvex _) hs h
      · cases h
    · exact decodeEvex_opening (s := (s.advance 4).addBytecode .evex _) hs h
  · cases h

/-- The escape settles what the prefixes have ranged, anew where it is a vector prefix. -/
theorem decodeEscape_opening (hs : s.diagram.Opening) (henc : s.diagram.enc = encodingNone)
    (op : UInt8) : (decodeEscape buf s op).diagram.Opening := by
  have hattempt : ∀ {o : Option Internal}, (∀ s', o = some s' → s'.diagram.Opening) →
      (o.getD s).diagram.Opening := by
    intro o h
    cases o with
    | none => exact hs
    | some s' => exact h s' rfl
  unfold decodeEscape
  split
  · unfold decodeMap
    dsimp only
    split <;> exact hs
  · exact hattempt fun _ => decodeXop_opening hs henc
  · exact hattempt fun _ => decodeMevex_opening hs
  · exact hattempt fun _ => decodeVex3_opening hs henc
  · exact hattempt fun _ => decodeVex2_opening hs henc
  · exact hs

/-! ## The prefixes together -/

theorem scanPrefixes_opening (buf : Buffer) (hdf : df.opsize ≤ 2 ∧ df.adsize ≤ 2)
    (hs : s.diagram.Opening) (henc : s.diagram.enc = encodingNone) :
    (scanPrefixes buf df s).diagram.Opening := by
  have hfold := foldl_applyPrefix_opening hdf (prefixBytes buf s.diagram.longMode s.pc) hs
  have hfenc := foldl_applyPrefix_enc df (prefixBytes buf s.diagram.longMode s.pc) s
  rw [scanPrefixes_eq, leaveLoop]
  split
  · exact hfold
  · exact decodeEscape_opening hfold (hfenc.trans henc) _

/-- Before the prefixes nothing is extended. -/
theorem setMode_opening {features : BitVec 32} (hfeat : FeatureBits features) {mode : MachineMode}
    (hdf : defaultSizes mode = some df) (s : Internal) :
    (setMode mode df (initialise features s)).diagram.Opening ∧
      (setMode mode df (initialise features s)).diagram.enc = encodingNone := by
  obtain ⟨hopsize, hadsize⟩ := defaultSizes_le hdf
  have henc : (setMode mode df (initialise features s)).diagram.enc = encodingNone := by
    have hmod := hfeat.toNat_mod
    change features.toNat / 2 ^ 16 % 2 ^ 3 = 0
    omega
  refine ⟨⟨⟨hadsize, hopsize, fun _ => ⟨rfl, rfl, rfl⟩, fun _ _ => ⟨rfl, rfl⟩, ?_, ?_, ?_⟩, rfl⟩,
    henc⟩
  · exact fun hne => absurd henc hne
  · rw [henc]
    exact fun h => absurd h (by decide)
  · rw [henc]
    exact fun h => absurd h (by decide)

/-! ## ModRM and SIB -/

/-- What the ModRM byte and the SIB byte leave in the diagram. -/
structure Diagram.Fields (d : Diagram) : Prop where
  mod_lt : d.mod < 4
  reg_lt : d.reg < 8
  rm_lt : d.rm < 8
  sib : d.hasSib = true → d.base < 8 ∧ d.index < 8

theorem setModrmField_fields (hsib : s.diagram.hasSib = false) (modrm : UInt8) :
    (s.setModrmField modrm).diagram.Fields where
  mod_lt := bits_lt modrm 6 2
  reg_lt := bits_lt modrm 3 3
  rm_lt := bits_lt modrm 0 3
  sib h := absurd h (by rw [show (s.setModrmField modrm).diagram.hasSib = false from hsib]; decide)

theorem setDisp_fields {db : Db} {disp : Int} {n : Nat} (hs : s.diagram.Fields)
    (h : setDisp db s disp n = some s') : s'.diagram.Fields := by
  unfold setDisp at h
  split at h <;> cases h <;> exact { hs with }

theorem readDisp_fields (db : Db) (buf : Buffer) (hs : s.diagram.Fields) (n : Nat) :
    (readDisp db buf s n).2.diagram.Fields := by
  unfold readDisp
  split
  · exact hs
  · split
    · exact hs
    · rename_i s' hdisp
      unfold decodeDisp at hdisp
      split at hdisp
      · cases hdisp
      · rename_i htake
        rw [← takeBytes_diagram htake] at hs
        exact setDisp_fields hs hdisp

theorem decodeSib_fields (db : Db) (buf : Buffer) (hs : s.diagram.Fields) :
    (decodeSib db buf s).2.diagram.Fields := by
  unfold decodeSib
  split
  · rename_i sib s₁ htake
    rw [← takeBytes_diagram htake] at hs
    refine readDisp_fields db buf ?_ _
    exact { hs with sib := fun _ => ⟨bits_lt sib 0 3, bits_lt sib 3 3⟩ }
  · exact hs

theorem decodeModrm_fields (db : Db) (buf : Buffer) (hs : s.diagram.Fields) :
    (decodeModrm db buf s).2.diagram.Fields := by
  have hbegin : (beginModrm s).diagram.Fields := { hs with }
  have hsib : (if s.diagram.mod ≠ 3 ∧ s.diagram.rm = 4 then decodeSib db buf (beginModrm s)
      else (true, beginModrm s)).2.diagram.Fields := by
    split
    · exact decodeSib_fields db buf hbegin
    · exact hbegin
  unfold decodeModrm
  dsimp only
  generalize (if s.diagram.mod ≠ 3 ∧ s.diagram.rm = 4 then decodeSib db buf (beginModrm s)
    else (true, beginModrm s)) = r at hsib
  obtain ⟨ok, t⟩ := r
  cases ok with
  | false => exact hsib
  | true =>
      have hdisp := readDisp_fields db buf hsib (modrmDispSize s.diagram.mod s.diagram.rm)
      dsimp only
      generalize readDisp db buf t (modrmDispSize s.diagram.mod s.diagram.rm) = r at hdisp
      obtain ⟨ok, u⟩ := r
      cases ok with
      | false => exact hdisp
      | true => exact { hdisp with }

theorem fetchOpcode_fields {db : Db} (hsib : s.diagram.hasSib = false)
    (h : fetchOpcode db buf s = (true, s')) : s'.diagram.Fields := by
  unfold fetchOpcode at h
  split at h
  · split at h
    · cases h
    · rename_i modrm _
      have hfields := decodeModrm_fields db buf (setModrmField_fields hsib modrm)
      generalize decodeModrm db buf (s.setModrmField modrm) = r at h hfields
      obtain ⟨ok, t⟩ := r
      cases ok with
      | false => cases h
      | true =>
          dsimp only at h
          split at h
          · cases h
          · cases h
            exact { hfields with }
  · split at h
    · cases h
    · cases h
      exact { setModrmField_fields (s := s.advance 1) hsib _ with }

theorem selectTemplate_modrmFields (db : Db) (hs : s.diagram.Fields) :
    (selectTemplate db s).diagram.Fields := by
  have hsizes : s.diagram.hashSizes.Fields := by
    unfold Diagram.hashSizes
    dsimp only
    split <;> exact { hs with }
  change (s.diagram.hashSizes.overrideSize _).Fields
  unfold Diagram.overrideSize
  split
  · split
    · exact { hsizes with }
    · split
      · exact { hsizes with }
      · exact hsizes
  · exact hsizes

theorem decodeRealModrm_fields (db : Db) (buf : Buffer) (hs : s.diagram.Fields) :
    (decodeRealModrm db buf s).diagram.Fields := by
  unfold decodeRealModrm
  split
  · split
    · exact hs
    · exact decodeModrm_fields db buf hs
  · exact ⟨Nat.zero_lt_succ 3, Nat.zero_lt_succ 7, Nat.zero_lt_succ 7, hs.sib⟩

/-! ## Accepted instructions -/

theorem hashSizes_osz {d : Diagram} (h : d.osz ≤ 2) : d.hashSizes.osz ≤ 2 := by
  unfold Diagram.hashSizes
  dsimp only
  split
  · split
    · exact le_refl 2
    · exact h
  · exact h

theorem overrideSize_osz {d : Diagram} (h : d.osz ≤ 2) (t : DbTemplate) :
    (d.overrideSize t).osz ≤ 2 := by
  unfold Diagram.overrideSize
  split
  · split
    · exact le_refl 2
    · split
      · split
        · exact Nat.le_succ 1
        · exact le_refl 2
      · exact h
  · exact h

/-- The state of an accepted instruction, when its template is selected. -/
theorem accepted_ranged {db : Db} {ctx : Context} {stale t : Internal} {insn : Insn}
    (h : accepted db ctx stale insn = some t) (hfeat : FeatureBits ctx.features) :
    t.diagram.Ranged ∧ t.diagram.Fields := by
  obtain ⟨df, s₂, hdf, hf, rfl⟩ := accepted_fetched h
  obtain ⟨hstart, henc⟩ := setMode_opening hfeat hdf (startState stale insn)
  have hscan := scanPrefixes_opening (contextBuffer ctx) (defaultSizes_le hdf) hstart henc
  have hcarried := (selectTemplate_carried db s₂).trans
    (hf ▸ fetchOpcode_carried db (contextBuffer ctx) _)
  have hsizes := (fetchOpcode_fetched hf).sizes
  have hosz : s₂.diagram.osz ≤ 2 := by
    rw [show s₂.diagram.osz = _ from congrArg Sizes.osz hsizes]
    exact hscan.ranged.osz_le
  refine ⟨hscan.ranged.of_prefixed (congrArg Carried.diagram hcarried) ?_, ?_⟩
  · exact overrideSize_osz (hashSizes_osz hosz) _
  · exact selectTemplate_modrmFields db (fetchOpcode_fields hscan.noSib hf)

/-- And when its ModRM byte has been read. -/
theorem decodeRealModrm_ranged {db : Db} {ctx : Context} {stale t : Internal} {insn : Insn}
    (h : accepted db ctx stale insn = some t) (hfeat : FeatureBits ctx.features) :
    (decodeRealModrm db (contextBuffer ctx) t).diagram.Ranged ∧
      (decodeRealModrm db (contextBuffer ctx) t).diagram.Fields := by
  obtain ⟨hranged, hfields⟩ := accepted_ranged h hfeat
  have hcarried := decodeRealModrm_carried db (contextBuffer ctx) t
  have hosz : (decodeRealModrm db (contextBuffer ctx) t).diagram.osz = t.diagram.osz :=
    congrArg Settled.osz ((accepted_opened h).decodeRealModrm_settled db)
  refine ⟨hranged.of_prefixed (congrArg Carried.diagram hcarried) ?_,
    decodeRealModrm_fields db _ hfields⟩
  rw [hosz]
  exact hranged.osz_le

end Amed.X86

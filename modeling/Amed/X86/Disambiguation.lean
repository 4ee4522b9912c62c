import Amed.X86.Sizes

/-!
# Vector prefixes and LDS, LES, BOUND

Outside long mode the bytes C5, C4 and 62 start a vector prefix or stand for a legacy opcode
with a memory operand. The architecture looks at the two high bits of the next byte; the
decoder looks at other bits as well, and at fewer for C5.
-/

namespace Amed.X86

open Bytes

/-- The encoding and the width of the vector prefix a byte may start. -/
def vectorEncoding (op : UInt8) : Option (Nat × Nat) :=
  match op.toNat with
  | 0xc5 => some (encodingVex, 2)
  | 0xc4 => some (encodingVex, 3)
  | 0x62 => some (encodingEvex, 4)
  | _ => none

/-! ## The byte behind the prefixes -/

/-- The state in front of the byte behind the prefixes. -/
theorem scanPrefixes_escape {buf : Buffer} (df : DefaultSizes) {s : Internal} {op : UInt8}
    (hop : buf.peekByte (s.pc + (prefixBytes buf s.diagram.longMode s.pc).length) = some op) :
    let s₁ := (prefixBytes buf s.diagram.longMode s.pc).foldl (applyPrefix df) s
    scanPrefixes buf df s = decodeEscape buf s₁ op ∧
      s₁.pc = s.pc + (prefixBytes buf s.diagram.longMode s.pc).length ∧
      s₁.diagram.longMode = s.diagram.longMode ∧ s₁.mapidx = s.mapidx := by
  intro s₁
  obtain ⟨-, hframe⟩ := foldl_prefixBytes buf df s.diagram.longMode s rfl
  have hmap := foldl_applyPrefix_mapidx df (prefixBytes buf s.diagram.longMode s.pc) s
  have hpc : s₁.pc = s.pc + (prefixBytes buf s.diagram.longMode s.pc).length :=
    foldl_prefixBytes_pc buf df s
  refine ⟨?_, hpc, hframe.longMode, hmap⟩
  rw [← hpc] at hop
  rw [scanPrefixes_eq, leaveLoop, hop]

theorem decodeVex2_enc {buf : Buffer} {s s' : Internal} (h : decodeVex2 buf s = some s') :
    s'.diagram.enc = encodingVex := by
  unfold decodeVex2 at h
  split at h
  · split at h
    · cases h
    · cases h
      rfl
  · cases h

theorem decodeVex3_enc {buf : Buffer} {s s' : Internal} (h : decodeVex3 buf s = some s') :
    s'.diagram.enc = encodingVex := by
  unfold decodeVex3 at h
  split at h
  · split at h
    · cases h
    · split at h
      · cases h
      · cases h
        rfl
  · cases h

theorem decodeMevex_enc {buf : Buffer} {s s' : Internal} (hlong : s.diagram.longMode = false)
    (h : decodeMevex buf s = some s') : s'.diagram.enc = encodingEvex := by
  unfold decodeMevex at h
  split at h
  · split at h
    · rw [if_neg (by simp [hlong])] at h
      cases h
    · unfold decodeEvex at h
      split at h
      · cases h
      · split at h
        · cases h
        · cases h
          rfl
  · cases h

/-- A vector prefix that is accepted outside long mode sets its encoding. -/
theorem decodeEscape_enc {buf : Buffer} {s : Internal} {op : UInt8} {enc n : Nat}
    (hvec : vectorEncoding op = some (enc, n)) (hlong : s.diagram.longMode = false)
    (hne : decodeEscape buf s op ≠ s) : (decodeEscape buf s op).diagram.enc = enc := by
  have hcases : op.toNat = 0xc5 ∨ op.toNat = 0xc4 ∨ op.toNat = 0x62 := by
    unfold vectorEncoding at hvec
    split at hvec <;> simp_all
  rcases hcases with hop | hop | hop <;> simp only [vectorEncoding, hop] at hvec <;> cases hvec <;>
    simp only [decodeEscape, hop] at hne ⊢
  · cases h : decodeVex2 buf s with
    | none => exact absurd (by rw [h]; rfl) hne
    | some s' => exact decodeVex2_enc h
  · cases h : decodeVex3 buf s with
    | none => exact absurd (by rw [h]; rfl) hne
    | some s' => exact decodeVex3_enc h
  · cases h : decodeMevex buf s with
    | none => exact absurd (by rw [h]; rfl) hne
    | some s' => exact decodeMevex_enc hlong h

theorem vectorPrefix_of_encoding {op : UInt8} {enc n : Nat}
    (hvec : vectorEncoding op = some (enc, n)) (lm : Bool) :
    ∃ accepts, vectorPrefix lm op = some (n, accepts) ∧ n ≠ 0 ∧ op ≠ 0x0f := by
  unfold vectorEncoding at hvec
  unfold vectorPrefix
  split at hvec <;> cases hvec <;> rename_i hop <;> rw [hop] <;>
    exact ⟨_, rfl, by decide, by rintro rfl; exact absurd hop (by decide)⟩

/-- A vector prefix is taken whole or not at all. -/
theorem vectorWidth_cases {buf : Buffer} {pos : Nat} {op : UInt8} {enc n : Nat} (lm : Bool)
    (hop : buf.peekByte pos = some op) (hvec : vectorEncoding op = some (enc, n)) :
    vectorWidth buf lm pos = 0 ∨ vectorWidth buf lm pos = n := by
  obtain ⟨accepts, hpre, -⟩ := vectorPrefix_of_encoding hvec lm
  simp only [vectorWidth, hop, Option.bind_some, hpre]
  split
  · exact Or.inr rfl
  · exact Or.inl rfl

theorem fetchOpcode_opcode {db : Db} {buf : Buffer} {s s' : Internal}
    (h : fetchOpcode db buf s = (true, s')) (hmap : s.mapidx ≠ mapIdx0F0F) :
    s'.diagram.opcode = buf.address s.pc ∧ s'.diagram.enc = s.diagram.enc ∧
      s'.mapidx = s.mapidx ∧
      s'.diagram.mod = bits ((buf.peekByte (s.advance 1).pc).getD 0) 6 2 := by
  unfold fetchOpcode at h
  rw [if_neg hmap] at h
  cases hop : buf.peekByte s.pc with
  | none => simp [hop] at h
  | some op =>
      obtain ⟨-, rfl⟩ := peekByte_eq_some.mp hop
      simp only [hop, Prod.mk.injEq, true_and] at h
      subst h
      exact ⟨rfl, rfl, rfl, rfl⟩

theorem selectTemplate_opcode (db : Db) (s : Internal) :
    (selectTemplate db s).diagram.opcode = s.diagram.opcode ∧
      (selectTemplate db s).diagram.enc = s.diagram.enc ∧
      (selectTemplate db s).diagram.mod = s.diagram.mod ∧
      (selectTemplate db s).mapidx = s.mapidx := by
  have hhash : s.diagram.hashSizes.opcode = s.diagram.opcode ∧
      s.diagram.hashSizes.enc = s.diagram.enc ∧ s.diagram.hashSizes.mod = s.diagram.mod := by
    unfold Diagram.hashSizes
    dsimp only
    split <;> exact ⟨rfl, rfl, rfl⟩
  have hover : ∀ (d : Diagram) (t : DbTemplate), (d.overrideSize t).opcode = d.opcode ∧
      (d.overrideSize t).enc = d.enc ∧ (d.overrideSize t).mod = d.mod := by
    intro d t
    unfold Diagram.overrideSize
    split
    · split
      · exact ⟨rfl, rfl, rfl⟩
      · split <;> exact ⟨rfl, rfl, rfl⟩
    · exact ⟨rfl, rfl, rfl⟩
  obtain ⟨h₁, h₂, h₃⟩ := hover s.diagram.hashSizes (db.templates (selectTemplate db s).ptemplate)
  exact ⟨h₁.trans hhash.1, h₂.trans hhash.2.1, h₃.trans hhash.2.2, rfl⟩

/-! ## The two readings -/

/-- The byte behind the prefixes was taken for a vector prefix of `n` bytes. -/
structure ReadAsVector (ctx : Context) (s : Internal) (enc n : Nat) : Prop where
  enc : s.diagram.enc = enc
  pc : s.pc = (contextPrefixes ctx).length + n + 1

/-- The byte behind the prefixes was taken for a legacy opcode with a memory operand. -/
structure ReadAsLegacy (ctx : Context) (s : Internal) : Prop where
  enc : s.diagram.enc = encodingNone
  map : s.mapidx = 0
  opcode : s.diagram.opcode = ctx.address (contextPrefixes ctx).length
  pc : s.pc = (contextPrefixes ctx).length + 1
  memory : s.diagram.mod ≠ 3

/-- The bytes of an opening whose prefixes are followed by a vector prefix or not. -/
theorem openingWidths_sum_of_vector {buf : Buffer} {lm : Bool} {op : UInt8} {enc n : Nat}
    (hop : buf.peekByte (prefixCount buf lm) = some op) (hvec : vectorEncoding op = some (enc, n)) :
    (openingWidths buf lm).sum =
      prefixCount buf lm + vectorWidth buf lm (prefixCount buf lm) + 1 := by
  obtain ⟨-, -, -, hne⟩ := vectorPrefix_of_encoding hvec lm
  have hmap : buf.peekByte (prefixCount buf lm) ≠ some 0x0f := by
    rw [hop]
    exact fun h => hne (Option.some.inj h)
  have hnow : ¬ThreeDNow buf (prefixCount buf lm) := fun h => hmap h.1
  simp only [openingWidths, escapeWidth, hmap, hnow, if_false, List.append_nil, List.sum_append,
    List.sum_replicate_nat, readOf_sum, List.sum_cons, List.sum_nil]
  omega

section Outside

variable {db : Db} {ctx : Context} {stale s : Internal} {insn : Insn} {op : UInt8} {enc n : Nat}

/-- The opcode fetch behind the escape. -/
theorem accepted_fetched (h : accepted db ctx stale insn = some s) :
    ∃ df s₂, defaultSizes ctx.machineMode = some df ∧
      fetchOpcode db (contextBuffer ctx) (scanPrefixes (contextBuffer ctx) df
        (setMode ctx.machineMode df (initialise ctx.features (startState stale insn)))) =
          (true, s₂) ∧ s = selectTemplate db s₂ := by
  unfold accepted selected at h
  cases hdf : defaultSizes ctx.machineMode with
  | none => simp [hdf] at h
  | some df =>
      simp only [hdf] at h
      generalize hf : fetchOpcode db (contextBuffer ctx) (scanPrefixes (contextBuffer ctx) df
        (setMode ctx.machineMode df (initialise ctx.features (startState stale insn)))) = r at h
      obtain ⟨ok, s₂⟩ := r
      cases ok with
      | false => simp at h
      | true => exact ⟨df, s₂, rfl, hf, (Option.some.inj h).symm⟩

/-- What the decoder took the byte behind the prefixes for. -/
theorem accepted_reading (h : accepted db ctx stale insn = some s)
    (hlong : longModeOf ctx.machineMode ctx.features = false)
    (hfeat : FeatureBits ctx.features)
    (hop : (contextBuffer ctx).peekByte (contextPrefixes ctx).length = some op)
    (hvec : vectorEncoding op = some (enc, n)) :
    (vectorWidth (contextBuffer ctx) false (contextPrefixes ctx).length ≠ 0 →
        ReadAsVector ctx s enc n) ∧
      (vectorWidth (contextBuffer ctx) false (contextPrefixes ctx).length = 0 →
        s.diagram.enc = encodingNone ∧ s.mapidx = 0 ∧ s.diagram.opcode = op ∧
          s.pc = (contextPrefixes ctx).length + 1 ∧
          s.diagram.mod = bits (((contextBuffer ctx).peekByte
            ((contextPrefixes ctx).length + 1)).getD 0) 6 2) := by
  obtain ⟨hsum, -, -⟩ := (accepted_opened h).pc_bounds rfl
  rw [hlong] at hsum
  have hcount : prefixCount (contextBuffer ctx) false = (contextPrefixes ctx).length := by
    rw [contextPrefixes, hlong, prefixCount]
  rw [openingWidths_sum_of_vector (by rwa [hcount]) hvec, hcount] at hsum
  obtain ⟨df, s₂, hdf, hf, rfl⟩ := accepted_fetched h
  obtain ⟨hopcode, henc, hmod, hmap⟩ := selectTemplate_opcode db s₂
  have hsizes := foldl_applyPrefix_sizes (contextPrefixes ctx)
    (sizesAfter_start hfeat ctx.machineMode df (startState stale insn))
  have hbytes : prefixBytes (contextBuffer ctx) (setMode ctx.machineMode df (initialise ctx.features
      (startState stale insn))).diagram.longMode 0 = contextPrefixes ctx := by
    rw [setMode_longMode, contextPrefixes]
  have hpc₀ : (setMode ctx.machineMode df (initialise ctx.features (startState stale insn))).pc = 0 :=
    rfl
  have hop₀ := hop
  rw [← Nat.zero_add (contextPrefixes ctx).length, ← hbytes, ← hpc₀] at hop₀
  have hscan := scanPrefixes_escape df hop₀
  rw [hpc₀, hbytes, setMode_longMode, hlong, Nat.zero_add] at hscan
  obtain ⟨hescape, hpc₁, hlong₁, hmap₁⟩ := hscan
  rw [hescape] at hf
  generalize (contextPrefixes ctx).foldl (applyPrefix df) (setMode ctx.machineMode df
    (initialise ctx.features (startState stale insn))) = s₁ at hf hpc₁ hlong₁ hmap₁ hsizes
  rw [← hpc₁] at hop ⊢
  have hin := (peekByte_eq_some.mp hop).1
  have hcases := decodeEscape_cases hop
  rw [hlong₁] at hcases
  obtain ⟨-, -, -, hne⟩ := vectorPrefix_of_encoding hvec false
  constructor
  · intro hw
    rcases hcases with ⟨-, hzero, -⟩ | ⟨-, -, htakes⟩ | ⟨hmap', -⟩
    · exact absurd hzero hw
    · have hwidth := (vectorWidth_cases false hop hvec).resolve_left hw
      obtain ⟨f, -, hlen, hconsumes⟩ := htakes.field
      have hmoved : decodeEscape (contextBuffer ctx) s₁ op ≠ s₁ := by
        intro hsame
        have hpc := hconsumes.pc
        rw [hsame, width_cons, hlen] at hpc
        simp only [Internal.cursor_pc, width_nil] at hpc
        omega
      obtain ⟨-, henc', -, -⟩ := fetchOpcode_opcode hf htakes.mapidx
      refine ⟨henc.trans (henc'.trans (decodeEscape_enc hvec hlong₁ hmoved)), ?_⟩
      rw [hsum, ← hpc₁, hwidth]
    · exact absurd hmap' hne
  · intro hw
    rcases hcases with ⟨-, -, hsame⟩ | ⟨-, hsome, -⟩ | ⟨hmap', -⟩
    · rw [hsame] at hf
      have hmap0 : s₁.mapidx = 0 := hmap₁
      obtain ⟨hop', henc', hmap', hmod'⟩ := fetchOpcode_opcode hf (by rw [hmap0]; decide)
      refine ⟨henc.trans (henc'.trans hsizes.2.2.2.2), hmap.trans (hmap'.trans hmap0), ?_, ?_, ?_⟩
      · rw [hopcode, hop', (peekByte_eq_some.mp hop).2]
      · rw [hsum, ← hpc₁, hw]
      · rw [hmod, hmod', advance_pc hin]
    · exact absurd hw hsome
    · exact absurd hmap' hne

/-- The byte behind the prefixes is a vector prefix exactly when the two high bits of the next
byte are set, and a legacy opcode with a memory operand otherwise. -/
structure Disambiguated (ctx : Context) (s : Internal) (enc n : Nat) : Prop where
  vector : ReadAsVector ctx s enc n ↔
    bits (ctx.address ((contextPrefixes ctx).length + 1)) 6 2 = 3
  legacy : bits (ctx.address ((contextPrefixes ctx).length + 1)) 6 2 ≠ 3 → ReadAsLegacy ctx s

/-- The prefix bytes for which the decoder's own tests come to the same: behind C5 not a set
bit 7 with a clear bit 6; behind C4 and 62, when both are set, also bit 5, a map that exists,
and for 62 the fixed bits of EVEX. -/
def TestsAgree (op byte1 byte2 : UInt8) : Prop :=
  match op.toNat with
  | 0xc5 => bits byte1 6 2 ≠ 2
  | 0xc4 => bits byte1 6 2 = 3 → bit byte1 5 = true ∧ (mmmmmField (bits byte1 0 5)).isSome
  | _ => bits byte1 6 2 = 3 → bit byte1 5 = true ∧ (mmmmmField (bits byte1 0 2)).isSome ∧
      bits byte1 2 2 = 0 ∧ bit byte2 2 = true

instance (op byte1 byte2 : UInt8) : Decidable (TestsAgree op byte1 byte2) := by
  unfold TestsAgree
  split <;> infer_instance

/-- The two high bits of a byte. -/
theorem bits_high (b : UInt8) :
    (bits b 6 2 = 3 ↔ bit b 7 = true ∧ bit b 6 = true) ∧
      (bits b 6 2 = 2 ↔ bit b 7 = true ∧ bit b 6 = false) := by
  simp only [bits, bit, Nat.testBit_eq_decide_div_mod_eq, decide_eq_true_eq, decide_eq_false_iff_not]
  omega

/-- The decoder takes a vector prefix exactly when the two high bits are set. -/
theorem testsAgree_iff {buf : Buffer} {pos : Nat} (hop : buf.peekByte pos = some op)
    (hvec : vectorEncoding op = some (enc, n)) (hin : pos + n ≤ buf.nb) :
    (vectorWidth buf false pos ≠ 0 ↔ bits (buf.address (pos + 1)) 6 2 = 3) ↔
      TestsAgree op (buf.address (pos + 1)) (buf.address (pos + 2)) := by
  have hpeek : buf.peekBytes pos n = some (slice buf.address pos n) :=
    peekBytes_eq_some.mpr ⟨hin, rfl⟩
  obtain ⟨accepts, hpre, hn, -⟩ := vectorPrefix_of_encoding hvec false
  have htaken : vectorWidth buf false pos ≠ 0 ↔ accepts (slice buf.address pos n) = true := by
    simp only [vectorWidth, hop, Option.bind_some, hpre, hpeek, Option.any_some]
    split <;> simp_all
  rw [htaken]
  obtain ⟨hthree, htwo⟩ := bits_high (buf.address (pos + 1))
  unfold vectorEncoding at hvec
  unfold vectorPrefix at hpre
  unfold TestsAgree
  split at hvec
  · -- C5: bit 7 alone is tested
    rename_i hop'
    cases hvec
    simp only [hop'] at hpre ⊢
    cases hpre
    simp only [slice_succ, slice_zero, acceptsVex2, Bool.false_or, hthree, ne_eq, htwo]
    cases bit (buf.address (pos + 1)) 7 <;> cases bit (buf.address (pos + 1)) 6 <;> decide
  · rename_i hop'
    cases hvec
    simp only [hop'] at hpre ⊢
    cases hpre
    simp only [slice_succ, slice_zero, acceptsVex3, acceptsRxb, Bool.false_or, hthree]
    cases bit (buf.address (pos + 1)) 7 <;> cases bit (buf.address (pos + 1)) 6 <;>
      simp [and_comm]
  · rename_i hop'
    cases hvec
    simp only [hop'] at hpre ⊢
    cases hpre
    simp only [slice_succ, slice_zero, acceptsMevex, acceptsRxb, Bool.false_or, Bool.false_and,
      hthree]
    cases bit (buf.address (pos + 1)) 7 <;> cases bit (buf.address (pos + 1)) 6 <;> simp
    tauto
  · cases hvec

/-- A vector prefix that the byte count cuts off is not taken. -/
theorem vectorWidth_of_short {buf : Buffer} {pos : Nat} (lm : Bool) (hop : buf.peekByte pos = some op)
    (hvec : vectorEncoding op = some (enc, n)) (hout : buf.nb < pos + n) :
    vectorWidth buf lm pos = 0 := by
  have hpeek : buf.peekBytes pos n = none := by
    cases h : buf.peekBytes pos n with
    | none => rfl
    | some bs =>
        have hin := (peekBytes_eq_some.mp h).1
        omega
  obtain ⟨accepts, hpre, -⟩ := vectorPrefix_of_encoding hvec lm
  simp [vectorWidth, hop, hpre, hpeek]

/-- An input is read as the architecture says exactly when the decoder takes a vector prefix
for the same bytes. -/
theorem disambiguated_iff_width (h : accepted db ctx stale insn = some s)
    (hlong : longModeOf ctx.machineMode ctx.features = false) (hfeat : FeatureBits ctx.features)
    (hop : (contextBuffer ctx).peekByte (contextPrefixes ctx).length = some op)
    (hvec : vectorEncoding op = some (enc, n)) :
    Disambiguated ctx s enc n ↔
      (vectorWidth (contextBuffer ctx) false (contextPrefixes ctx).length ≠ 0 ↔
        bits (ctx.address ((contextPrefixes ctx).length + 1)) 6 2 = 3) := by
  obtain ⟨hvector, hlegacy⟩ := accepted_reading h hlong hfeat hop hvec
  have henc : enc ≠ encodingNone := by
    unfold vectorEncoding at hvec
    split at hvec <;> cases hvec <;> decide
  constructor
  · rintro ⟨hv, -⟩
    rw [← hv]
    constructor
    · exact hvector
    · intro hread hzero
      exact henc (hread.enc.symm.trans (hlegacy hzero).1)
  · intro hiff
    constructor
    · rw [← hiff]
      constructor
      · intro hread hzero
        exact henc (hread.enc.symm.trans (hlegacy hzero).1)
      · exact hvector
    · intro hbits
      have hzero := not_not.mp (mt hiff.mp hbits)
      obtain ⟨h₁, h₂, h₃, h₄, h₅⟩ := hlegacy hzero
      refine ⟨h₁, h₂, h₃.trans (peekByte_eq_some.mp hop).2, h₄, ?_⟩
      rw [h₅]
      cases hm : (contextBuffer ctx).peekByte ((contextPrefixes ctx).length + 1) with
      | none => decide
      | some m =>
          rw [Option.getD_some, (peekByte_eq_some.mp hm).2]
          exact hbits

/-- Outside long mode the byte behind the prefixes is read as the architecture says exactly
when the decoder's tests agree with the two high bits; a byte count that cuts the prefix off
makes it a legacy opcode. -/
theorem disambiguated_iff (h : accepted db ctx stale insn = some s)
    (hmode : ctx.machineMode = .mode16 ∨ ctx.machineMode = .mode32)
    (hfeat : FeatureBits ctx.features)
    (hop : ctx.address (contextPrefixes ctx).length = op)
    (hvec : vectorEncoding op = some (enc, n)) :
    Disambiguated ctx s enc n ↔
      if (contextPrefixes ctx).length + n ≤ (contextBuffer ctx).nb then
        TestsAgree op (ctx.address ((contextPrefixes ctx).length + 1))
          (ctx.address ((contextPrefixes ctx).length + 2))
      else bits (ctx.address ((contextPrefixes ctx).length + 1)) 6 2 ≠ 3 := by
  have hlong : longModeOf ctx.machineMode ctx.features = false := by
    rw [hfeat.longModeOf]
    rcases hmode with hm | hm <;> rw [hm] <;> rfl
  have hpeek : (contextBuffer ctx).peekByte (contextPrefixes ctx).length = some op := by
    obtain ⟨hsum, -, hle⟩ := (accepted_opened h).pc_bounds rfl
    refine peekByte_eq_some.mpr ⟨?_, hop.symm⟩
    rw [hsum] at hle
    simp only [openingWidths, List.sum_append, List.sum_replicate_nat, List.sum_cons,
      List.sum_nil] at hle
    rw [contextPrefixes]
    change (prefixCount _ _) + 1 ≤ _
    omega
  rw [disambiguated_iff_width h hlong hfeat hpeek hvec]
  split
  · rename_i hin
    exact testsAgree_iff hpeek hvec hin
  · rename_i hout
    rw [vectorWidth_of_short false hpeek hvec (by omega)]
    simp

end Outside

open Excerpt in
/-- `LDS` with the ModRM byte 44, which has bit 7 clear. -/
theorem disambiguated_lds :
    ∃ s, accepted tables (contextOf .mode32 [0xc5, 0x44, 0x24, 0x10] 4) default default = some s ∧
      Disambiguated (contextOf .mode32 [0xc5, 0x44, 0x24, 0x10] 4) s encodingVex 2 := by
  have h : (accepted tables (contextOf .mode32 [0xc5, 0x44, 0x24, 0x10] 4) default default).isSome :=
    by decide
  refine ⟨_, (Option.some_get h).symm, ?_⟩
  exact (disambiguated_iff (Option.some_get h).symm (Or.inr rfl) (by decide) rfl
    (by decide : vectorEncoding 0xc5 = some (encodingVex, 2))).mpr (by decide)

open Excerpt in
/-- `LDS` with the ModRM byte 84 is taken for a VEX2 prefix. -/
theorem not_disambiguated_lds :
    ¬∀ (db : Db) (ctx : Context) (stale s : Internal) (insn : Insn),
      accepted db ctx stale insn = some s → ctx.machineMode = .mode32 → FeatureBits ctx.features →
        ctx.address (contextPrefixes ctx).length = 0xc5 →
          ((contextPrefixes ctx).length + 2 : Int) ≤ ctx.length →
            Disambiguated ctx s encodingVex 2 := by
  have hacc : (accepted tables (contextOf .mode32 [0xc5, 0x84, 0x24, 0x10] 4) default
    default).isSome := by decide
  have henc : ((accepted tables (contextOf .mode32 [0xc5, 0x84, 0x24, 0x10] 4) default default).get
      hacc).diagram.enc = encodingVex := by decide +revert
  intro h
  have hlegacy := (h tables (contextOf .mode32 [0xc5, 0x84, 0x24, 0x10] 4) default _ default
    (Option.some_get hacc).symm rfl (by decide) rfl (by decide)).legacy (by decide)
  exact absurd (henc.symm.trans hlegacy.enc) (by decide)

end Amed.X86

import Amed.X86.SibOperand

/-!
# Compressed displacements

The factor the architecture gives an 8-bit displacement behind an EVEX prefix, and when the memory
argument has the displacement with that factor.

## Implementation notes

`get_evex_disp8_n` takes the broadcast of a half vector from B, the register extension, where it
takes that of a full vector from the broadcast bit. The displacement is scaled as it is read; where
it is read twice, by `decode_sib` and by `decode_modrm`, the second one stays.
-/

namespace Amed.X86

open Bytes

/-! ## The displacement of the architecture -/

/-- The length of a vector in bytes. -/
def vectorBytes (vl : Nat) : Nat := 16 * 2 ^ vl

/-- The factor of a tuple type. -/
def Tuple.disp8N (w broadcast : Bool) (vl : Nat) : Tuple → Nat
  | .fv => if broadcast then (if w then 8 else 4) else vectorBytes vl
  | .hv => if broadcast then 4 else vectorBytes vl / 2
  | .t1s8 => 1
  | .t1s16 => 2
  | .t1s => if w then 8 else 4
  | .t1f32 => 4
  | .t1f64 => 8
  | .t2 => if w then 16 else 8
  | .t4 => if w then 32 else 16
  | .t8 => 32
  | .fvm => vectorBytes vl
  | .hvm => vectorBytes vl / 2
  | .qvm => vectorBytes vl / 4
  | .ovm => vectorBytes vl / 8
  | .m128 => 16
  | .dup => if vl = 0 then 8 else vectorBytes vl
  | .none => 1

section Fields

variable (db : Db) (buf : Buffer) (s : Internal)

/-- The width of the displacement behind a ModRM byte at the counter. -/
def dispWidth : Nat :=
  manualDispWidth s.diagram.mod s.diagram.rm (bits (buf.address (s.pc + 1)) 0 3)

/-- Where it lies, behind the SIB byte if there is one. -/
def dispPosition : Nat := s.pc + 1 + sibLength s.diagram.mod s.diagram.rm

/-- The displacement of the instruction. -/
def rawDisp : Int := dispAt buf (dispPosition s) (dispWidth buf s)

/-- The factor of a displacement of a width. -/
def dispFactor (width : Nat) (broadcast : Bool) : Nat :=
  if width = 1 then
    (db.templates s.ptemplate).tuple.disp8N s.diagram.w broadcast s.diagram.vl
  else 1

/-- The bit that the code takes for the broadcast bit. -/
def codeBroadcast : Bool :=
  if (db.templates s.ptemplate).tuple = .hv then s.diagram.b else s.diagram.bp

/-- An EVEX instruction with a displacement, which lies inside the buffer. -/
structure EvexDisplaced : Prop where
  evex : s.diagram.enc = encodingEvex
  modrm : (db.encodings s.encoding).hasModrm = true
  present : dispWidth buf s ≠ 0
  inside : (decodeModrm db buf s).1 = true

/-- The displacement is scaled as the architecture has it. An 8-bit displacement is, unless it is
that of a half vector where B differs from the broadcast bit; a displacement that is read twice is
where the second one happens to give the same. -/
def ScaledByTuple : Prop :=
  if ReadsDispTwice s.diagram.mod s.diagram.rm (bits (buf.address (s.pc + 1)) 0 3) then
    dispAt buf (dispPosition s + dispWidth buf s) (dispWidth buf s) *
        dispFactor db s (dispWidth buf s) (codeBroadcast db s) =
      rawDisp buf s * dispFactor db s (dispWidth buf s) s.diagram.bp
  else
    dispWidth buf s = 1 → rawDisp buf s = 0 ∨ (db.templates s.ptemplate).tuple ≠ .hv ∨
      s.diagram.b = s.diagram.bp

end Fields

/-! ## The factor of the code -/

theorem vectorBytes_cases {vl : Nat} (h : vl ≤ 2) :
    (vl = 0 ∧ vectorBytes vl = 16) ∨ (vl = 1 ∧ vectorBytes vl = 32) ∨
      (vl = 2 ∧ vectorBytes vl = 64) := by
  obtain rfl | rfl | rfl : vl = 0 ∨ vl = 1 ∨ vl = 2 := by omega
  all_goals decide

/-- The code's factor is that of the architecture for the bit it takes for the broadcast bit. -/
theorem getEvexDisp8N_eq {d : Diagram} (h : d.vl ≤ 2) (tuple : Tuple) :
    getEvexDisp8N tuple d = tuple.disp8N d.w (if tuple = .hv then d.b else d.bp) d.vl := by
  unfold getEvexDisp8N Tuple.disp8N vectorBytes
  obtain hvl | hvl | hvl : d.vl = 0 ∨ d.vl = 1 ∨ d.vl = 2 := by omega
  all_goals rw [hvl]; cases tuple <;> rfl

/-- The two factors of a half vector differ. -/
theorem disp8N_eq_iff {vl : Nat} (h : vl ≤ 2) (tuple : Tuple) (w b bp : Bool) :
    tuple.disp8N w (if tuple = .hv then b else bp) vl = tuple.disp8N w bp vl ↔
      tuple ≠ .hv ∨ b = bp := by
  by_cases htuple : tuple = .hv
  · subst htuple
    have hvec := vectorBytes_cases h
    rw [if_pos rfl]
    simp only [Tuple.disp8N, ne_eq, not_true, false_or]
    cases b <;> cases bp <;> simp only [if_true, Bool.false_eq_true, if_false, reduceCtorEq,
      iff_false] <;> omega
  · rw [if_neg htuple]
    exact iff_of_true rfl (.inl htuple)

theorem disp8N_bounds {vl : Nat} (h : vl ≤ 2) (tuple : Tuple) (w broadcast : Bool) :
    0 < tuple.disp8N w broadcast vl ∧ tuple.disp8N w broadcast vl ≤ 64 := by
  obtain rfl | rfl | rfl : vl = 0 ∨ vl = 1 ∨ vl = 2 := by omega
  all_goals cases tuple <;> cases w <;> cases broadcast <;> decide

/-! ## The map of a vector prefix -/

variable {s s' : Internal} {buf : Buffer} {db : Db}

/-- The 3DNow map is no map of a vector prefix. -/
theorem scanPrefixes_map (buf : Buffer) (df : DefaultSizes) (hmap : s.mapidx = 0)
    (henc : s.diagram.enc = encodingNone) (h : (scanPrefixes buf df s).mapidx = mapIdx0F0F) :
    (scanPrefixes buf df s).diagram.enc = encodingNone := by
  have hfold := foldl_applyPrefix_mapidx df (prefixBytes buf s.diagram.longMode s.pc) s
  have hfenc := foldl_applyPrefix_enc df (prefixBytes buf s.diagram.longMode s.pc) s
  rw [scanPrefixes_eq, leaveLoop] at h ⊢
  generalize (prefixBytes buf s.diagram.longMode s.pc).foldl (applyPrefix df) s = u at h hfold hfenc ⊢
  cases hop : buf.peekByte u.pc with
  | none =>
      rw [hop] at h
      exact absurd (h.symm.trans (hfold.trans hmap)) (by decide)
  | some op =>
      rw [hop] at h
      have hnow := ((decodeEscape_scanned hop).threeDNow (hfold.trans hmap)).mp h
      obtain rfl : op = 0x0f := Option.some.inj (hop.symm.trans hnow.1)
      change (decodeMap buf u).diagram.enc = encodingNone
      unfold decodeMap
      dsimp only
      split <;> exact hfenc.trans henc

/-- The encoding and the map of an accepted instruction. -/
theorem accepted_map {ctx : Context} {stale : Internal} {insn : Insn}
    (h : accepted db ctx stale insn = some s) (hfeat : FeatureBits ctx.features)
    (henc : s.diagram.enc ≠ encodingNone) : s.mapidx ≠ mapIdx0F0F := by
  obtain ⟨df, s₂, hdf, hf, rfl⟩ := accepted_fetched h
  obtain ⟨-, hnone⟩ := setMode_opening hfeat hdf (startState stale insn)
  have hcarried := (selectTemplate_carried db s₂).trans
    (hf ▸ fetchOpcode_carried db (contextBuffer ctx) _)
  intro hmap
  apply henc
  have hsame : (selectTemplate db s₂).diagram.prefixed.enc = _ :=
    congrArg (fun c : Carried => c.diagram.enc) hcarried
  refine hsame.trans (scanPrefixes_map (contextBuffer ctx) df rfl hnone ?_)
  exact (congrArg Carried.mapidx hcarried).symm.trans hmap

/-! ## The displacement of the code -/

/-- The ModRM byte of an encoding with a displacement is read where the opcode ends. -/
theorem decodeRealModrm_of_displaced {ctx : Context} {stale : Internal} {insn : Insn}
    (h : accepted db ctx stale insn = some s) (hfeat : FeatureBits ctx.features)
    (hd : EvexDisplaced db (contextBuffer ctx) s) :
    decodeRealModrm db (contextBuffer ctx) s = (decodeModrm db (contextBuffer ctx) s).2 ∧
      s.pc + 1 ≤ (contextBuffer ctx).nb ∧ s.diagram.mod < 4 ∧
      s.diagram.modrmByte = (contextBuffer ctx).address s.pc := by
  have hmap : s.mapidx ≠ mapIdx0F0F :=
    accepted_map h hfeat (by rw [hd.evex]; decide)
  obtain ⟨hmod, hrm, hbyte⟩ := (accepted_opened h).modrm hmap
  have hwidth := hd.present
  refine ⟨by rw [decodeRealModrm, if_pos hd.modrm, if_neg hmap], ?_, ?_, ?_⟩
  · by_contra hout
    rw [peekByte_eq_none.mpr (by omega)] at hmod hrm
    rw [dispWidth, hmod, hrm] at hwidth
    exact hwidth rfl
  · rw [hmod]
    exact bits_lt _ 6 2
  · cases hpeek : (contextBuffer ctx).peekByte s.pc with
    | none =>
        rw [hpeek] at hmod hrm
        rw [dispWidth, hmod, hrm] at hwidth
        exact absurd rfl hwidth
    | some m =>
        rw [hpeek] at hbyte
        exact hbyte.trans (peekByte_eq_some.mp hpeek).2

/-- Where the displacement is read twice, the second one lies behind the first. -/
theorem modrmDisp_twice (db : Db) (buf : Buffer) (s : Internal) (pc : Nat) {mod rm base : Nat}
    (h : ReadsDispTwice mod rm base) :
    modrmDisp db buf s pc mod rm base =
      dispAt buf (pc + 1 + sibLength mod rm + manualDispWidth mod rm base)
          (manualDispWidth mod rm base) * dispScale db s (manualDispWidth mod rm base) := by
  obtain ⟨rfl | rfl, rfl, rfl⟩ := h
  · rfl
  · rfl

theorem manualDispWidth_cases (mod rm base : Nat) :
    manualDispWidth mod rm base = 0 ∨ manualDispWidth mod rm base = 1 ∨
      manualDispWidth mod rm base = 4 := by
  unfold manualDispWidth
  split
  · split
    · exact .inr (.inr rfl)
    · exact .inl rfl
  · exact .inr (.inl rfl)
  · exact .inr (.inr rfl)
  · exact .inl rfl

/-- The factor the code scales with. -/
theorem dispScale_eq (hd : s.diagram.enc = encodingEvex) (hvl : s.diagram.vl ≤ 2) (width : Nat) :
    dispScale db s width = dispFactor db s width (codeBroadcast db s) := by
  unfold dispScale dispFactor codeBroadcast
  by_cases h : width = 1
  · rw [if_pos ⟨h, hd⟩, if_pos h, getEvexDisp8N_eq hvl]
  · rw [if_neg fun hp => h hp.1, if_neg h]
    rfl

theorem dispAt_bounds (buf : Buffer) (pc : Nat) {n : Nat} (h : n = 1 ∨ n = 4) :
    -2 ^ 31 ≤ dispAt buf pc n ∧ dispAt buf pc n < 2 ^ 31 := by
  have hlt := leNat_lt (slice buf.address pc n)
  rw [slice_length, show 256 ^ n = 2 ^ (8 * n) by rw [Nat.pow_mul]] at hlt
  have hbounds := toSigned_bounds (by omega : 0 < 8 * n) hlt
  unfold dispAt
  rcases h with rfl | rfl
  · norm_num at hbounds ⊢
    omega
  · exact hbounds

theorem dispFactor_bounds (hvl : s.diagram.vl ≤ 2) (width : Nat) (broadcast : Bool) :
    0 < dispFactor db s width broadcast ∧ dispFactor db s width broadcast ≤ 64 := by
  unfold dispFactor
  split
  · exact disp8N_bounds hvl _ _ _
  · decide

/-- A scaled displacement fits its cell. -/
theorem scaled_fits {d : Int} {n : Nat} (hd : -2 ^ 31 ≤ d ∧ d < 2 ^ 31) (hn : n ≤ 64) :
    toSigned 64 (fromSigned 64 (d * n)) = d * n := by
  have hn₀ : (0 : Int) ≤ n := Int.natCast_nonneg n
  have hn₆₄ : (n : Int) ≤ 64 := by exact_mod_cast hn
  have hlow : -2 ^ 31 * 64 ≤ d * n := by
    calc (-2 ^ 31 * 64 : Int) ≤ -2 ^ 31 * n :=
          Int.mul_le_mul_of_nonpos_left (by decide) hn₆₄
      _ ≤ d * n := Int.mul_le_mul_of_nonneg_right hd.1 hn₀
  have hhigh : d * n ≤ 2 ^ 31 * 64 := by
    calc d * n ≤ 2 ^ 31 * n := Int.mul_le_mul_of_nonneg_right (Int.le_of_lt hd.2) hn₀
      _ ≤ 2 ^ 31 * 64 := Int.mul_le_mul_of_nonneg_left hn₆₄ (by decide)
  apply toSigned_fromSigned (by decide)
  · norm_num at hlow ⊢
    omega
  · norm_num at hhigh ⊢
    omega

/-- The displacement `decode_modrm` leaves behind. -/
theorem decodeRealModrm_disp {ctx : Context} {stale : Internal} {insn : Insn}
    (h : accepted db ctx stale insn = some s) (hfeat : FeatureBits ctx.features)
    (hd : EvexDisplaced db (contextBuffer ctx) s) :
    (decodeRealModrm db (contextBuffer ctx) s).diagram.disp =
      (if ReadsDispTwice s.diagram.mod s.diagram.rm
          (bits ((contextBuffer ctx).address (s.pc + 1)) 0 3) then
        dispAt (contextBuffer ctx) (dispPosition s + dispWidth (contextBuffer ctx) s)
          (dispWidth (contextBuffer ctx) s)
      else rawDisp (contextBuffer ctx) s) *
        dispFactor db s (dispWidth (contextBuffer ctx) s) (codeBroadcast db s) := by
  obtain ⟨hreal, hin, hmod, hbyte⟩ := decodeRealModrm_of_displaced h hfeat hd
  have hvl := (accepted_ranged h hfeat).1.length hd.evex
  have hspec := (decodeModrm_spec db (contextBuffer ctx) s hin hbyte).2 hd.inside
  rw [hreal, hspec, ← dispScale_eq hd.evex hvl]
  split
  · rename_i htwice
    exact modrmDisp_twice db (contextBuffer ctx) s s.pc htwice
  · rename_i honce
    rw [modrmDisp_eq db (contextBuffer ctx) s s.pc hmod _ _ honce]
    exact if_neg hd.present

/-- The displacement of the architecture is left behind exactly where it is scaled by the tuple. -/
theorem scaledByTuple_iff (hvl : s.diagram.vl ≤ 2) :
    (if ReadsDispTwice s.diagram.mod s.diagram.rm (bits (buf.address (s.pc + 1)) 0 3) then
        dispAt buf (dispPosition s + dispWidth buf s) (dispWidth buf s)
      else rawDisp buf s) * (dispFactor db s (dispWidth buf s) (codeBroadcast db s) : Int) =
        rawDisp buf s * dispFactor db s (dispWidth buf s) s.diagram.bp ↔
      ScaledByTuple db buf s := by
  unfold ScaledByTuple
  split
  · exact Iff.rfl
  · by_cases hwidth : dispWidth buf s = 1
    · rw [hwidth]
      simp only [dispFactor, if_true, true_imp_iff, codeBroadcast]
      rw [← disp8N_eq_iff hvl (db.templates s.ptemplate).tuple s.diagram.w s.diagram.b s.diagram.bp]
      by_cases hzero : rawDisp buf s = 0
      · simp [hzero]
      · rw [or_iff_right hzero, Int.mul_eq_mul_left_iff hzero]
        exact Int.natCast_inj
    · refine iff_of_true ?_ fun hone => absurd hone hwidth
      unfold dispFactor
      rw [if_neg hwidth, if_neg hwidth]

theorem decodeArgMem_disp (db : Db) (buf : Buffer) (s : Internal) (i : Nat) {node : DbMem}
    (hnode : node.hasEncodedin = true) :
    (decodeArgMem db buf s i node).2.cellAt i Cell.memImmoffValue =
      fromSigned 64 s.diagram.disp := by
  have hlt : fromSigned 64 s.diagram.disp < 256 ^ 8 := by
    unfold fromSigned
    omega
  unfold decodeArgMem decodeModrmMem Internal.cellAt
  simp only [hnode, if_true, Internal.modifyArgument, Insn.setArgument_same]
  cases s.diagram.hasSib <;> simp (disch := decide) only [Argument.get, Argument.put,
    Store.read_write_apart, Store.read_write_self] <;> exact Nat.mod_eq_of_lt hlt

/-! ## Every accepted instruction -/

/-- The displacement in the memory argument, as `amed_x86_decode_insn` leaves it, is that of the
instruction with the factor of the architecture exactly where it is scaled by the tuple. A template
for EVEX has no swizzle node. -/
theorem compressedDisp_iff {ctx : Context} {stale t : Internal} {insn : Insn} {node : DbNode}
    {m : DbMem} {rest : List DbNode} {j : Nat} (h : accepted db ctx stale insn = some s)
    (hfeat : FeatureBits ctx.features) (hd : EvexDisplaced db (contextBuffer ctx) s)
    (hvisit : Visits db (contextBuffer ctx)
      (db.arguments (db.templates (decodeRealModrm db (contextBuffer ctx) s).ptemplate).arguments) 0
      (beginTemplate db (decodeRealModrm db (contextBuffer ctx) s)) node rest j t)
    (hnode : node.memory = some m) (hm : m.hasEncodedin = true)
    (hswz : ∀ swz, DbNode.swz swz ∉ rest) :
    toSigned 64 (((decodeInsn db ctx stale insn).2.arguments j).get Cell.memImmoffValue) =
        rawDisp (contextBuffer ctx) s *
          dispFactor db s (dispWidth (contextBuffer ctx) s) s.diagram.bp ↔
      ScaledByTuple db (contextBuffer ctx) s := by
  have hvl := (accepted_ranged h hfeat).1.length hd.evex
  have hapart : ∀ node ∈ rest, ∀ d ∈ node.decorates, Cell.memImmoffValue.Apart d := by
    intro node hrest
    cases node with
    | swz swz => exact absurd hrest (hswz swz)
    | _ =>
        simp only [DbNode.decorates]
        decide
  obtain ⟨u, hu, hcell⟩ := decodeNode_memory hnode db (contextBuffer ctx) t j
  have houtline : u.outline = (beginTemplate db (decodeRealModrm db (contextBuffer ctx) s)).outline :=
    hu.trans hvisit.outline
  have hsame : u.diagram.disp = (decodeRealModrm db (contextBuffer ctx) s).diagram.disp :=
    (congrArg (fun v : Internal => v.diagram.disp) houtline :)
  rw [decodeInsn_cellAt h hvisit (memory_takesSlot hnode) hapart, hcell,
    decodeArgMem_disp db (contextBuffer ctx) u j hm, hsame, decodeRealModrm_disp h hfeat hd,
    scaled_fits ?_ (dispFactor_bounds hvl _ _).2]
  · exact scaledByTuple_iff hvl
  · have hwidth : dispWidth (contextBuffer ctx) s = 1 ∨ dispWidth (contextBuffer ctx) s = 4 := by
      have hpresent := hd.present
      rcases manualDispWidth_cases s.diagram.mod s.diagram.rm
        (bits ((contextBuffer ctx).address (s.pc + 1)) 0 3) with hw | hw
      · exact absurd hw hpresent
      · exact hw
    split <;> exact dispAt_bounds _ _ hwidth

/-! ## `VMOVSS [RAX+4], XMM0` and `VCVTPS2PD XMM0, [RAX+4]{1to2}` -/

namespace Excerpt

/-- The bytes 62 F1 7E 08 11 40 01 in 64-bit mode. -/
def evexContext : Context := contextOf .mode64 [0x62, 0xf1, 0x7e, 0x08, 0x11, 0x40, 0x01] 7

theorem evex_isSome : (accepted movssTables evexContext default default).isSome := by decide

/-- The arguments of `VCVTPS2PD` with a memory source. -/
def vcvtDestination : DbNode :=
  .vreg { symbol := .xmmreg, write := true, hasEncodedin := true, value := 6 }

def vcvtMask : DbNode :=
  .preg { symbol := .maskreg, read := true, zeroing := true, hasEncodedin := true, value := 8 }

def vcvtMemory : DbMem :=
  { datatype := .f32, symbol := .other, size := 64, read := true, hasEncodedin := true }

/-- The entry of `VCVTPS2PD` for EVEX and 128 bits with a memory source (0F 5A). -/
def vcvtTables : Db where
  lookup index hashcode :=
    if index = 0x15a && !hashcode.getLsbD 0 && hashcode.getLsbD 17 && !hashcode.getLsbD 16 then
      1301 * 2 ^ 16 + 2311
    else 0
  encodings
    | 1301 => { isa := 24, page := 332, categories := [71, 16, 0, 0], exceptions := [12, 0, 0, 0]
                extension := 7, hasModrm := true }
    | _ => {}
  templates
    | 2311 => { iform := 1450, bitdiffs := 3, arguments := 3262, tuple := .hv }
    | _ => {}
  arguments
    | 3262 => [vcvtDestination, vcvtMask, .mem vcvtMemory, .bcst]
    | _ => []
  widths := widths
  reginfoSize register := if Register.xmm0 ≤ register && register < Register.ymm0 then 128 else 64
  iform2mnem
    | 1450 => 746
    | _ => 0
  bitdiffs := bitdiffs
  iflags _ := []

/-- The bytes 62 F1 7C 18 5A 40 01 in 64-bit mode: a broadcast without B. -/
def vcvtContext : Context := contextOf .mode64 [0x62, 0xf1, 0x7c, 0x18, 0x5a, 0x40, 0x01] 7

theorem vcvt_isSome : (accepted vcvtTables vcvtContext default default).isSome := by decide

/-- The state in which the template is selected, with its ModRM byte read. -/
def vcvtModrm : Internal :=
  decodeRealModrm vcvtTables (contextBuffer vcvtContext)
    ((accepted vcvtTables vcvtContext default default).get vcvt_isSome)

theorem vcvt_visits :
    ∃ t : Internal, Visits vcvtTables (contextBuffer vcvtContext)
      (vcvtTables.arguments (vcvtTables.templates vcvtModrm.ptemplate).arguments) 0
      (beginTemplate vcvtTables vcvtModrm) (.mem vcvtMemory) [.bcst] 2 t := by
  have hnodes : vcvtTables.arguments (vcvtTables.templates vcvtModrm.ptemplate).arguments =
      [vcvtDestination, vcvtMask, .mem vcvtMemory, .bcst] := by
    rw [show (vcvtTables.templates vcvtModrm.ptemplate).arguments = 3262 by decide]
    rfl
  rw [hnodes]
  exact ⟨_, .next (k := 1) (by decide) (by decide) (.next (k := 2) (by decide) (by decide)
    (.here _ _ _ _))⟩

end Excerpt

open Excerpt in
/-- The scalar displacement 1 is 4 bytes. -/
theorem compressedDisp_vmovss :
    toSigned 64 (((decodeInsn movssTables evexContext default default).2.arguments 0).get
        Cell.memImmoffValue) =
      rawDisp (contextBuffer evexContext)
          ((accepted movssTables evexContext default default).get evex_isSome) *
        dispFactor movssTables ((accepted movssTables evexContext default default).get evex_isSome)
          (dispWidth (contextBuffer evexContext)
            ((accepted movssTables evexContext default default).get evex_isSome))
          ((accepted movssTables evexContext default default).get evex_isSome).diagram.bp :=
  (compressedDisp_iff (Option.some_get evex_isSome).symm (by decide)
    ⟨by decide, by decide, by decide, by decide⟩
    (by
      rw [show (movssTables.templates (decodeRealModrm movssTables (contextBuffer evexContext)
        ((accepted movssTables evexContext default default).get evex_isSome)).ptemplate).arguments =
          4080 by decide]
      exact .here (.mem movssMemory) _ 0 _) rfl rfl
    (by
      intro swz hmem
      simp only [List.mem_cons, List.not_mem_nil, reduceCtorEq, or_self] at hmem)).mpr
    (by
      rw [ScaledByTuple, if_neg (by decide)]
      exact fun _ => .inr (.inl (by decide)))

open Excerpt in
/-- The half vector displacement 1 with a broadcast is 8 bytes, not 4. -/
theorem not_compressedDisp_vcvtps2pd :
    ¬∀ (db : Db) (ctx : Context) (stale s t : Internal) (insn : Insn) (node : DbNode) (m : DbMem)
      (rest : List DbNode) (j : Nat), accepted db ctx stale insn = some s →
      FeatureBits ctx.features → EvexDisplaced db (contextBuffer ctx) s →
      Visits db (contextBuffer ctx)
        (db.arguments
          (db.templates (decodeRealModrm db (contextBuffer ctx) s).ptemplate).arguments) 0
        (beginTemplate db (decodeRealModrm db (contextBuffer ctx) s)) node rest j t →
      node.memory = some m → m.hasEncodedin = true → (∀ swz, DbNode.swz swz ∉ rest) →
      toSigned 64 (((decodeInsn db ctx stale insn).2.arguments j).get Cell.memImmoffValue) =
        rawDisp (contextBuffer ctx) s *
          dispFactor db s (dispWidth (contextBuffer ctx) s) s.diagram.bp := by
  intro h
  obtain ⟨t, hvisit⟩ := vcvt_visits
  have hscaled := h vcvtTables vcvtContext default _ t default _ _ _ _
    (Option.some_get vcvt_isSome).symm (by decide) ⟨by decide, by decide, by decide, by decide⟩
    hvisit rfl rfl (by
      intro swz hmem
      simp only [List.mem_cons, List.not_mem_nil, reduceCtorEq, or_self] at hmem)
  exact absurd hscaled (by decide)

end Amed.X86

import Amed.X86.Disambiguation
import Amed.X86.Frame
import Amed.X86.Truncation

/-!
# Illegal prefixes before a vector prefix

`decode_entry` counts the prefixes that must not stand before VEX, XOP, EVEX and MVEX and looks
at the count once the vector prefix has been taken.

## Implementation notes

The count has 8 bits. It does not wrap, as the prefixes it counts lie inside a buffer of at most
255 bytes.
-/

namespace Amed.X86

open Bytes

/-- REX, 66, LOCK, F2 and F3. A REX byte is a prefix in long mode only. -/
def isIllegalPrefix (op : UInt8) : Bool :=
  isRexByte op || op = 0x66 || op = 0xf0 || op = 0xf2 || op = 0xf3

/-! ## The count of the prefix run -/

theorem prefixEffect_vfpc (df : DefaultSizes) (s : Internal) (op : UInt8) :
    (prefixEffect df s op).vfpc = if isIllegalPrefix op then (s.vfpc + 1) % 256 else s.vfpc := by
  unfold prefixEffect isIllegalPrefix
  cases hrex : isRexByte op with
  | true => rfl
  | false =>
      simp only [Bool.false_eq_true, if_false, Bool.false_or]
      have hval : ∀ v : UInt8, op = v ↔ op.toNat = v.toNat := fun v => UInt8.toNat_inj.symm
      split <;> rename_i hop <;> simp [hval, hop, segmentEffect]
      simp_all

theorem applyPrefix_vfpc (df : DefaultSizes) (s : Internal) (op : UInt8) :
    (applyPrefix df s op).vfpc = if isIllegalPrefix op then (s.vfpc + 1) % 256 else s.vfpc :=
  prefixEffect_vfpc df s op

theorem foldl_applyPrefix_vfpc (df : DefaultSizes) (ps : List UInt8) {s : Internal}
    (h : s.vfpc < 256) :
    (ps.foldl (applyPrefix df) s).vfpc = (s.vfpc + ps.countP isIllegalPrefix) % 256 := by
  induction ps generalizing s with
  | nil => exact (Nat.mod_eq_of_lt h).symm
  | cons op ps ih =>
      have hstep := applyPrefix_vfpc df s op
      rw [List.foldl_cons, List.countP_cons]
      cases hop : isIllegalPrefix op with
      | true =>
          rw [hop, if_pos rfl] at hstep
          rw [ih (by omega), hstep, if_pos rfl]
          omega
      | false =>
          rw [hop, if_neg Bool.false_ne_true] at hstep
          rw [ih (by omega), hstep, if_neg Bool.false_ne_true, Nat.add_zero]

theorem applyPrefix_enc (df : DefaultSizes) (s : Internal) (op : UInt8) :
    (applyPrefix df s op).diagram.enc = s.diagram.enc := by
  change (prefixEffect df s op).diagram.enc = _
  unfold prefixEffect
  split
  · rfl
  · split <;> rfl

theorem foldl_applyPrefix_enc (df : DefaultSizes) (ps : List UInt8) (s : Internal) :
    (ps.foldl (applyPrefix df) s).diagram.enc = s.diagram.enc := by
  induction ps generalizing s with
  | nil => rfl
  | cons op ps ih => rw [List.foldl_cons, ih, applyPrefix_enc]

/-! ## The vector prefix -/

/-- A vector prefix that is taken sets its encoding and leaves the count alone. -/
structure SetsEncoding (s s' : Internal) : Prop where
  enc : s'.diagram.enc ≠ encodingNone
  vfpc : s'.vfpc = s.vfpc

theorem takeBytes_vfpc {buf : Buffer} {s s' : Internal} {type : BytecodeType} {n : Nat}
    {bs : List UInt8} (h : s.takeBytes buf type n = some (bs, s')) : s'.vfpc = s.vfpc :=
  congrArg Carried.vfpc (takeBytes_carried h)

theorem decodeVex2_sets {buf : Buffer} {s s' : Internal} (h : decodeVex2 buf s = some s') :
    SetsEncoding s s' := by
  refine ⟨by rw [decodeVex2_enc h]; decide, ?_⟩
  unfold decodeVex2 at h
  split at h
  · rename_i htake
    split at h
    · cases h
    · cases h
      exact (takeBytes_vfpc htake :)
  · cases h

theorem decodeVex3_sets {buf : Buffer} {s s' : Internal} (h : decodeVex3 buf s = some s') :
    SetsEncoding s s' := by
  refine ⟨by rw [decodeVex3_enc h]; decide, ?_⟩
  unfold decodeVex3 at h
  split at h
  · rename_i htake
    split at h
    · cases h
    · split at h
      · cases h
      · cases h
        exact (takeBytes_vfpc htake :)
  · cases h

theorem decodeXop_sets {buf : Buffer} {s s' : Internal} (h : decodeXop buf s = some s') :
    SetsEncoding s s' := by
  unfold decodeXop at h
  split at h
  · rename_i htake
    split at h
    · cases h
    · split at h
      · cases h
      · cases h
        refine ⟨?_, (takeBytes_vfpc htake :)⟩
        unfold Diagram.setLlField
        split <;> exact Nat.noConfusion
  · cases h

theorem decodeMevex_sets {buf : Buffer} {s s' : Internal} (h : decodeMevex buf s = some s') :
    SetsEncoding s s' := by
  unfold decodeMevex at h
  split at h
  · split at h
    · split at h
      · unfold decodeMvex at h
        split at h
        · cases h
        · cases h
          exact ⟨Nat.noConfusion, rfl⟩
      · cases h
    · unfold decodeEvex at h
      split at h
      · cases h
      · split at h
        · cases h
        · cases h
          exact ⟨Nat.noConfusion, rfl⟩
  · cases h

theorem decodeMap_carries (buf : Buffer) (s : Internal) :
    (decodeMap buf s).diagram.enc = s.diagram.enc ∧ (decodeMap buf s).vfpc = s.vfpc := by
  unfold decodeMap
  dsimp only
  split <;> exact ⟨rfl, rfl⟩

/-- The escape leaves the count alone, and where it is no map and moves, it sets the encoding. -/
theorem decodeEscape_sets (buf : Buffer) (s : Internal) (op : UInt8) :
    decodeEscape buf s op = s ∨ op = 0x0f ∨ SetsEncoding s (decodeEscape buf s op) := by
  have hattempt : ∀ {o : Option Internal}, (∀ s', o = some s' → SetsEncoding s s') →
      o.getD s = s ∨ op = 0x0f ∨ SetsEncoding s (o.getD s) := by
    intro o hsets
    cases o with
    | none => exact .inl rfl
    | some s' => exact .inr (.inr (hsets s' rfl))
  unfold decodeEscape
  split
  · rename_i hop
    exact .inr (.inl (UInt8.toNat_inj.mp hop))
  · exact hattempt fun _ => decodeXop_sets
  · exact hattempt fun _ => decodeMevex_sets
  · exact hattempt fun _ => decodeVex3_sets
  · exact hattempt fun _ => decodeVex2_sets
  · exact .inl rfl

theorem prefixBytes_length_le (buf : Buffer) (lm : Bool) (pos : Nat) :
    (prefixBytes buf lm pos).length ≤ buf.nb - pos := by
  calc (prefixBytes buf lm pos).length
      ≤ (slice buf.address pos (buf.nb - pos)).length :=
        (List.takeWhile_prefix _).length_le
    _ = buf.nb - pos := slice_length _ _ _

/-- The count and the encoding behind the prefixes and the escape. -/
theorem scanPrefixes_count (buf : Buffer) (df : DefaultSizes) {s : Internal} (h : s.vfpc < 256) :
    let ps := prefixBytes buf s.diagram.longMode s.pc
    (scanPrefixes buf df s).vfpc = (s.vfpc + ps.countP isIllegalPrefix) % 256 ∧
      (vectorWidth buf s.diagram.longMode (s.pc + ps.length) = 0 →
        (scanPrefixes buf df s).diagram.enc = s.diagram.enc) ∧
      (vectorWidth buf s.diagram.longMode (s.pc + ps.length) ≠ 0 →
        (scanPrefixes buf df s).diagram.enc ≠ encodingNone) := by
  intro ps
  have hcount := foldl_applyPrefix_vfpc df ps h
  have henc := foldl_applyPrefix_enc df ps s
  cases hop : buf.peekByte (s.pc + ps.length) with
  | none =>
      have hscan : scanPrefixes buf df s = ps.foldl (applyPrefix df) s := by
        rw [scanPrefixes_eq, leaveLoop, foldl_prefixBytes_pc, hop]
      have hwidth : vectorWidth buf s.diagram.longMode (s.pc + ps.length) = 0 := by
        unfold vectorWidth
        rw [hop]
        rfl
      rw [hscan]
      exact ⟨hcount, fun _ => henc, fun hw => absurd hwidth hw⟩
  | some op =>
      obtain ⟨hscan, hpc, hlong, -⟩ := scanPrefixes_escape df hop
      change scanPrefixes buf df s = decodeEscape buf (ps.foldl (applyPrefix df) s) op at hscan
      change (ps.foldl (applyPrefix df) s).pc = s.pc + ps.length at hpc
      rw [← hpc] at hop ⊢
      have hcases := decodeEscape_cases hop
      rw [hlong] at hcases
      have hin := (peekByte_eq_some.mp hop).1
      rw [hscan, ← hcount, ← henc]
      rcases hcases with ⟨-, hwidth, hsame⟩ | ⟨hne, hwidth, htakes⟩ | ⟨rfl, -⟩
      · rw [hsame]
        exact ⟨rfl, fun _ => rfl, fun hw => absurd hwidth hw⟩
      · obtain ⟨f, -, hlen, hconsumes⟩ := htakes.field
        have hmoved : decodeEscape buf (ps.foldl (applyPrefix df) s) op ≠
            ps.foldl (applyPrefix df) s := by
          intro hsame
          have hpc' := hconsumes.pc
          rw [hsame, width_cons, hlen] at hpc'
          simp only [Internal.cursor_pc, width_nil] at hpc'
          omega
        have hsets := ((decodeEscape_sets buf (ps.foldl (applyPrefix df) s) op).resolve_left
          hmoved).resolve_left hne
        exact ⟨hsets.vfpc, fun hw => absurd hw hwidth, fun _ => hsets.enc⟩
      · have hzero : vectorWidth buf s.diagram.longMode (ps.foldl (applyPrefix df) s).pc = 0 := by
          unfold vectorWidth
          rw [hop]
          rfl
        obtain ⟨henc', hvfpc'⟩ := decodeMap_carries buf (ps.foldl (applyPrefix df) s)
        exact ⟨hvfpc', fun _ => henc', fun hw => absurd hzero hw⟩

/-! ## The marks of the arguments -/

/-- Mark a walk as undefined if `u`. -/
def Walk.mark (w : Walk) (u : Bool) : Walk := { w with undefined := w.undefined || u }

namespace Walk

variable (db : Db) (win : Window) (w : Walk) (u : Bool)

theorem read_mark (type : BytecodeType) (n : Nat) :
    (w.mark u).read win type n = (w.read win type n).map (·.mark u) := by
  unfold read
  change (if win.Holds (w.pc + n) then _ else _) = _
  split <;> rfl

theorem is4_mark : (w.mark u).is4 win = (w.is4 win).mark u := by
  unfold is4
  rw [read_mark]
  change (if w.hasIs4 then _ else _) = _
  split
  · rfl
  · cases w.read win .imm 1 <;> rfl

theorem register_mark (node : DbReg) :
    (w.mark u).register win node = (w.register win node).mark u := by
  unfold register
  split
  · exact is4_mark win w u
  · rfl

theorem optionalRegister_mark (node : Option DbReg) :
    (w.mark u).optionalRegister win node = (w.optionalRegister win node).mark u := by
  cases node with
  | none => rfl
  | some node => exact register_mark win w u node

theorem memory_mark (i : Nat) (node : DbMem) :
    (w.mark u).memory win i node = (w.memory win i node).mark u := by
  unfold memory
  rw [optionalRegister_mark, optionalRegister_mark]
  dsimp only
  split <;> rfl

theorem imm_mark (node : DbAny) :
    (w.mark u).imm db win node = ((w.imm db win node).1, (w.imm db win node).2.mark u) := by
  have hosz : (w.mark u).osz = w.osz := rfl
  unfold imm
  rw [read_mark, is4_mark, hosz]
  split
  · rfl
  · split
    · rfl
    · cases w.read win .imm (immBytes db w.osz node) <;> rfl

theorem moffs_mark :
    (w.mark u).moffs win = ((w.moffs win).1, (w.moffs win).2.mark u) := by
  have hasz : (w.mark u).asz = w.asz := rfl
  unfold moffs
  rw [hasz]
  cases moffsWidth w.asz with
  | none => rfl
  | some o =>
      obtain ⟨dt, n⟩ := o
      dsimp only
      rw [read_mark]
      cases w.read win .disp n <;> rfl

theorem ptr_mark : (w.mark u).ptr win = ((w.ptr win).1, (w.ptr win).2.mark u) := by
  unfold ptr
  rw [read_mark]
  cases w.read win .absSeg 2 with
  | none => rfl
  | some w =>
      have hosz : (w.mark u).osz = w.osz := rfl
      simp only [Option.map_some]
      rw [hosz]
      cases ptrWidth w.osz with
      | none => rfl
      | some o =>
          obtain ⟨dt, n⟩ := o
          dsimp only
          rw [read_mark]
          cases w.read win .disp n <;> rfl

theorem swz_mark (node : DbSwz) :
    (w.mark u).swz node = ((w.swz node).1, (w.swz node).2.mark u) := by
  have hvmem : (w.mark u).vmem = w.vmem := rfl
  have hsss : (w.mark u).sss = w.sss := rfl
  unfold swz
  rw [hvmem, hsss]
  split
  · rfl
  · dsimp only
    split
    · simp [mark]
    · rfl

/-- A mark does not change what the walk does. -/
theorem node_mark (i : Nat) (node : DbNode) :
    (w.mark u).node db win i node =
      ((w.node db win i node).1, (w.node db win i node).2.mark u) := by
  have htouch : (w.mark u).touch i = (w.touch i).mark u := rfl
  unfold Walk.node
  rw [htouch]
  cases node with
  | reg node => exact Prod.ext rfl (register_mark win (w.touch i) u node)
  | preg node => exact Prod.ext rfl (register_mark win (w.touch i) u node)
  | vreg node =>
      dsimp only
      rw [register_mark]
      rfl
  | mem node => exact Prod.ext rfl (memory_mark win (w.touch i) u i node)
  | agen node => exact Prod.ext rfl (memory_mark win (w.touch i) u i node)
  | mib node => exact Prod.ext rfl (memory_mark win (w.touch i) u i node)
  | imm node => exact imm_mark db win (w.touch i) u node
  | rel node => exact imm_mark db win (w.touch i) u node
  | shift node => exact imm_mark db win (w.touch i) u node
  | rotate node => exact imm_mark db win (w.touch i) u node
  | cc node => exact imm_mark db win (w.touch i) u node
  | moffs node => exact moffs_mark win (w.touch i) u
  | ptr node => exact ptr_mark win (w.touch i) u
  | swz node => exact swz_mark (w.touch i) u node
  | sae => rfl
  | evh => rfl
  | rc node => rfl
  | bcst => rfl
  | sbcst node => rfl
  | other => rfl

theorem nodes_mark (nodes : List DbNode) (i : Nat) (w : Walk) :
    Walk.nodes db win nodes i (w.mark u) =
      ((Walk.nodes db win nodes i w).1, (Walk.nodes db win nodes i w).2.mark u) := by
  induction nodes generalizing i w with
  | nil => rfl
  | cons node nodes ih =>
      unfold Walk.nodes
      rw [node_mark]
      generalize w.node db win i node = r
      obtain ⟨ok, w'⟩ := r
      cases ok with
      | false => rfl
      | true => exact ih _ w'

end Walk

/-- Whether decoding the arguments marks an instruction: a swizzle node meets a reserved row. -/
def argumentsMark (db : Db) (buf : Buffer) (s : Internal) : Bool :=
  (operandWalk db buf.window { s with insn.attributes.isUndefined := false }
    (operandStart db buf s)).undefined

/-- An instruction is marked at its selection or by its arguments. -/
theorem marksUndefined_eq (db : Db) (buf : Buffer) (s : Internal) :
    marksUndefined db buf s =
      (argumentsMark db buf s || s.insn.attributes.isUndefined) := by
  have hmark : Walk.mark ⟨{ Internal.view { s with insn.attributes.isUndefined := false } with
      pc := operandStart db buf s }, []⟩ s.insn.attributes.isUndefined =
        ⟨{ s.view with pc := operandStart db buf s }, []⟩ := by
    simp [Walk.mark, Internal.view]
  have hnodes := Walk.nodes_mark db buf.window s.insn.attributes.isUndefined (templateNodes db s) 0
    ⟨{ Internal.view { s with insn.attributes.isUndefined := false } with
      pc := operandStart db buf s }, []⟩
  rw [hmark] at hnodes
  exact congrArg (fun r : Bool × Walk => r.2.undefined) hnodes

/-! ## The verdict -/

/-- A vector prefix stands behind the prefixes, and one of them must not stand before it. -/
def PrefixFault (ctx : Context) : Prop :=
  ¬LegacyEncoded ctx ∧ ∃ op ∈ contextPrefixes ctx, isIllegalPrefix op = true

instance (ctx : Context) : Decidable (PrefixFault ctx) := inferInstanceAs (Decidable (_ ∧ _))

section Accepted

variable {db : Db} {ctx : Context} {stale s : Internal} {insn : Insn}

/-- The count and the encoding in the state a template is decoded in. -/
theorem accepted_count (h : accepted db ctx stale insn = some s)
    (hfeat : FeatureBits ctx.features) :
    s.vfpc = (contextPrefixes ctx).countP isIllegalPrefix ∧
      (s.diagram.enc ≠ encodingNone ↔ ¬LegacyEncoded ctx) := by
  obtain ⟨df, s₂, -, hf, rfl⟩ := accepted_fetched h
  have hcarried := (selectTemplate_carried db s₂).trans
    (hf ▸ fetchOpcode_carried db (contextBuffer ctx) _)
  have hcount := scanPrefixes_count (contextBuffer ctx) df
    (s := setMode ctx.machineMode df (initialise ctx.features (startState stale insn)))
    (Nat.zero_lt_succ 255)
  have hpc : (setMode ctx.machineMode df
    (initialise ctx.features (startState stale insn))).pc = 0 := rfl
  have hvfpc : (setMode ctx.machineMode df
    (initialise ctx.features (startState stale insn))).vfpc = 0 := rfl
  have henc : (setMode ctx.machineMode df
      (initialise ctx.features (startState stale insn))).diagram.enc = encodingNone :=
    (sizesAfter_start hfeat ctx.machineMode df (startState stale insn)).2.2.2.2
  simp only [setMode_longMode, hpc, hvfpc, henc, Nat.zero_add] at hcount
  change _ ∧ (LegacyEncoded ctx → _) ∧ (¬LegacyEncoded ctx → _) at hcount
  obtain ⟨hvfpc', hlegacy, hvector⟩ := hcount
  have hle : (contextPrefixes ctx).countP isIllegalPrefix ≤ 255 := by
    calc (contextPrefixes ctx).countP isIllegalPrefix
        ≤ (contextPrefixes ctx).length := List.countP_le_length
      _ ≤ (contextBuffer ctx).nb - 0 := prefixBytes_length_le _ _ _
      _ ≤ 255 := by have := (contextBuffer ctx).nb_lt; omega
  have hsame : (selectTemplate db s₂).vfpc = _ := congrArg Carried.vfpc hcarried
  have hsame' : (selectTemplate db s₂).diagram.enc = _ :=
    congrArg (fun c : Carried => c.diagram.enc) hcarried
  refine ⟨?_, ?_⟩
  · rw [hsame]
    exact hvfpc'.trans (Nat.mod_eq_of_lt (Nat.lt_succ_of_le hle))
  · rw [hsame']
    constructor
    · intro hne hleg
      exact hne (hlegacy hleg)
    · exact hvector

/-- The test of `decode_entry` on the count. -/
theorem accepted_fault (h : accepted db ctx stale insn = some s)
    (hfeat : FeatureBits ctx.features) :
    s.diagram.enc ≠ encodingNone ∧ s.vfpc ≠ 0 ↔ PrefixFault ctx := by
  obtain ⟨hvfpc, henc⟩ := accepted_count h hfeat
  rw [PrefixFault, henc, hvfpc, ← Nat.pos_iff_ne_zero, List.countP_pos_iff]

/-- At its selection an instruction is marked for its prefixes, or for a lookup that misses. -/
theorem accepted_isUndefined (h : accepted db ctx stale insn = some s)
    (hfeat : FeatureBits ctx.features) :
    s.insn.attributes.isUndefined = (decide (PrefixFault ctx) || decide (s.encoding = 0)) := by
  have hfault := accepted_fault h hfeat
  obtain ⟨df, s₂, -, hf, rfl⟩ := accepted_fetched h
  have hstart : s₂.insn.attributes.isUndefined = false := by
    have hscan := (scanPrefixes_scanned (contextBuffer ctx) df
      (setMode ctx.machineMode df (initialise ctx.features (startState stale insn)))).frame
    exact (fetchOpcode_fetched hf).frame.isUndefined.trans hscan.isUndefined
  have henc : (selectTemplate db s₂).diagram.enc = s₂.diagram.hashSizes.enc := by
    have hdiagram := congrArg Diagram.enc (Diagram.overrideSize_prefixed s₂.diagram.hashSizes
      (db.templates (selectTemplate db s₂).ptemplate))
    exact hdiagram
  change (s₂.insn.attributes.isUndefined ||
    (decide (s₂.diagram.hashSizes.enc ≠ encodingNone) && decide (s₂.vfpc ≠ 0)) || _) = _
  rw [hstart, Bool.false_or, ← henc, ← Bool.decide_and]
  congr 1
  exact decide_eq_decide.mpr hfault

/-- How an instruction is marked undefined on account of its prefixes. `counted` is the test that
`decode_entry` makes, `result` the flag of the decoded instruction. -/
structure PrefixVerdict (db : Db) (ctx : Context) (stale : Internal) (insn : Insn)
    (s : Internal) : Prop where
  counted : s.diagram.enc ≠ encodingNone ∧ s.vfpc ≠ 0 ↔ PrefixFault ctx
  legacy : LegacyEncoded ctx → s.diagram.enc = encodingNone
  result : (decodeInsn db ctx stale insn).2.attributes.isUndefined =
    (decide (PrefixFault ctx) || decide (s.encoding = 0) ||
      argumentsMark db (contextBuffer ctx) s)

/-- An instruction is marked for its prefixes exactly where one of them is illegal before the vector
prefix that follows. It is marked otherwise only for a lookup that misses or by an argument. -/
theorem prefixVerdict_of_accepted (h : accepted db ctx stale insn = some s)
    (hfeat : FeatureBits ctx.features) : PrefixVerdict db ctx stale insn s where
  counted := accepted_fault h hfeat
  legacy := by
    intro hlegacy
    by_contra hne
    exact (accepted_count h hfeat).2.mp hne hlegacy
  result := by
    rw [(decodeInsn_end h).2, marksUndefined_eq, accepted_isUndefined h hfeat, Bool.or_comm]

end Accepted

open Excerpt in
/-- `VZEROUPPER` behind a 66 prefix. -/
theorem prefixVerdict_vzeroupper :
    ∃ s,
      accepted tables (contextOf .mode32 [0x66, 0xc5, 0xf8, 0x77] 4) default default = some s ∧
        PrefixVerdict tables (contextOf .mode32 [0x66, 0xc5, 0xf8, 0x77] 4) default default s := by
  have h : (accepted tables (contextOf .mode32 [0x66, 0xc5, 0xf8, 0x77] 4) default
    default).isSome := by decide
  refine ⟨_, (Option.some_get h).symm, ?_⟩
  exact prefixVerdict_of_accepted (Option.some_get h).symm (by decide)

end Amed.X86

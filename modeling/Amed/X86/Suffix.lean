import Amed.X86.Echo
import Amed.X86.Truncation

/-!
# The bytes behind an instruction

When two inputs that agree on the bytes of an instruction are decoded alike, and why that
is never so for every second input: the byte count keeps the low 8 bits of the length.

## Implementation notes

Entry 0 of `x86_lookup` stands for a miss and for `AAA`, whose template a miss decodes as
well. The lookup may look at the byte behind the opcode before it misses, so a second input
can turn a miss into an entry of its own.
-/

namespace Amed.X86

open Bytes

/-- The templates of encodings without ModRM byte state no difference in the ModRM bits of
the hashcode. -/
def Db.BitdiffsIgnoreModrm (db : Db) : Prop :=
  ∀ (index : Nat) (h : BitVec 32),
    (db.encodings (db.lookup index h / 2 ^ 16)).hasModrm = false →
    (db.bitdiffs (db.templates (db.lookup index h % 2 ^ 16)).bitdiffs).mask.toNat % 256 = 0

/-- The mnemonic of the template an entry of `x86_lookup` names. -/
def Db.mnemonicOf (db : Db) (entry : Nat) : Nat :=
  db.iform2mnem (db.templates (entry % 2 ^ 16)).iform

/-- The mnemonic of encoding 0, which a miss has as well, is that of no other entry. -/
def Db.MissesStandOut (db : Db) : Prop :=
  ∀ (index : Nat) (h h' : BitVec 32), db.lookup index h / 2 ^ 16 = 0 →
    db.lookup index h' ≠ db.lookup index h →
      db.mnemonicOf (db.lookup index h') ≠ db.mnemonicOf (db.lookup index h)

/-- A mask without the low byte does not see that byte. -/
theorem and_eq_of_high_eq {h h' mask : BitVec 32} (hhigh : h.toNat / 256 = h'.toNat / 256)
    (hmask : mask.toNat % 256 = 0) : h &&& mask = h' &&& mask := by
  apply BitVec.eq_of_toNat_eq
  rw [BitVec.toNat_and, BitVec.toNat_and]
  apply Nat.eq_of_testBit_eq
  intro i
  rw [Nat.testBit_and, Nat.testBit_and]
  by_cases hi : i < 8
  · have hzero : mask.toNat.testBit i = false := by
      have hbit := congrArg (·.testBit i) hmask
      simpa [Nat.testBit_mod_two_pow (x := mask.toNat) 8 i, hi] using hbit
    rw [hzero, Bool.and_false, Bool.and_false]
  · have hdiv : ∀ k : Nat, k.testBit i = (k / 256).testBit (i - 8) := by
      intro k
      rw [show 256 = 2 ^ 8 from rfl, Nat.testBit_div_two_pow, Nat.sub_add_cancel (by omega)]
    rw [hdiv h.toNat, hdiv h'.toNat, hhigh]

/-- Where the ModRM bits are masked out the test of the bit differences ignores them. -/
theorem bitdiffFails_echo {db : Db} {s : Internal} (m c : Bool) (hreg : s.diagram.reg < 8)
    (hrm : s.diagram.rm < 8)
    (hmask : (db.bitdiffs (db.templates s.ptemplate).bitdiffs).mask.toNat % 256 = 0) :
    bitdiffFails db (db.templates s.ptemplate) (s.withPeek m c).diagram =
      bitdiffFails db (db.templates s.ptemplate) s.diagram := by
  have hhigh : (s.withPeek m c).diagram.hashcode.toNat / 256 = s.diagram.hashcode.toNat / 256 := by
    rw [Diagram.hashcode_high hreg hrm,
      Diagram.hashcode_high (d := (s.withPeek m c).diagram) hreg hrm]
    rfl
  unfold bitdiffFails
  dsimp only
  rw [and_eq_of_high_eq hhigh hmask]

theorem withPeek_self {s : Internal} {m c : Bool} (hm : s.diagram.modreg = m)
    (hc : s.diagram.cr = c) : s.withPeek m c = s := by
  subst hm hc
  rfl

/-- What `decode_template` leaves in the instruction, and where it ends, in the second run. -/
theorem decodeTemplate_echo {db : Db} {buf buf' : Buffer} {n : Nat} (h : Agree buf buf' n)
    (m c : Bool) {s : Internal} (hvmem : s.vmem = none) (hvreg : s.vreg = none)
    (hin : (operandWalk db buf.unbounded s s.pc).pc ≤ n)
    (hbit : ∀ t : Internal, t.selection = s.selection →
      bitdiffFails db (db.templates t.ptemplate) (t.withPeek m c).diagram =
        bitdiffFails db (db.templates t.ptemplate) t.diagram) :
    (decodeTemplate db buf' (s.withPeek m c)).2.insn = (decodeTemplate db buf s).2.insn ∧
      (decodeTemplate db buf' (s.withPeek m c)).2.pc = (decodeTemplate db buf s).2.pc := by
  have hslots : ∀ j,
      (beginTemplate db s).walk.vmem = some j ∨ (beginTemplate db s).walk.vreg = some j →
      (beginTemplate db s).walk.touch j = (beginTemplate db s).walk := by
    rintro j (hj | hj)
    · exact absurd (hvmem.symm.trans hj) (by simp)
    · exact absurd (hvreg.symm.trans hj) (by simp)
  have htracks : Tracks buf (beginTemplate db s).cursor (beginTemplate db s)
      (beginTemplate db s).walk :=
    ⟨Consumes.refl _ _, by simp [Internal.walk], rfl, hslots⟩
  have hecho := decodeNodes_echo db m c h (templateNodes db s) 0 htracks hin
  have hsel := decodeNodes_selection db buf (templateNodes db s) 0 (beginTemplate db s)
  cases hnodes : decodeNodes db buf (templateNodes db s) 0 (beginTemplate db s) with
  | mk ok t =>
      rw [hnodes] at hecho hsel
      rw [decodeTemplate_of_nodes hnodes, decodeTemplate_of_nodes (s := s.withPeek m c) hecho]
      cases ok with
      | false => exact ⟨rfl, rfl⟩
      | true =>
          refine ⟨?_, rfl⟩
          change (finishTemplate db (t.withPeek m c)).insn = (finishTemplate db t).insn
          unfold finishTemplate
          dsimp only
          rw [show (t.withPeek m c).ptemplate = t.ptemplate from rfl, hbit t hsel]
          rfl

/-! ## The bytes an instruction calls for -/

/-- The end of what the selected encoding and template call for, wherever the buffer ends. -/
def calledFor (db : Db) (buf : Buffer) (s : Internal) : Nat :=
  (operandWalk db buf.unbounded s (s.pc + (encodingWidths db buf s).sum)).pc

/-- The bytes of the operands come behind those of the encoding. -/
theorem start_le_calledFor (db : Db) (buf : Buffer) (s : Internal) :
    s.pc + (encodingWidths db buf s).sum ≤ calledFor db buf s :=
  (Walk.nodes_grows db buf.unbounded (templateNodes db s) 0
    { s.view with pc := s.pc + (encodingWidths db buf s).sum, fields := [] }).pc_le

/-- The ModRM byte is one of the bytes that are called for. -/
theorem not_modrmMissing_of_calledFor {db : Db} {buf : Buffer} {s : Internal}
    (h : calledFor db buf s ≤ buf.nb) : ¬ModrmMissing db buf s := by
  rintro ⟨hreads, hout⟩
  have hstart := (start_le_calledFor db buf s).trans h
  rw [encodingWidths, if_pos hreads, modrmWidthsAt, List.sum_cons] at hstart
  omega

/-- An instruction whose bytes lie inside the buffer ends behind them. -/
theorem instructionEnd_eq_calledFor {db : Db} {buf : Buffer} {s : Internal}
    (h : calledFor db buf s ≤ buf.nb) :
    operandStart db buf s = s.pc + (encodingWidths db buf s).sum ∧
      instructionEnd db buf s = calledFor db buf s := by
  have hstart := (start_le_calledFor db buf s).trans h
  have hm := not_modrmMissing_of_calledFor h
  have hfit : fitting buf.nb s.pc (encodingWidths db buf s) = encodingWidths db buf s :=
    (fitting_eq_self (by omega)).mpr hstart
  have hoperand : operandStart db buf s = s.pc + (encodingWidths db buf s).sum := by
    rw [operandStart, if_neg hm, hfit]
  refine ⟨hoperand, ?_⟩
  unfold instructionEnd calledFor operandWalk
  rw [hoperand, Walk.nodes_window h]

/-! ## Two inputs -/

/-- Two inputs for the same mode and features, each at least `n` bytes long, that agree on
the first `n` bytes. -/
structure SamePrefix (ctx ctx' : Context) (n : Nat) : Prop where
  mode : ctx'.machineMode = ctx.machineMode
  features : ctx'.features = ctx.features
  length : (n : Int) ≤ ctx.length
  length' : (n : Int) ≤ ctx'.length
  bytes : ∀ i < n, ctx'.address i = ctx.address i

/-- What a caller compares: the flag, the length, the mnemonic, the arguments and the
attributes. -/
def outcome (result : Bool × Insn) :
    Bool × Nat × Nat × Nat × (Nat → Argument) × InsnAttributes :=
  (result.1, result.2.length, result.2.mnemonic, result.2.argumentCount, result.2.arguments,
    result.2.attributes)

/-- Every second input that agrees with an accepted one on the instruction's bytes has the
same outcome. -/
def SuffixIndependent (db : Db) (ctx : Context) (stale : Internal) (insn : Insn) : Prop :=
  (decodeInsn db ctx stale insn).1 = true →
    ∀ ctx', SamePrefix ctx ctx' (decodeInsn db ctx stale insn).2.length →
      outcome (decodeInsn db ctx' stale insn) = outcome (decodeInsn db ctx stale insn)

/-- The 8-bit counts of both inputs cover the bytes the instruction calls for. -/
structure Covers (db : Db) (ctx ctx' : Context) (s : Internal) : Prop where
  whole : calledFor db (contextBuffer ctx) s ≤ (contextBuffer ctx).nb
  count : calledFor db (contextBuffer ctx) s ≤ (contextBuffer ctx').nb

/-- What the decoder looks at behind the bytes of an instruction gives the same in the second
input: a vector prefix has the same width, and where entry 0 is selected the byte behind the
opcode selects it as well. -/
structure LookaheadAgrees (db : Db) (ctx ctx' : Context) (s : Internal) : Prop where
  vector :
    let lm := longModeOf ctx.machineMode ctx.features
    let k := prefixCount (contextBuffer ctx) lm
    vectorWidth (contextBuffer ctx') lm k = vectorWidth (contextBuffer ctx) lm k
  entry : s.encoding = 0 → s.mapidx ≠ mapIdx0F0F →
    entryFor db s ((contextBuffer ctx').modrmAt s.pc) = s.entry

/-- The template in the second run, from the state in which its nodes start. -/
theorem decodeTemplate_of_settled {db : Db} {buf buf' : Buffer} {lm : Bool} {s₀ s s₁ : Internal}
    (ho : Opened buf lm s₀ s) (h : Agree buf buf' (calledFor db buf s))
    (hset : s₁.settled = s.settled) (hpc : s₁.pc = s.pc + (encodingWidths db buf s).sum)
    (m c : Bool)
    (hbit : ∀ t : Internal, t.selection = s₁.selection →
      bitdiffFails db (db.templates t.ptemplate) (t.withPeek m c).diagram =
        bitdiffFails db (db.templates t.ptemplate) t.diagram) :
    (decodeTemplate db buf' (s₁.withPeek m c)).2.insn = (decodeTemplate db buf s₁).2.insn ∧
      (decodeTemplate db buf' (s₁.withPeek m c)).2.pc = (decodeTemplate db buf s₁).2.pc := by
  refine decodeTemplate_echo h m c ((congrArg Settled.vmem hset).trans ho.vmem)
    ((congrArg Settled.vreg hset).trans ho.vreg) ?_ hbit
  have hview := walkFrom_of_settled hset
  have hnodes : templateNodes db s₁ = templateNodes db s :=
    congrArg (fun p => db.arguments (db.templates p).arguments) (congrArg Settled.ptemplate hset)
  rw [operandWalk, hview, hnodes, hpc]
  exact le_rfl

/-- What is decoded behind the opcode in the second run, from the same state. -/
theorem decodeSelected_same {db : Db} {buf buf' : Buffer} {lm : Bool} {s₀ s : Internal}
    (ho : Opened buf lm s₀ s) (h : Agree buf buf' (calledFor db buf s)) :
    (decodeSelected db buf' s).insn = (decodeSelected db buf s).insn ∧
      (decodeSelected db buf' s).pc = (decodeSelected db buf s).pc := by
  have hstart := start_le_calledFor db buf s
  have hreal : decodeRealModrm db buf' s = decodeRealModrm db buf s := by
    by_cases hreads : ReadsModrm db s
    · rw [decodeRealModrm_of_reads buf' hreads, decodeRealModrm_of_reads buf hreads]
      obtain ⟨hmod, hrm, -⟩ := ho.modrm hreads.2
      rw [encodingWidths, if_pos hreads, modrmWidthsAt] at hstart
      have hin : s.pc + 1 ≤ calledFor db buf s := by
        simp only [List.sum_cons] at hstart
        omega
      obtain ⟨hpeek, -⟩ := h.peekByte_eq hin
      rw [hpeek, Option.getD_some] at hmod hrm
      exact congrArg Prod.snd (decodeModrm_agree db h (by rw [hmod, hrm]; exact hstart))
    · unfold decodeRealModrm
      by_cases hm : (db.encodings s.encoding).hasModrm = true
      · have hmap : s.mapidx = mapIdx0F0F := by
          by_contra hne
          exact hreads ⟨hm, hne⟩
        simp only [hm, hmap, if_true]
      · rw [if_neg hm, if_neg hm]
  obtain ⟨hoperand, -⟩ := instructionEnd_eq_calledFor h.le
  have hm := not_modrmMissing_of_calledFor h.le
  obtain ⟨hset, hsplits⟩ := decodeRealModrm_of_present hm ho.modrm
  have hpc : (decodeRealModrm db buf s).pc = s.pc + (encodingWidths db buf s).sum := by
    rw [← hoperand, operandStart, if_neg hm]
    exact hsplits.pc_eq
  unfold decodeSelected
  rw [hreal]
  have hecho := decodeTemplate_of_settled ho h hset hpc (decodeRealModrm db buf s).diagram.modreg
    (decodeRealModrm db buf s).diagram.cr fun t ht => by
      have hmodreg : t.diagram.modreg = (decodeRealModrm db buf s).diagram.modreg :=
        congrArg Selection.modreg ht
      have hcr : t.diagram.cr = (decodeRealModrm db buf s).diagram.cr := congrArg Selection.cr ht
      rw [withPeek_self hmodreg hcr]
  rwa [withPeek_self rfl rfl] at hecho

/-- What is decoded behind the opcode in the second run for an encoding without ModRM byte,
when another byte stands behind the opcode. -/
theorem decodeSelected_peeked {db : Db} (hbd : db.BitdiffsIgnoreModrm) {buf buf' : Buffer}
    {lm : Bool} {s₀ t s : Internal} {m : UInt8} (ho : Opened buf lm s₀ s)
    (h : Agree buf buf' (calledFor db buf s)) (hs : s = selectTemplate db (t.setModrmField m))
    (hm : (db.encodings s.encoding).hasModrm = false) (m' : UInt8) :
    (decodeSelected db buf' (s.setModrmField m')).insn = (decodeSelected db buf s).insn ∧
      (decodeSelected db buf' (s.setModrmField m')).pc = (decodeSelected db buf s).pc := by
  have hreads : ¬ReadsModrm db s := fun hreads => absurd hreads.1 (by simp [hm])
  have hreal : decodeRealModrm db buf s =
      { s with diagram := { s.diagram with mod := 0, reg := 0, rm := 0 } } := by
    rw [decodeRealModrm, if_neg (by simp [hm])]
  have hreal' : decodeRealModrm db buf' (s.setModrmField m') =
      (decodeRealModrm db buf s).withPeek (bits m' 6 2 = 3) (bits m' 3 3 ≠ 0) := by
    rw [hreal, decodeRealModrm, if_neg fun hmodrm => absurd (hmodrm.symm.trans hm) (by decide)]
    rfl
  have hmask : (db.bitdiffs (db.templates s.ptemplate).bitdiffs).mask.toNat % 256 = 0 := by
    subst hs
    exact hbd _ _ hm
  unfold decodeSelected
  rw [hreal']
  obtain ⟨hset, hcur⟩ := decodeRealModrm_of_not_reads buf hreads
  have hpc : (decodeRealModrm db buf s).pc = s.pc + (encodingWidths db buf s).sum := by
    rw [encodingWidths, if_neg hreads]
    exact congrArg Cursor.pc hcur
  refine decodeTemplate_of_settled ho h hset hpc _ _ fun u hu => ?_
  rw [hreal] at hu
  have hreg : u.diagram.reg = 0 := congrArg Selection.reg hu
  have hrm : u.diagram.rm = 0 := congrArg Selection.rm hu
  have htem : u.ptemplate = s.ptemplate := congrArg Selection.ptemplate hu
  exact bitdiffFails_echo _ _ (by omega) (by omega) (by rw [htem]; exact hmask)

section TwoInputs

variable {db : Db} {ctx ctx' : Context} {stale s : Internal} {insn : Insn}

/-- The length of an instruction whose bytes lie inside the buffer. -/
theorem length_eq_calledFor (h : accepted db ctx stale insn = some s)
    (hwhole : calledFor db (contextBuffer ctx) s ≤ (contextBuffer ctx).nb) :
    (decodeInsn db ctx stale insn).2.length = calledFor db (contextBuffer ctx) s :=
  (decodeInsn_end h).1.trans (instructionEnd_eq_calledFor hwhole).2

theorem pc_le_calledFor (db : Db) (buf : Buffer) (s : Internal) : s.pc ≤ calledFor db buf s :=
  (Nat.le_add_right _ _).trans (start_le_calledFor db buf s)

theorem SamePrefix.agree (hsame : SamePrefix ctx ctx' (decodeInsn db ctx stale insn).2.length)
    (h : accepted db ctx stale insn = some s) (hcovers : Covers db ctx ctx' s) :
    Agree (contextBuffer ctx) (contextBuffer ctx') (calledFor db (contextBuffer ctx) s) := by
  rw [length_eq_calledFor h hcovers.whole] at hsame
  exact ⟨hcovers.whole, hcovers.count, hsame.bytes⟩

theorem SamePrefix.accepted_eq {n : Nat} (hsame : SamePrefix ctx ctx' n) :
    accepted db ctx' stale insn = selected db (contextBuffer ctx') ctx.machineMode
      ctx.features (startState stale insn) := by
  rw [accepted, hsame.mode, hsame.features]

/-- The second input is accepted with the same instruction. -/
theorem decodeInsn_suffix (hdb : db.LookupIgnoresModrm) (hbd : db.BitdiffsIgnoreModrm)
    (h : accepted db ctx stale insn = some s)
    (hsame : SamePrefix ctx ctx' (decodeInsn db ctx stale insn).2.length)
    (hcovers : Covers db ctx ctx' s) (hahead : LookaheadAgrees db ctx ctx' s) :
    decodeInsn db ctx' stale insn = decodeInsn db ctx stale insn := by
  have ho := accepted_opened h
  have hagree := hsame.agree h hcovers
  obtain ⟨hnow, hother⟩ := selected_agree rfl h (hagree.mono (pc_le_calledFor db _ s)) hahead.vector
  have hacc' : accepted db ctx' stale insn = selected db (contextBuffer ctx') ctx.machineMode
      ctx.features (startState stale insn) := hsame.accepted_eq
  have hfinish : ∀ s', accepted db ctx' stale insn = some s' →
      (decodeSelected db (contextBuffer ctx') s').insn =
          (decodeSelected db (contextBuffer ctx) s).insn ∧
        (decodeSelected db (contextBuffer ctx') s').pc =
          (decodeSelected db (contextBuffer ctx) s).pc →
      decodeInsn db ctx' stale insn = decodeInsn db ctx stale insn := by
    rintro s' hs' ⟨hinsn, hend'⟩
    rw [decodeInsn_of_accepted hs', decodeInsn_of_accepted h, hinsn, hend']
  by_cases hmap : s.mapidx = mapIdx0F0F
  · exact hfinish s (hacc'.trans (hnow hmap)) (decodeSelected_same ho hagree)
  obtain ⟨t, hs, hsel⟩ := hother hmap
  by_cases hm : (db.encodings s.encoding).hasModrm = true
  · -- the ModRM byte is one of the bytes both inputs share
    have hstart := start_le_calledFor db (contextBuffer ctx) s
    rw [encodingWidths, if_pos ⟨hm, hmap⟩, modrmWidthsAt, List.sum_cons] at hstart
    have hbyte := (hagree.peekByte_eq (by omega : s.pc + 1 ≤ _)).2
    have hpeek : (contextBuffer ctx').modrmAt s.pc = (contextBuffer ctx).modrmAt s.pc :=
      congrArg (·.getD 0) hbyte
    rw [hpeek, ← hs] at hsel
    exact hfinish s (hacc'.trans hsel) (decodeSelected_same ho hagree)
  · have hm' : (db.encodings s.encoding).hasModrm = false := by simpa using hm
    have hentry : entryFor db s ((contextBuffer ctx').modrmAt s.pc) = s.entry := by
      by_cases henc : s.encoding = 0
      · exact hahead.entry henc hmap
      · exact entryFor_setModrmField hdb hs henc hm' _
    rw [selectTemplate_of_entryFor hs hentry] at hsel
    exact hfinish _ (hacc'.trans hsel) (decodeSelected_peeked hbd ho hagree hs hm' _)

/-! ## What the same outcome asks of the second input -/

theorem entry_mod {stale : Internal} (h : accepted db ctx stale insn = some s) :
    s.entry % 2 ^ 16 = s.ptemplate := by
  have hlt : s.ptemplate < 2 ^ 16 := by
    unfold accepted selected at h
    split at h
    · cases h
    · split at h
      · cases h
      · obtain rfl := Option.some.inj h
        exact Nat.mod_lt _ (by decide)
  rw [Internal.entry]
  omega

/-- The mnemonic of an accepted instruction is that of the entry selected for it. -/
theorem decodeInsn_mnemonic (h : accepted db ctx stale insn = some s) :
    (decodeInsn db ctx stale insn).2.mnemonic = db.mnemonicOf s.entry := by
  have houtline := decodeSelected_outline db (contextBuffer ctx) s
  have hptem : (decodeRealModrm db (contextBuffer ctx) s).ptemplate = s.ptemplate :=
    congrArg Settled.ptemplate ((accepted_opened h).decodeRealModrm_settled db)
  rw [Db.mnemonicOf, entry_mod h, ← hptem, decodeInsn_of_accepted h]
  exact congrArg (fun t : Internal => t.insn.mnemonic) houtline

/-- A vector prefix that only the second buffer has reaches behind the bytes they share. -/
theorem vectorWidth_of_agree {buf buf' : Buffer} {n : Nat} (h : Agree buf buf' n) {lm : Bool}
    {k : Nat} (hin : k + vectorWidth buf lm k < n)
    (hne : vectorWidth buf' lm k ≠ vectorWidth buf lm k) : n < k + vectorWidth buf' lm k := by
  obtain ⟨hpeek, hpeek'⟩ := h.peekByte_eq (by omega : k + 1 ≤ n)
  unfold vectorWidth at hin hne ⊢
  rw [hpeek', hpeek, Option.bind_some] at hne ⊢
  rw [hpeek, Option.bind_some] at hin
  cases hvec : vectorPrefix lm (buf.address k) with
  | none => simp [hvec] at hne
  | some p =>
      obtain ⟨w, accepts⟩ := p
      simp only [hvec] at hin hne ⊢
      by_cases hle : k + w ≤ n
      · rw [h.peekBytes_eq hle] at hne
        exact absurd rfl hne
      · have hrefused : ¬(buf.peekBytes k w).any accepts = true := by
          intro hacc
          rw [if_pos hacc] at hin
          omega
        rw [if_neg hrefused] at hne
        rw [if_pos (by_contra fun hacc => hne (if_neg hacc))]
        omega

/-- An accepted instruction is longer than its opening, unless the counter wraps. -/
theorem pc_le_length (h : accepted db ctx stale insn = some s)
    (hnb : (contextBuffer ctx).nb < 255) : s.pc ≤ (decodeInsn db ctx stale insn).2.length := by
  have ho := accepted_opened h
  obtain ⟨-, -, hle⟩ := ho.pc_bounds rfl
  rw [decodeInsn_of_accepted h]
  change s.pc ≤ (decodeSelected db (contextBuffer ctx) s).pc
  by_cases hm : ModrmMissing db (contextBuffer ctx) s
  · rw [(length_of_missing ho rfl hm).1 hnb]
    omega
  · have hge := ((ho.layout db).present hm).pc_eq
    simp only [Internal.cursor_pc] at hge
    omega

/-- An accepted instruction ends at most one byte behind the buffer. -/
theorem length_le (h : accepted db ctx stale insn = some s) :
    (decodeInsn db ctx stale insn).2.length ≤ (contextBuffer ctx).nb + 1 ∧
      (decodeInsn db ctx stale insn).2.length ≤ 255 := by
  have ho := accepted_opened h
  have hnb := (contextBuffer ctx).nb_lt
  have hlength : (decodeInsn db ctx stale insn).2.length =
      (decodeSelected db (contextBuffer ctx) s).pc := by
    rw [decodeInsn_of_accepted h]
  rw [hlength]
  by_cases hm : ModrmMissing db (contextBuffer ctx) s
  · obtain ⟨hshort, hfull⟩ := length_of_missing ho rfl hm
    rcases lt_or_eq_of_le (Nat.le_of_lt_succ hnb) with hlt | heq
    · have hpc := hshort hlt
      omega
    · have hpc := (hfull heq).2
      omega
  · have hpc := (length_of_present ho rfl hm).2
    omega

/-- A second input with the same length has the same vector prefix. -/
theorem vectorWidth_of_length {s' : Internal} (h : accepted db ctx stale insn = some s)
    (h' : accepted db ctx' stale insn = some s') {lm : Bool}
    (hlm : longModeOf ctx.machineMode ctx.features = lm)
    (hlm' : longModeOf ctx'.machineMode ctx'.features = lm) {n : Nat}
    (hagree : Agree (contextBuffer ctx) (contextBuffer ctx') n) (hpc : s.pc ≤ n)
    (hpc' : s'.pc ≤ n) :
    vectorWidth (contextBuffer ctx') lm (prefixCount (contextBuffer ctx) lm) =
      vectorWidth (contextBuffer ctx) lm (prefixCount (contextBuffer ctx) lm) := by
  obtain ⟨hsum, -⟩ := (accepted_opened h).pc_bounds rfl
  obtain ⟨hsum', -⟩ := (accepted_opened h').pc_bounds rfl
  rw [hlm] at hsum
  rw [hlm'] at hsum'
  simp only [openingWidths, List.sum_append, List.sum_replicate_nat, readOf_sum, List.sum_cons,
    List.sum_nil] at hsum hsum'
  have hk : prefixCount (contextBuffer ctx') lm = prefixCount (contextBuffer ctx) lm := by
    refine congrArg List.length (hagree.prefixBytes_eq ?_)
    change 0 + prefixCount (contextBuffer ctx) lm < n
    omega
  rw [hk] at hsum'
  generalize prefixCount (contextBuffer ctx) lm = k at hsum hsum' ⊢
  have hvec := vectorWidth_le_escapeWidth (contextBuffer ctx) lm k
  have hvec' := vectorWidth_le_escapeWidth (contextBuffer ctx') lm k
  by_contra hne
  have hlong := vectorWidth_of_agree hagree (by omega) hne
  omega

/-- Where the same entry is not selected the mnemonics differ. -/
theorem entryFor_of_mnemonic (hmiss : db.MissesStandOut) {t : Internal} {m m' : UInt8}
    (hs : s = selectTemplate db (t.setModrmField m)) (henc : s.encoding = 0)
    (hmnem : db.mnemonicOf (entryFor db s m') = db.mnemonicOf s.entry) :
    entryFor db s m' = s.entry := by
  have hself := entryFor_self hs
  have hptem : s.ptemplate < 2 ^ 16 := by
    rw [hs]
    exact Nat.mod_lt _ (by decide)
  have hzero : entryFor db s m / 2 ^ 16 = 0 := by
    rw [hself, Internal.entry, henc]
    omega
  by_contra hne
  rw [← hself] at hmnem hne
  exact hmiss _ _ _ hzero hne hmnem

/-- An input with the outcome of an accepted one is accepted. -/
theorem accepted_of_outcome (h : accepted db ctx stale insn = some s)
    (heq : outcome (decodeInsn db ctx' stale insn) = outcome (decodeInsn db ctx stale insn)) :
    ∃ s', accepted db ctx' stale insn = some s' := by
  have hok : (decodeInsn db ctx' stale insn).1 = (decodeInsn db ctx stale insn).1 :=
    congrArg (fun r => r.1) heq
  rw [decodeInsn_fst, decodeInsn_fst, h] at hok
  exact Option.isSome_iff_exists.mp hok

/-- A second input with the same outcome looks alike to the decoder. -/
theorem lookaheadAgrees_of_outcome (hmiss : db.MissesStandOut)
    (h : accepted db ctx stale insn = some s)
    (hsame : SamePrefix ctx ctx' (decodeInsn db ctx stale insn).2.length)
    (hcovers : Covers db ctx ctx' s) (hnb : (contextBuffer ctx').nb < 255)
    (heq : outcome (decodeInsn db ctx' stale insn) = outcome (decodeInsn db ctx stale insn)) :
    LookaheadAgrees db ctx ctx' s := by
  obtain ⟨s', h'⟩ := accepted_of_outcome h heq
  have hlength : (decodeInsn db ctx' stale insn).2.length = calledFor db (contextBuffer ctx) s :=
    (congrArg (fun r => r.2.1) heq).trans (length_eq_calledFor h hcovers.whole)
  have hagree := hsame.agree h hcovers
  have hvector := vectorWidth_of_length h h' rfl (by rw [hsame.mode, hsame.features]) hagree
    (pc_le_calledFor db _ s) ((pc_le_length h' hnb).trans hlength.le)
  refine ⟨hvector, fun henc hmap => ?_⟩
  obtain ⟨-, hother⟩ := selected_agree rfl h (hagree.mono (pc_le_calledFor db _ s)) hvector
  obtain ⟨t, hs, hsel⟩ := hother hmap
  rw [selectTemplate_entryFor hs] at hsel
  have hmnem : (decodeInsn db ctx' stale insn).2.mnemonic =
      (decodeInsn db ctx stale insn).2.mnemonic := congrArg (fun r => r.2.2.1) heq
  rw [decodeInsn_mnemonic (hsame.accepted_eq.trans hsel), decodeInsn_mnemonic h,
    placeTemplate_entry] at hmnem
  exact entryFor_of_mnemonic hmiss hs henc hmnem

end TwoInputs

/-! ## Some second input always decodes differently -/

/-- A buffer of 256 bytes counts as an empty one. -/
theorem decodeInsn_cut_256 (db : Db) (ctx : Context) (stale : Internal) (insn : Insn) :
    (decodeInsn db (cut ctx 256) stale insn).1 = false := by
  rw [decodeInsn_fst]
  cases h : accepted db (cut ctx 256) stale insn with
  | none => rfl
  | some s =>
      obtain ⟨-, hpos, hle⟩ := (accepted_opened h).pc_bounds rfl
      have hnb : (contextBuffer (cut ctx 256)).nb = 0 := rfl
      omega

/-- An accepted instruction has the same outcome on a second input exactly when that input
looks alike to the decoder behind it, as long as the 8-bit counts cover its bytes; a count that
ends more than one byte before it rules the same outcome out. It has the same outcome on all
second inputs only when there is none, which takes a first input that ends within it. -/
theorem suffixIndependent_iff {db : Db} (hdb : db.LookupIgnoresModrm)
    (hbd : db.BitdiffsIgnoreModrm) (hmiss : db.MissesStandOut) {ctx : Context}
    {stale s : Internal} {insn : Insn} (h : accepted db ctx stale insn = some s) :
    (∀ ctx', SamePrefix ctx ctx' (decodeInsn db ctx stale insn).2.length →
        Covers db ctx ctx' s → (contextBuffer ctx').nb < 255 →
          (outcome (decodeInsn db ctx' stale insn) = outcome (decodeInsn db ctx stale insn) ↔
            LookaheadAgrees db ctx ctx' s)) ∧
      (∀ ctx', SamePrefix ctx ctx' (decodeInsn db ctx stale insn).2.length →
        Covers db ctx ctx' s → LookaheadAgrees db ctx ctx' s →
          decodeInsn db ctx' stale insn = decodeInsn db ctx stale insn) ∧
      (∀ ctx', outcome (decodeInsn db ctx' stale insn) = outcome (decodeInsn db ctx stale insn) →
        (decodeInsn db ctx stale insn).2.length ≤ (contextBuffer ctx').nb + 1) ∧
      (SuffixIndependent db ctx stale insn ↔
        ctx.length < (decodeInsn db ctx stale insn).2.length) := by
  have hpair : ∀ ctx', SamePrefix ctx ctx' (decodeInsn db ctx stale insn).2.length →
      Covers db ctx ctx' s → LookaheadAgrees db ctx ctx' s →
        decodeInsn db ctx' stale insn = decodeInsn db ctx stale insn :=
    fun ctx' hsame hcovers hahead => decodeInsn_suffix hdb hbd h hsame hcovers hahead
  refine ⟨fun ctx' hsame hcovers hnb => ⟨?_, ?_⟩, hpair, fun ctx' heq => ?_, ?_⟩
  · exact lookaheadAgrees_of_outcome hmiss h hsame hcovers hnb
  · exact fun hahead => congrArg outcome (hpair ctx' hsame hcovers hahead)
  · obtain ⟨s', h'⟩ := accepted_of_outcome h heq
    have hlength := congrArg (fun r => r.2.1) heq
    exact hlength.symm.trans_le (length_le h').1
  · have hok : (decodeInsn db ctx stale insn).1 = true := by
      rw [decodeInsn_fst, h]
      rfl
    obtain ⟨-, hlen⟩ := length_le h
    constructor
    · intro hind
      by_contra hle
      have hflag := congrArg Prod.fst (hind hok (cut ctx 256)
        ⟨rfl, rfl, by omega, by change _ ≤ (256 : Int); omega, fun _ _ => rfl⟩)
      change (decodeInsn db (cut ctx 256) stale insn).1 = (decodeInsn db ctx stale insn).1 at hflag
      rw [decodeInsn_cut_256, hok] at hflag
      exact absurd hflag (by decide)
    · intro hlt _ ctx' hsame
      have hge := hsame.length
      omega

open Excerpt in
theorem excerpt_bitdiffsIgnoreModrm : tables.BitdiffsIgnoreModrm := by
  intro index h
  change (Excerpt.encodings (Excerpt.lookup index h / 2 ^ 16)).hasModrm = false →
    (Excerpt.bitdiffs (Excerpt.templates (Excerpt.lookup index h % 2 ^ 16)).bitdiffs).mask.toNat
      % 256 = 0
  unfold Excerpt.lookup
  split
  · cases h.getLsbD 0 <;> exact fun hm => absurd hm (by decide)
  · exact fun _ => by decide
  · exact fun _ => by decide
  · exact fun _ => by decide
  · cases h.getLsbD 0 && !h.getLsbD 14 with
    | true => exact fun hm => absurd hm (by decide)
    | false => exact fun _ => by decide
  · exact fun _ => by decide

open Excerpt in
theorem excerpt_missesStandOut : tables.MissesStandOut := by
  intro index h h'
  change Excerpt.lookup index h / 2 ^ 16 = 0 → Excerpt.lookup index h' ≠ Excerpt.lookup index h →
    tables.mnemonicOf (Excerpt.lookup index h') ≠ tables.mnemonicOf (Excerpt.lookup index h)
  unfold Excerpt.lookup
  split
  · cases h.getLsbD 0 <;> exact fun hzero => absurd hzero (by decide)
  · exact fun _ hne => absurd rfl hne
  · exact fun _ hne => absurd rfl hne
  · exact fun _ hne => absurd rfl hne
  · cases h.getLsbD 0 && !h.getLsbD 14 with
    | true => exact fun hzero => absurd hzero (by decide)
    | false =>
        cases h'.getLsbD 0 && !h'.getLsbD 14 with
        | true => exact fun _ _ => by decide
        | false => exact fun _ hne => absurd rfl hne
  · exact fun _ hne => absurd rfl hne

open Excerpt in
/-- `HLT` in a buffer of one byte and in front of other bytes, and a miss (37) alone and in
front of 90. -/
theorem suffixIndependent_hlt :
    decodeInsn tables (contextOf .mode32 [0xf4, 0x01, 0x02] 3) default default =
        decodeInsn tables (contextOf .mode32 [0xf4] 1) default default ∧
      decodeInsn tables (contextOf .mode32 [0x37, 0x90] 2) default default =
        decodeInsn tables (contextOf .mode32 [0x37] 1) default default ∧
      ¬SuffixIndependent tables (contextOf .mode32 [0xf4] 1) default default := by
  have h : (accepted tables (contextOf .mode32 [0xf4] 1) default default).isSome := by decide
  have hlooks : Covers tables (contextOf .mode32 [0xf4] 1) (contextOf .mode32 [0xf4, 0x01, 0x02] 3)
        ((accepted tables (contextOf .mode32 [0xf4] 1) default default).get h) ∧
      LookaheadAgrees tables (contextOf .mode32 [0xf4] 1) (contextOf .mode32 [0xf4, 0x01, 0x02] 3)
        ((accepted tables (contextOf .mode32 [0xf4] 1) default default).get h) :=
    ⟨⟨by decide +revert, by decide +revert⟩, by decide,
      fun hzero => absurd hzero (by decide +revert)⟩
  have hmiss : (accepted tables (contextOf .mode32 [0x37] 1) default default).isSome := by decide
  have hmissLooks : Covers tables (contextOf .mode32 [0x37] 1) (contextOf .mode32 [0x37, 0x90] 2)
        ((accepted tables (contextOf .mode32 [0x37] 1) default default).get hmiss) ∧
      LookaheadAgrees tables (contextOf .mode32 [0x37] 1) (contextOf .mode32 [0x37, 0x90] 2)
        ((accepted tables (contextOf .mode32 [0x37] 1) default default).get hmiss) :=
    ⟨⟨by decide +revert, by decide +revert⟩, by decide, fun _ _ => by decide +revert⟩
  obtain ⟨-, hpair, -, hall⟩ := suffixIndependent_iff excerpt_lookupIgnoresModrm
    excerpt_bitdiffsIgnoreModrm excerpt_missesStandOut (Option.some_get h).symm
  obtain ⟨-, hmissPair, -, -⟩ := suffixIndependent_iff excerpt_lookupIgnoresModrm
    excerpt_bitdiffsIgnoreModrm excerpt_missesStandOut (Option.some_get hmiss).symm
  refine ⟨?_, ?_, ?_⟩
  · exact hpair _ ⟨rfl, rfl, by decide, by decide, by decide⟩ hlooks.1 hlooks.2
  · exact hmissPair _ ⟨rfl, rfl, by decide, by decide, by decide⟩ hmissLooks.1 hmissLooks.2
  · rw [hall]
    decide

open Excerpt in
/-- `HLT` in a buffer of 256 bytes is rejected. -/
theorem not_suffixIndependent_hlt :
    ¬∀ (db : Db) (ctx : Context) (stale : Internal) (insn : Insn),
      db.LookupIgnoresModrm → SuffixIndependent db ctx stale insn := by
  intro h
  have hflag := congrArg Prod.fst (h tables (contextOf .mode32 [0xf4] 1) default default
    excerpt_lookupIgnoresModrm (by decide) (contextOf .mode32 [0xf4] 256)
    ⟨rfl, rfl, by decide, by decide, fun _ _ => rfl⟩)
  exact absurd hflag (by decide)

end Amed.X86

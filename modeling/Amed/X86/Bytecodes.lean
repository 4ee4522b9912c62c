import Amed.X86.Frame
import Amed.X86.Operands

/-!
# The length and the recorded bytecodes of an instruction

How far an accepted instruction moves the byte counter, and when the recorded bytecodes
are the bytes of the instruction, in order and complete.

## Implementation notes

The record has room for 15 entries and keeps the first ones. A write behind the eight
argument slots lands in the members that follow them, the record among these, so a
faithful record asks for none.
-/

namespace Amed.X86

open Bytes

/-! ## Accepted instructions -/

/-- The state in which the template of an instruction is decoded, if one is accepted. -/
def accepted (db : Db) (ctx : Context) (stale : Internal) (insn : Insn) : Option Internal :=
  selected db (contextBuffer ctx) ctx.machineMode ctx.features (startState stale insn)

/-- The state of an input in which its template is looked up. -/
def lookedUp (db : Db) (ctx : Context) (stale : Internal) (insn : Insn) : Option Internal :=
  fetched db (contextBuffer ctx) ctx.machineMode ctx.features (startState stale insn)

theorem accepted_eq_map (db : Db) (ctx : Context) (stale : Internal) (insn : Insn) :
    accepted db ctx stale insn = (lookedUp db ctx stale insn).map (selectTemplate db) :=
  selected_eq_map db (contextBuffer ctx) ctx.machineMode ctx.features (startState stale insn)

/-- The state of the lookup, once the prefixes are taken in. -/
theorem lookedUp_of_prefixBytes {db : Db} {ctx : Context} {stale : Internal} {insn : Insn}
    {df : DefaultSizes} (hdf : defaultSizes ctx.machineMode = some df) {bytes : List UInt8}
    (hbytes : prefixBytes (contextBuffer ctx) (longModeOf ctx.machineMode ctx.features) 0 = bytes) :
    lookedUp db ctx stale insn =
      match fetchOpcode db (contextBuffer ctx) (leaveLoop (contextBuffer ctx)
        (bytes.foldl (applyPrefix df)
          (setMode ctx.machineMode df (initialise ctx.features (startState stale insn))))) with
      | (false, _) => none
      | (true, s) => some s := by
  unfold lookedUp fetched
  rw [hdf]
  dsimp only
  rw [scanPrefixes_eq, ← hbytes]
  rfl

/-- An opcode that is fetched behind the prefixes is looked up. -/
theorem lookedUp_of_fetchOpcode {db : Db} {ctx : Context} {stale u : Internal} {insn : Insn}
    {df : DefaultSizes} (hdf : defaultSizes ctx.machineMode = some df) {bytes : List UInt8}
    (hbytes : prefixBytes (contextBuffer ctx) (longModeOf ctx.machineMode ctx.features) 0 = bytes)
    (h : fetchOpcode db (contextBuffer ctx) (leaveLoop (contextBuffer ctx)
      (bytes.foldl (applyPrefix df)
        (setMode ctx.machineMode df (initialise ctx.features (startState stale insn))))) =
          (true, u)) :
    lookedUp db ctx stale insn = some u := by
  rw [lookedUp_of_prefixBytes hdf hbytes, h]

theorem accepted_opened {db : Db} {ctx : Context} {stale s : Internal} {insn : Insn}
    (h : accepted db ctx stale insn = some s) :
    Opened (contextBuffer ctx) (longModeOf ctx.machineMode ctx.features) (startState stale insn) s :=
  opened_of_selected rfl h

namespace Opened

variable {buf : Buffer} {lm : Bool} {s s' : Internal}

/-- The opcode lies inside the buffer. -/
theorem pc_bounds (h : Opened buf lm s s') (hpc : s.pc = 0) :
    s'.pc = (openingWidths buf lm).sum ∧ 0 < s'.pc ∧ s'.pc ≤ buf.nb := by
  have hsum : s'.pc = (openingWidths buf lm).sum := by simpa [hpc] using h.splits.pc_eq
  have hle : s'.pc ≤ buf.nb := by
    refine h.splits.pc_le ?_
    rw [Internal.cursor_pc, hpc]
    exact Nat.zero_le _
  exact ⟨hsum, hsum ▸ openingWidths_sum_pos buf lm, hle⟩

/-- The ModRM byte of the encoding settles nothing, whether it can be read or not. -/
theorem decodeRealModrm_settled (db : Db) (h : Opened buf lm s s') :
    (decodeRealModrm db buf s').settled = s'.settled := by
  by_cases hmiss : ModrmMissing db buf s'
  · exact (decodeRealModrm_of_missing hmiss (h.modrm hmiss.1.2)).1
  · exact (decodeRealModrm_of_present hmiss h.modrm).1

end Opened

/-- From the ModRM byte on nothing changes but what an argument may write. -/
theorem decodeSelected_outline (db : Db) (buf : Buffer) (s : Internal) :
    (decodeSelected db buf s).outline =
      (beginTemplate db (decodeRealModrm db buf s)).outline := by
  have hnodes := decodeNodes_outline db buf (templateNodes db (decodeRealModrm db buf s)) 0
    (beginTemplate db (decodeRealModrm db buf s))
  unfold decodeSelected
  cases hr : decodeNodes db buf (templateNodes db (decodeRealModrm db buf s)) 0
    (beginTemplate db (decodeRealModrm db buf s)) with
  | mk ok t =>
      rw [decodeTemplate_of_nodes hr, ← hnodes, hr]
      cases ok <;> rfl

theorem accepted_length_ne_zero {db : Db} {ctx : Context} {stale s : Internal} {insn : Insn}
    (h : accepted db ctx stale insn = some s) : ctx.length ≠ 0 := by
  intro hzero
  obtain ⟨-, hpos, hle⟩ := (accepted_opened h).pc_bounds rfl
  have hnb : (contextBuffer ctx).nb = 0 := by simp [contextBuffer, hzero]
  omega

theorem decodeInsn_fst (db : Db) (ctx : Context) (stale : Internal) (insn : Insn) :
    (decodeInsn db ctx stale insn).1 = (accepted db ctx stale insn).isSome := by
  by_cases hzero : ctx.length = 0
  · have hnone : accepted db ctx stale insn = none := by
      cases h : accepted db ctx stale insn with
      | none => rfl
      | some s => exact absurd hzero (accepted_length_ne_zero h)
    simp [decodeInsn, decodeRun, hzero, hnone]
  · rw [accepted, ← decodeEntry_fst]
    simp only [decodeInsn, decodeRun, hzero, if_false]

/-- What an accepted instruction leaves behind. -/
theorem decodeRun_of_accepted {db : Db} {ctx : Context} {stale s : Internal} {insn : Insn}
    (h : accepted db ctx stale insn = some s) :
    decodeRun db ctx stale insn =
      (true, { decodeSelected db (contextBuffer ctx) s with
        insn.length := (decodeSelected db (contextBuffer ctx) s).pc }) := by
  have hentry := decodeEntry_of_selected h
  simp only [decodeRun, accepted_length_ne_zero h, if_false, hentry]

theorem decodeInsn_of_accepted {db : Db} {ctx : Context} {stale s : Internal} {insn : Insn}
    (h : accepted db ctx stale insn = some s) :
    decodeInsn db ctx stale insn =
      (true, { (decodeSelected db (contextBuffer ctx) s).insn with
        length := (decodeSelected db (contextBuffer ctx) s).pc }) := by
  simp only [decodeInsn, decodeRun_of_accepted h]

/-! ## The length -/

/-- Where the arguments of a selected template start. -/
def operandStart (db : Db) (buf : Buffer) (s : Internal) : Nat :=
  if ModrmMissing db buf s then (s.pc + 1) % 256
  else s.pc + (fitting buf.nb s.pc (encodingWidths db buf s)).sum

/-- The widths of the fields the arguments read. -/
def operandWidths (db : Db) (buf : Buffer) (s : Internal) : List Nat :=
  (operandWalk db buf.window s (operandStart db buf s)).fields.map fun f => f.bytes.length

/-- What is consumed behind the opcode. -/
structure Layout (db : Db) (buf : Buffer) (s : Internal) : Prop where
  view : (decodeSelected db buf s).view =
    (operandWalk db buf.window s (operandStart db buf s)).toView
  present : ¬ModrmMissing db buf s → Splits buf s.cursor (decodeSelected db buf s).cursor
    (fitting buf.nb s.pc (encodingWidths db buf s) ++ operandWidths db buf s) True
  missing : ModrmMissing db buf s →
    Splits buf ⟨(s.pc + 1) % 256, s.insn.x86.log.add absentModrm⟩
      (decodeSelected db buf s).cursor (operandWidths db buf s) True

theorem Opened.layout (db : Db) {buf : Buffer} {lm : Bool} {s s' : Internal}
    (h : Opened buf lm s s') : Layout db buf s' := by
  by_cases hmiss : ModrmMissing db buf s'
  · obtain ⟨hset, hcur⟩ := decodeRealModrm_of_missing hmiss (h.modrm hmiss.1.2)
    have hops := decodeSelected_operands db buf h.vmem h.vreg hset
    have hstart : operandStart db buf s' = (s'.pc + 1) % 256 := if_pos hmiss
    rw [hcur] at hops
    refine ⟨?_, fun hnot => absurd hmiss hnot, fun _ => ?_⟩
    · rw [hstart]
      exact hops.view
    · rw [operandWidths, hstart]
      exact hops.splits
  · obtain ⟨hset, hsplits⟩ := decodeRealModrm_of_present hmiss h.modrm
    have hops := decodeSelected_operands db buf h.vmem h.vreg hset
    have hstart : operandStart db buf s' = (decodeRealModrm db buf s').cursor.pc :=
      (if_neg hmiss).trans hsplits.pc_eq.symm
    refine ⟨?_, fun _ => ?_, fun hm => absurd hm hmiss⟩
    · rw [hstart]
      exact hops.view
    · rw [operandWidths, hstart]
      simpa using hsplits.trans hops.splits

theorem ModrmMissing.pc_eq {db : Db} {buf : Buffer} {lm : Bool} {s s' : Internal}
    (h : ModrmMissing db buf s') (ho : Opened buf lm s s') (hpc : s.pc = 0) : s'.pc = buf.nb := by
  obtain ⟨-, -, hle⟩ := ho.pc_bounds hpc
  exact Nat.le_antisymm hle (Nat.le_of_lt_succ h.2)

/-- With its ModRM byte inside the buffer an instruction ends inside the buffer. -/
theorem length_of_present {db : Db} {buf : Buffer} {lm : Bool} {s s' : Internal}
    (ho : Opened buf lm s s') (hpc : s.pc = 0) (hm : ¬ModrmMissing db buf s') :
    0 < (decodeSelected db buf s').pc ∧ (decodeSelected db buf s').pc ≤ buf.nb := by
  obtain ⟨-, hpos, hle⟩ := ho.pc_bounds hpc
  have hsplits := (ho.layout db).present hm
  have hge := hsplits.pc_eq
  simp only [Internal.cursor_pc] at hge
  exact ⟨by omega, hsplits.pc_le hle⟩

/-- Without it the counter ends one byte behind the buffer, or wraps to the start. -/
theorem length_of_missing {db : Db} {buf : Buffer} {lm : Bool} {s s' : Internal}
    (ho : Opened buf lm s s') (hpc : s.pc = 0) (hm : ModrmMissing db buf s') :
    (buf.nb < 255 → (decodeSelected db buf s').pc = buf.nb + 1) ∧
      (buf.nb = 255 → (decodeSelected db buf s').pc = (operandWidths db buf s').sum ∧
        (decodeSelected db buf s').pc ≤ buf.nb) := by
  have hnb := hm.pc_eq ho hpc
  have hsplits := (ho.layout db).missing hm
  rw [hnb] at hsplits
  constructor
  · intro hlt
    have hmod : (buf.nb + 1) % 256 = buf.nb + 1 := Nat.mod_eq_of_lt (by omega)
    rw [hmod] at hsplits
    obtain ⟨fs, hc, -, -⟩ := hsplits
    obtain rfl := hc.eq_nil_of_outside (Nat.lt_succ_self _)
    simpa using hc.pc
  · intro heq
    rw [heq] at hsplits
    exact ⟨by simpa using hsplits.pc_eq, by rw [heq]; simpa [heq] using hsplits.pc_le (Nat.zero_le _)⟩

/-! ## The record -/

/-- The value bytes of the recorded bytecodes, one behind the other. -/
def recordedBytes (insn : Insn) : List UInt8 :=
  (insn.x86.log.entries.map fun f => f.bytes).flatten

/-- The recorded bytecodes are the bytes of the instruction. -/
structure FaithfulRecord (ctx : Context) (insn : Insn) : Prop where
  inside : (insn.length : Int) ≤ ctx.length
  intact : insn.overrun = false
  bytes : recordedBytes insn = slice ctx.address 0 insn.length

/-- The first `n` of a list of fields spell all of it exactly when each of them is in the
order of the input and those behind them are empty. -/
theorem recorded_eq_iff {mem : Nat → UInt8} {fs : List Bytecode}
    (h : Spells mem 0 (fs.map inputBytes)) (n : Nat) :
    ((fs.take n).map fun f => f.bytes).flatten = slice mem 0 (width fs) ↔
      (∀ f ∈ fs, f.bytes = inputBytes f) ∧ ∀ w ∈ (fs.map fun f => f.bytes.length).drop n, w = 0 := by
  have hinput : (fs.map inputBytes).flatten = slice mem 0 (width fs) := by
    rw [h.flatten, flatten_inputBytes_length]
  have hsum : width (fs.take n) + width (fs.drop n) = width fs := by
    rw [← width_append, List.take_append_drop]
  have hwidth : ∀ gs : List Bytecode, (gs.map fun f => f.bytes).flatten.length = width gs := by
    intro gs
    rw [List.length_flatten, List.map_map]
    rfl
  constructor
  · intro heq
    have hlen : width (fs.take n) = width fs := by
      rw [← hwidth, heq, slice_length]
    have hdrop : ∀ f ∈ fs.drop n, f.bytes.length = 0 := by
      have hzero : ((fs.drop n).map fun f => f.bytes.length).sum = 0 := by
        change width (fs.drop n) = 0
        omega
      intro f hf
      exact List.sum_eq_zero_iff_forall_eq_nat.mp hzero _ (List.mem_map_of_mem hf)
    have htail : ((fs.drop n).map fun f => f.bytes).flatten = [] := by
      rw [List.flatten_eq_nil_iff]
      intro bs hbs
      obtain ⟨f, hf, rfl⟩ := List.mem_map.mp hbs
      exact List.length_eq_zero_iff.mp (hdrop f hf)
    have hall : (fs.map fun f => f.bytes) = fs.map inputBytes := by
      rw [List.eq_iff_flatten_eq, hinput, ← heq]
      constructor
      · conv_lhs => rw [← List.take_append_drop n fs]
        rw [List.map_append, List.flatten_append, htail, List.append_nil]
      · rw [List.map_map, List.map_map]
        exact List.map_congr_left fun f _ => (inputBytes_length f).symm
    refine ⟨fun f hf => List.map_inj_left.mp hall f hf, ?_⟩
    intro w hw
    rw [← List.map_drop] at hw
    obtain ⟨f, hf, rfl⟩ := List.mem_map.mp hw
    exact hdrop f hf
  · rintro ⟨horder, hempty⟩
    rw [← hinput, ← List.map_congr_left horder]
    conv_rhs => rw [← List.take_append_drop n fs]
    rw [List.map_append, List.flatten_append, List.self_eq_append_right, List.flatten_eq_nil_iff]
    intro bs hbs
    obtain ⟨f, hf, rfl⟩ := List.mem_map.mp hbs
    refine List.length_eq_zero_iff.mp (hempty _ ?_)
    rw [← List.map_drop]
    exact List.mem_map_of_mem hf

/-- The state and the input leave nothing of the instruction out of its record. -/
structure RecordComplete (db : Db) (ctx : Context) (s : Internal) : Prop where
  slots : (operandWalk db (contextBuffer ctx).window s
    (operandStart db (contextBuffer ctx) s)).overrun = false
  fields :
    let buf := contextBuffer ctx
    let lm := longModeOf ctx.machineMode ctx.features
    if ¬ModrmMissing db buf s then
      ¬SwappedMap buf (prefixCount buf lm) ∧
        ∀ w ∈ (openingWidths buf lm ++ (fitting buf.nb s.pc (encodingWidths db buf s) ++
          operandWidths db buf s)).drop maxBytecodeCount, w = 0
    else if buf.nb < 255 then
      -- the byte behind the 8-bit count is recorded as 0
      256 ≤ ctx.length ∧ buf.address buf.nb = 0 ∧ ¬SwappedMap buf (prefixCount buf lm) ∧
        (openingWidths buf lm).length < maxBytecodeCount
    else
      -- the counter wraps, and the record is full of prefixes
      (operandWidths db buf s).sum = maxBytecodeCount

theorem escapeWidth_le (buf : Buffer) (lm : Bool) (pos : Nat) : escapeWidth buf lm pos ≤ 4 := by
  have hvector : vectorWidth buf lm pos ≤ 4 := by
    unfold vectorWidth
    split
    · exact Nat.zero_le _
    · rename_i n accepts h
      obtain ⟨op, -, hop⟩ := Option.bind_eq_some_iff.mp h
      have hn : n ≤ 4 := by
        unfold vectorPrefix at hop
        split at hop <;> simp at hop <;> omega
      split
      · exact hn
      · exact Nat.zero_le _
  have hmap : (mapField buf pos).bytes.length ≤ 2 := by
    unfold mapField
    split <;> simp
  unfold escapeWidth
  split
  · omega
  · exact hvector

/-- Fields consumed from an empty record on are recorded as far as there is room. -/
theorem entries_of_splits {buf : Buffer} {c c' : Cursor} {ws : List Nat} {p : Prop}
    (h : Splits buf c c' ws p) (hpc : c.pc = 0) (hcount : c.log.bytecodeCount = 0) :
    ∃ fs, c'.log.entries = fs.take maxBytecodeCount ∧ c'.log = fs.foldl BytecodeLog.add c.log ∧
      Spells buf.address 0 (fs.map inputBytes) ∧ c'.pc = width fs ∧
      fs.map (fun f => f.bytes.length) = ws ∧ ((∀ f ∈ fs, f.bytes = inputBytes f) ↔ p) := by
  obtain ⟨fs, hc, hws, hp⟩ := h
  refine ⟨fs, ?_, hc.log, hpc ▸ hc.spells, by rw [hc.pc, hpc, Nat.zero_add], hws, hp⟩
  have hnil : c.log.entries = [] := List.length_eq_zero_iff.mp (by simpa using hcount)
  rw [hc.log, BytecodeLog.entries_foldl_add (by omega), hnil, List.nil_append]

section Record

variable {db : Db} {buf : Buffer} {lm : Bool} {s s' : Internal}

/-- The record when the ModRM byte is inside the buffer. -/
theorem recordedBytes_of_present (ho : Opened buf lm s s') (hpc : s.pc = 0)
    (hcount : s.insn.x86.log.bytecodeCount = 0) (hm : ¬ModrmMissing db buf s') :
    recordedBytes (decodeSelected db buf s').insn =
        slice buf.address 0 (decodeSelected db buf s').pc ↔
      ¬SwappedMap buf (prefixCount buf lm) ∧
        ∀ w ∈ (openingWidths buf lm ++ (fitting buf.nb s'.pc (encodingWidths db buf s') ++
          operandWidths db buf s')).drop maxBytecodeCount, w = 0 := by
  obtain ⟨fs, hentries, -, hspells, hpc', hws, horder⟩ :=
    entries_of_splits (ho.splits.trans ((ho.layout db).present hm)) hpc hcount
  rw [and_true] at horder
  have hentries' : (decodeSelected db buf s').insn.x86.log.entries = fs.take maxBytecodeCount :=
    hentries
  have hpc'' : (decodeSelected db buf s').pc = width fs := hpc'
  rw [recordedBytes, hentries', hpc'', recorded_eq_iff hspells, horder, hws]

/-- The record when the ModRM byte lies behind the buffer and the counter does not wrap. -/
theorem recordedBytes_of_missing (ho : Opened buf lm s s') (hpc : s.pc = 0)
    (hcount : s.insn.x86.log.bytecodeCount = 0) (hm : ModrmMissing db buf s')
    (hnb : buf.nb < 255) :
    recordedBytes (decodeSelected db buf s').insn =
        slice buf.address 0 (decodeSelected db buf s').pc ↔
      buf.address buf.nb = 0 ∧ ¬SwappedMap buf (prefixCount buf lm) ∧
        (openingWidths buf lm).length < maxBytecodeCount := by
  obtain ⟨fs, -, hlog, hspells, hpc', hws, horder⟩ := entries_of_splits ho.splits hpc hcount
  have hnb' : width fs = buf.nb := hpc'.symm.trans (hm.pc_eq ho hpc)
  have hlen : (openingWidths buf lm).length = fs.length := by rw [← hws, List.length_map]
  -- behind the buffer the arguments read nothing
  have hend : (decodeSelected db buf s').insn.x86.log =
      (fs ++ [absentModrm]).foldl BytecodeLog.add s.insn.x86.log := by
    obtain ⟨gs, hc, -, -⟩ := (ho.layout db).missing hm
    have hmod : (s'.pc + 1) % 256 = buf.nb + 1 := by
      rw [hm.pc_eq ho hpc]
      exact Nat.mod_eq_of_lt (by omega)
    rw [hmod] at hc
    obtain rfl := hc.eq_nil_of_outside (Nat.lt_succ_self _)
    rw [List.foldl_append]
    exact hc.log.trans (congrArg (BytecodeLog.add · _) hlog)
  have hentries : (decodeSelected db buf s').insn.x86.log.entries =
      (fs ++ [absentModrm]).take maxBytecodeCount := by
    have hnil : s.insn.x86.log.entries = [] := List.length_eq_zero_iff.mp (by simpa using hcount)
    rw [hend, BytecodeLog.entries_foldl_add (by omega), hnil, List.nil_append]
  rw [recordedBytes, hentries, (length_of_missing ho hpc hm).1 hnb, hlen]
  by_cases hroom : fs.length < maxBytecodeCount
  · have horder' := recorded_eq_iff hspells maxBytecodeCount
    rw [List.take_of_length_le (by omega), hnb', horder,
      List.drop_of_length_le (by rw [List.length_map]; omega)] at horder'
    rw [List.take_of_length_le (by rw [List.length_append]; simp; omega), slice_append,
      List.map_append, List.flatten_append]
    constructor
    · intro heq
      obtain ⟨hfs, hlast⟩ := List.append_inj' heq (by simp [absentModrm])
      exact ⟨by simpa [absentModrm, eq_comm] using hlast, (horder'.mp hfs).1, hroom⟩
    · rintro ⟨hzero, hswap, -⟩
      rw [horder'.mpr ⟨hswap, by simp⟩]
      simp [absentModrm, hzero]
  · refine iff_of_false ?_ fun h => hroom h.2.2
    intro heq
    have hwidth : width (fs.take maxBytecodeCount) + width (fs.drop maxBytecodeCount) = width fs := by
      rw [← width_append, List.take_append_drop]
    rw [List.take_append_of_le_length (by omega)] at heq
    have hbytes := congrArg List.length heq
    rw [slice_length, List.length_flatten, List.map_map] at hbytes
    change width (fs.take maxBytecodeCount) = buf.nb + 1 at hbytes
    omega

/-- The record when the ModRM byte lies behind a buffer of 255 bytes: it is full of
prefixes, and the counter ends where the arguments read from the start of the buffer end. -/
theorem recordedBytes_of_wrapped (ho : Opened buf lm s s') (hpc : s.pc = 0)
    (hcount : s.insn.x86.log.bytecodeCount = 0) (hm : ModrmMissing db buf s')
    (hnb : buf.nb = 255) :
    recordedBytes (decodeSelected db buf s').insn =
        slice buf.address 0 (decodeSelected db buf s').pc ↔
      (operandWidths db buf s').sum = maxBytecodeCount := by
  obtain ⟨fs, -, hlog, hspells, hpc', hws, -⟩ := entries_of_splits ho.splits hpc hcount
  have hnow : ¬ThreeDNow buf (prefixCount buf lm) := fun h => hm.1.2 (ho.threeDNow.mpr h)
  have hopening : openingWidths buf lm = List.replicate (prefixCount buf lm) 1 ++
      (readOf (escapeWidth buf lm (prefixCount buf lm)) ++ [1]) := by
    simp [openingWidths, hnow]
  have hsum : (openingWidths buf lm).sum = 255 := by
    rw [← (ho.pc_bounds hpc).1, hm.pc_eq ho hpc, hnb]
  have hprefixes : maxBytecodeCount ≤ prefixCount buf lm := by
    have hesc := escapeWidth_le buf lm (prefixCount buf lm)
    rw [hopening, List.sum_append, List.sum_append, readOf_sum] at hsum
    simp only [List.sum_replicate_nat, List.sum_cons, List.sum_nil] at hsum
    simp only [maxBytecodeCount]
    omega
  have hlen : maxBytecodeCount ≤ fs.length := by
    have := congrArg List.length hws
    rw [hopening] at this
    simp only [List.length_map, List.length_append, List.length_replicate] at this
    omega
  -- the record is full when the ModRM byte is offered to it
  have hentries : (decodeSelected db buf s').insn.x86.log.entries = fs.take maxBytecodeCount := by
    have hnil : s.insn.x86.log.entries = [] := List.length_eq_zero_iff.mp (by simpa using hcount)
    obtain ⟨gs, hc, -, -⟩ := (ho.layout db).missing hm
    have hlog' : (decodeSelected db buf s').insn.x86.log =
        (fs ++ absentModrm :: gs).foldl BytecodeLog.add s.insn.x86.log := by
      rw [List.foldl_append, List.foldl_cons]
      exact hc.log.trans (congrArg (fun l => gs.foldl BytecodeLog.add (l.add absentModrm)) hlog)
    rw [hlog', BytecodeLog.entries_foldl_add (by omega), hnil, List.nil_append,
      List.take_append_of_le_length hlen]
  have hones : (fs.take maxBytecodeCount).map (fun f => f.bytes.length) =
      List.replicate maxBytecodeCount 1 := by
    rw [List.map_take, hws, hopening,
      List.take_append_of_le_length (by rw [List.length_replicate]; exact hprefixes),
      List.take_replicate, Nat.min_eq_left hprefixes]
  have hfirst : ((fs.take maxBytecodeCount).map fun f => f.bytes).flatten =
      slice buf.address 0 maxBytecodeCount := by
    have hwidth : width (fs.take maxBytecodeCount) = maxBytecodeCount := by
      rw [width, hones, List.sum_replicate_nat, Nat.mul_one]
    have hsp : Spells buf.address 0 ((fs.take maxBytecodeCount).map inputBytes) := by
      rw [← List.take_append_drop maxBytecodeCount fs, List.map_append, spells_append] at hspells
      exact hspells.1
    have hiff := recorded_eq_iff hsp maxBytecodeCount
    rw [List.take_take, Nat.min_self, hwidth, hones, List.drop_replicate, Nat.sub_self] at hiff
    refine hiff.mpr ⟨fun f hf => ?_, by simp⟩
    have hone : f.bytes.length = 1 :=
      List.eq_of_mem_replicate
        (hones ▸ List.mem_map_of_mem (f := fun f : Bytecode => f.bytes.length) hf)
    obtain ⟨b, hb⟩ := List.length_eq_one_iff.mp hone
    simp [inputBytes, hb]
  rw [recordedBytes, hentries, hfirst, ((length_of_missing ho hpc hm).2 hnb).1]
  constructor
  · intro heq
    simpa using (congrArg List.length heq).symm
  · intro heq
    rw [heq]

end Record

theorem contextBuffer_nb_le {ctx : Context} (h : 0 ≤ ctx.length) :
    ((contextBuffer ctx).nb : Int) ≤ ctx.length := by
  change ((ctx.length % 256).toNat : Int) ≤ ctx.length
  omega

/-- The recorded bytecodes are the bytes of the instruction exactly when no field is
swapped, dropped or taken from behind the buffer. -/
theorem faithfulRecord_iff {db : Db} {ctx : Context} {stale s : Internal} {insn : Insn}
    (hcount : insn.x86.log.bytecodeCount = 0) (hlen : 0 ≤ ctx.length)
    (h : accepted db ctx stale insn = some s) :
    FaithfulRecord ctx (decodeInsn db ctx stale insn).2 ↔ RecordComplete db ctx s := by
  have ho := accepted_opened h
  have hnb := contextBuffer_nb_le hlen
  have hslots : (decodeSelected db (contextBuffer ctx) s).insn.overrun =
      (operandWalk db (contextBuffer ctx).window s
        (operandStart db (contextBuffer ctx) s)).overrun :=
    congrArg View.overrun (ho.layout db).view
  have hsplit : FaithfulRecord ctx (decodeInsn db ctx stale insn).2 ↔
      (operandWalk db (contextBuffer ctx).window s
        (operandStart db (contextBuffer ctx) s)).overrun = false ∧
      ((decodeSelected db (contextBuffer ctx) s).pc : Int) ≤ ctx.length ∧
      recordedBytes (decodeSelected db (contextBuffer ctx) s).insn =
        slice ctx.address 0 (decodeSelected db (contextBuffer ctx) s).pc := by
    rw [decodeInsn_of_accepted h, ← hslots]
    exact ⟨fun hf => ⟨hf.intact, hf.inside, hf.bytes⟩, fun hf => ⟨hf.2.1, hf.1, hf.2.2⟩⟩
  rw [hsplit]
  by_cases hm : ModrmMissing db (contextBuffer ctx) s
  · have hwrap := length_of_missing ho rfl hm
    by_cases hlt : (contextBuffer ctx).nb < 255
    · have hbytes := recordedBytes_of_missing ho rfl hcount hm hlt
      have hpc := hwrap.1 hlt
      rw [show ctx.address = (contextBuffer ctx).address from rfl, hbytes, hpc]
      have hfits : ((((contextBuffer ctx).nb + 1 : Nat) : Int) ≤ ctx.length) ↔ 256 ≤ ctx.length := by
        change ((((ctx.length % 256).toNat + 1 : Nat) : Int) ≤ ctx.length) ↔ _
        change (ctx.length % 256).toNat < 255 at hlt
        omega
      rw [hfits]
      constructor
      · rintro ⟨hslots, hrest⟩
        exact ⟨hslots, by simpa [hm, hlt] using hrest⟩
      · rintro ⟨hslots, hrest⟩
        exact ⟨hslots, by simpa [hm, hlt] using hrest⟩
    · have heq : (contextBuffer ctx).nb = 255 := by
        have := (contextBuffer ctx).nb_lt
        omega
      have hbytes := recordedBytes_of_wrapped ho rfl hcount hm heq
      have hpc := (hwrap.2 heq).2
      rw [show ctx.address = (contextBuffer ctx).address from rfl, hbytes]
      constructor
      · rintro ⟨hslots, -, hrest⟩
        exact ⟨hslots, by simpa [hm, hlt] using hrest⟩
      · rintro ⟨hslots, hrest⟩
        exact ⟨hslots, by omega, by simpa [hm, hlt] using hrest⟩
  · have hbytes := recordedBytes_of_present ho rfl hcount hm
    have hpc := (length_of_present ho rfl hm).2
    rw [show ctx.address = (contextBuffer ctx).address from rfl, hbytes]
    constructor
    · rintro ⟨hslots, -, hrest⟩
      exact ⟨hslots, by simpa [hm] using hrest⟩
    · rintro ⟨hslots, hrest⟩
      exact ⟨hslots, by omega, by simpa [hm] using hrest⟩

open Excerpt in
/-- The record of `HLT` is its opcode. -/
theorem faithfulRecord_hlt :
    FaithfulRecord (contextOf .mode32 [0xf4] 1)
      (decodeInsn tables (contextOf .mode32 [0xf4] 1) default default).2 := by
  have h : (accepted tables (contextOf .mode32 [0xf4] 1) default default).isSome := by decide
  exact (faithfulRecord_iff rfl (by decide) (Option.some_get h).symm).mpr
    ⟨by decide +revert, by decide +revert⟩

open Excerpt in
/-- `PSHUFB mm0, mm0` is 0F 38 00 C0; its record starts with 38 0F. -/
theorem not_faithfulRecord_pshufb :
    ¬∀ (db : Db) (ctx : Context) (stale : Internal) (insn : Insn),
      insn.x86.log.bytecodeCount = 0 → 0 ≤ ctx.length →
        (decodeInsn db ctx stale insn).1 = true →
          FaithfulRecord ctx (decodeInsn db ctx stale insn).2 := by
  intro h
  have hbytes := (h tables (contextOf .mode32 [0x0f, 0x38, 0x00, 0xc0] 4) default default rfl
    (by decide) (by decide)).bytes
  exact absurd hbytes (by decide)

end Amed.X86

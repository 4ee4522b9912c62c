import Amed.X86.Trace

/-!
# The prefix run

What one prefix byte does, what the prefix loop consumes, and what the escape behind
it consumes. `decodePrefix_eq` separates the byte that is read from its effect: the
effect does not look at the buffer again.
-/

namespace Amed.X86

open Bytes

/-- The bytes the prefix loop steps over: the legacy prefixes, and REX in long mode. -/
def isPrefixByte (longMode : Bool) (op : UInt8) : Bool :=
  if isRexByte op then longMode
  else
    match op.toNat with
    | 0x26 | 0x2e | 0x36 | 0x3e | 0x64 | 0x65 | 0x66 | 0x67 | 0xf0 | 0xf2 | 0xf3 => true
    | _ => false

/-- Override the segment. -/
def segmentEffect (s : Internal) (segment : Nat) : Internal :=
  { s with
    insn.attributes.isUgly := s.insn.attributes.isUgly || s.segment ≠ 0
    segment := segment }

/-- Take the extension bits of a REX byte over. -/
def rexEffect (s : Internal) (op : UInt8) : Internal :=
  { s with
    vfpc := (s.vfpc + 1) % 256
    diagram := Diagram.setWField { s.diagram with
      fb := bit op 0, b := bit op 0, x := bit op 1, r := bit op 2, hasRex := true }
        (bit op 3) }

/-- What a prefix byte changes besides the counter and the record. -/
def prefixEffect (df : DefaultSizes) (s : Internal) (op : UInt8) : Internal :=
  if isRexByte op then rexEffect s op
  else
    match op.toNat with
    | 0x26 => segmentEffect s Register.es
    | 0x2e => segmentEffect s Register.cs
    | 0x36 => segmentEffect s Register.ss
    | 0x3e => segmentEffect s Register.ds
    | 0x64 => segmentEffect s Register.fs
    | 0x65 => segmentEffect s Register.gs
    | 0x66 =>
        { s with
          vfpc := (s.vfpc + 1) % 256
          diagram := { s.diagram with p66 := true, osz := df.opsize / 2 } }
    | 0x67 => { s with diagram.asz := df.adsize / 2 }
    | 0xf0 => { s with vfpc := (s.vfpc + 1) % 256, diagram.f0 := true }
    | 0xf2 =>
        { s with vfpc := (s.vfpc + 1) % 256, lastFPrefix := prefixF2, diagram.f2 := true }
    | 0xf3 =>
        { s with vfpc := (s.vfpc + 1) % 256, lastFPrefix := prefixF3, diagram.f3 := true }
    | _ => s

/-- The type a prefix byte is recorded under. -/
def prefixType (op : UInt8) : BytecodeType := if isRexByte op then .rex else .prefixByte

/-- Take a prefix byte in. -/
def applyPrefix (df : DefaultSizes) (s : Internal) (op : UInt8) : Internal :=
  ((prefixEffect df s op).advance 1).addBytecode (prefixType op) [op]

theorem decodeRex_eq {buf : Buffer} (df : DefaultSizes) {s : Internal} {op : UInt8}
    (h : buf.peekByte s.pc = some op) (hrex : isRexByte op) :
    decodeRex buf s = if s.diagram.longMode then some (applyPrefix df s op) else none := by
  obtain ⟨hin, hop⟩ := peekByte_eq_some.mp h
  have htake : s.takeBytes buf .rex 1 = some ([op], (s.advance 1).addBytecode .rex [op]) :=
    takeBytes_eq_some.mpr ⟨hin, by simp [hop], rfl⟩
  have heff : applyPrefix df s op = ((rexEffect s op).advance 1).addBytecode .rex [op] := by
    simp [applyPrefix, prefixEffect, prefixType, hrex]
  rw [heff]
  unfold decodeRex
  rw [htake]
  by_cases hl : s.diagram.longMode
  · simp only [hl, Bool.not_true, Bool.false_eq_true, if_false, if_true]
    rfl
  · simp [hl]

/-- A pass of the loop takes the byte at the counter in when it is a prefix byte. -/
theorem decodePrefix_eq {buf : Buffer} (df : DefaultSizes) {s : Internal} {op : UInt8}
    (h : buf.peekByte s.pc = some op) :
    decodePrefix buf df s op =
      if isPrefixByte s.diagram.longMode op then some (applyPrefix df s op) else none := by
  by_cases hrex : isRexByte op
  · simp only [decodePrefix, isPrefixByte, hrex, if_true, decodeRex_eq df h hrex]
  · have happ : applyPrefix df s op =
        ((prefixEffect df s op).advance 1).addBytecode .prefixByte [op] := by
      simp [applyPrefix, prefixType, hrex]
    rw [happ]
    unfold decodePrefix isPrefixByte prefixEffect
    simp only [hrex, if_false, Bool.false_eq_true]
    split <;> simp_all [addSegment, addPrefix, segmentEffect] <;> rfl

theorem prefixStep_eq {buf : Buffer} {df : DefaultSizes} {s : Internal} {op : UInt8}
    (h : buf.peekByte s.pc = some op) :
    prefixStep buf df s =
      if isPrefixByte s.diagram.longMode op then some (applyPrefix df s op) else none := by
  simp only [prefixStep, h, Option.bind_some, decodePrefix_eq df h]

theorem prefixStep_none {buf : Buffer} {df : DefaultSizes} {s : Internal}
    (h : buf.peekByte s.pc = none) : prefixStep buf df s = none := by
  simp only [prefixStep, h, Option.bind_none]

/-! ## What the opening of an instruction leaves alone -/

/-- The members that the prefixes, the escape and the opcode fetch do not touch. -/
structure Frame (s s' : Internal) : Prop where
  longMode : s'.diagram.longMode = s.diagram.longMode
  hasIs4 : s'.diagram.hasIs4 = s.diagram.hasIs4
  vmem : s'.vmem = s.vmem
  vreg : s'.vreg = s.vreg
  overrun : s'.insn.overrun = s.insn.overrun
  isUndefined : s'.insn.attributes.isUndefined = s.insn.attributes.isUndefined

namespace Frame

theorem refl (s : Internal) : Frame s s := ⟨rfl, rfl, rfl, rfl, rfl, rfl⟩

theorem trans {s s' s'' : Internal} (h : Frame s s') (h' : Frame s' s'') : Frame s s'' where
  longMode := h'.longMode.trans h.longMode
  hasIs4 := h'.hasIs4.trans h.hasIs4
  vmem := h'.vmem.trans h.vmem
  vreg := h'.vreg.trans h.vreg
  overrun := h'.overrun.trans h.overrun
  isUndefined := h'.isUndefined.trans h.isUndefined

end Frame

theorem prefixEffect_frame (df : DefaultSizes) (s : Internal) (op : UInt8) :
    Frame s (prefixEffect df s op) := by
  unfold prefixEffect
  split
  · exact ⟨rfl, rfl, rfl, rfl, rfl, rfl⟩
  · split <;> exact ⟨rfl, rfl, rfl, rfl, rfl, rfl⟩

theorem prefixEffect_cursor (df : DefaultSizes) (s : Internal) (op : UInt8) :
    (prefixEffect df s op).cursor = s.cursor := by
  unfold prefixEffect
  split
  · rfl
  · split <;> rfl

theorem applyPrefix_frame (df : DefaultSizes) (s : Internal) (op : UInt8) :
    Frame s (applyPrefix df s op) := by
  obtain ⟨h₁, h₂, h₃, h₄, h₅, h₆⟩ := prefixEffect_frame df s op
  exact ⟨h₁, h₂, h₃, h₄, h₅, h₆⟩

theorem applyPrefix_pc (df : DefaultSizes) (s : Internal) (op : UInt8) :
    (applyPrefix df s op).pc = (s.pc + 1) % 256 := by
  have h : (prefixEffect df s op).pc = s.pc := congrArg Cursor.pc (prefixEffect_cursor df s op)
  change ((prefixEffect df s op).pc + 1) % 256 = _
  rw [h]

/-- The field a prefix byte is recorded as. -/
def prefixField (op : UInt8) : Bytecode := ⟨prefixType op, [op]⟩

@[simp] theorem inputBytes_prefixField (op : UInt8) : inputBytes (prefixField op) = [op] := by
  unfold inputBytes
  split <;> rfl

theorem applyPrefix_consumes {buf : Buffer} (df : DefaultSizes) {s : Internal} {op : UInt8}
    (h : buf.peekByte s.pc = some op) :
    Consumes buf s.cursor (applyPrefix df s op).cursor [prefixField op] := by
  obtain ⟨hin, hop⟩ := peekByte_eq_some.mp h
  have hcur := prefixEffect_cursor df s op
  have hpc : (prefixEffect df s op).pc = s.pc := congrArg Cursor.pc hcur
  rw [← hcur]
  apply consumes_advance buf (f := prefixField op)
  · simpa [prefixField, hpc] using hin
  · simp [prefixField, hpc, ← hop, inputBytes, prefixType]

/-! ## The prefix run -/

/-- The prefix bytes the input continues with from `pos` on. -/
def prefixBytes (buf : Buffer) (longMode : Bool) (pos : Nat) : List UInt8 :=
  (slice buf.address pos (buf.nb - pos)).takeWhile (isPrefixByte longMode)

theorem prefixBytes_of_none {buf : Buffer} {longMode : Bool} {pos : Nat}
    (h : buf.peekByte pos = none) : prefixBytes buf longMode pos = [] := by
  have hn : buf.nb - pos = 0 := by
    have := peekByte_eq_none.mp h
    omega
  simp [prefixBytes, hn]

theorem prefixBytes_of_some {buf : Buffer} {longMode : Bool} {pos : Nat} {op : UInt8}
    (h : buf.peekByte pos = some op) :
    prefixBytes buf longMode pos =
      if isPrefixByte longMode op then op :: prefixBytes buf longMode (pos + 1) else [] := by
  obtain ⟨hin, rfl⟩ := peekByte_eq_some.mp h
  have hn : buf.nb - pos = buf.nb - (pos + 1) + 1 := by omega
  simp only [prefixBytes, hn, slice_succ, List.takeWhile_cons]

/-- The loop takes in the prefix bytes, one after the other, and stops behind them. -/
theorem run_prefixStep {buf : Buffer} (df : DefaultSizes) {n : Nat} {s : Internal}
    (hn : buf.nb < s.pc + n) :
    Loop.run (prefixStep buf df) n s =
      (prefixBytes buf s.diagram.longMode s.pc).foldl (applyPrefix df) s := by
  induction n generalizing s with
  | zero =>
      have hnone : buf.peekByte s.pc = none := peekByte_eq_none.mpr (by omega)
      rw [Loop.run_zero, prefixBytes_of_none hnone, List.foldl_nil]
  | succ n ih =>
      cases hop : buf.peekByte s.pc with
      | none =>
          rw [Loop.run_of_none (prefixStep_none hop), prefixBytes_of_none hop, List.foldl_nil]
      | some op =>
          have hstep : prefixStep buf df s = _ := prefixStep_eq hop
          obtain ⟨hin, -⟩ := peekByte_eq_some.mp hop
          have hpc : (applyPrefix df s op).pc = s.pc + 1 := by
            rw [applyPrefix_pc, Nat.mod_eq_of_lt (Nat.lt_of_le_of_lt hin buf.nb_lt)]
          rw [prefixBytes_of_some hop]
          split
          · rename_i hpre
            rw [hpre, if_pos rfl] at hstep
            rw [Loop.run_of_some hstep, ih (by omega), hpc, (applyPrefix_frame df s op).longMode,
              List.foldl_cons]
          · rename_i hpre
            rw [if_neg hpre] at hstep
            rw [Loop.run_of_none hstep, List.foldl_nil]

/-- What the whole prefix run consumes and leaves alone. -/
theorem foldl_prefixBytes (buf : Buffer) (df : DefaultSizes) (longMode : Bool) (s : Internal)
    (hlong : s.diagram.longMode = longMode) :
    Consumes buf s.cursor ((prefixBytes buf longMode s.pc).foldl (applyPrefix df) s).cursor
        ((prefixBytes buf longMode s.pc).map prefixField) ∧
      Frame s ((prefixBytes buf longMode s.pc).foldl (applyPrefix df) s) := by
  generalize hps : prefixBytes buf longMode s.pc = ps
  induction ps generalizing s with
  | nil => exact ⟨Consumes.refl _ _, Frame.refl _⟩
  | cons op ps ih =>
      cases hop : buf.peekByte s.pc with
      | none => simp [prefixBytes_of_none hop] at hps
      | some op' =>
          obtain ⟨hin, -⟩ := peekByte_eq_some.mp hop
          rw [prefixBytes_of_some hop] at hps
          split at hps
          · obtain ⟨rfl, htail⟩ := List.cons.inj hps
            have hpc : (applyPrefix df s op').pc = s.pc + 1 := by
              rw [applyPrefix_pc, Nat.mod_eq_of_lt (Nat.lt_of_le_of_lt hin buf.nb_lt)]
            have hframe := applyPrefix_frame df s op'
            obtain ⟨hc, hf⟩ := ih (applyPrefix df s op') (hframe.longMode.trans hlong)
              (by rw [hpc]; exact htail)
            exact ⟨(applyPrefix_consumes df hop).trans hc, hframe.trans hf⟩
          · exact absurd hps (List.cons_ne_nil _ _).symm

/-- The prefix run ends behind the last prefix byte. -/
theorem foldl_prefixBytes_pc (buf : Buffer) (df : DefaultSizes) (s : Internal) :
    ((prefixBytes buf s.diagram.longMode s.pc).foldl (applyPrefix df) s).pc =
      s.pc + (prefixBytes buf s.diagram.longMode s.pc).length := by
  obtain ⟨hc, -⟩ := foldl_prefixBytes buf df s.diagram.longMode s rfl
  have hsum := hc.pc
  simp only [width, List.map_map] at hsum
  rw [show (fun f : Bytecode => f.bytes.length) ∘ prefixField = fun _ => 1 from rfl,
    List.map_const', List.sum_replicate_nat, Nat.mul_one] at hsum
  exact hsum

/-- What `decode_entry` does where no case leads back to the loop's start. -/
def leaveLoop (buf : Buffer) (s : Internal) : Internal :=
  match buf.peekByte s.pc with
  | none => s
  | some op => decodeEscape buf s op

theorem scanPrefixes_eq (buf : Buffer) (df : DefaultSizes) (s : Internal) :
    scanPrefixes buf df s =
      leaveLoop buf ((prefixBytes buf s.diagram.longMode s.pc).foldl (applyPrefix df) s) := by
  unfold scanPrefixes
  rw [run_prefixStep df (by omega)]
  rfl

end Amed.X86

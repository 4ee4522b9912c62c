import Mathlib.Data.List.TakeWhile
import Amed.Library.Folds
import Amed.X86.IllegalPrefix
import Amed.X86.Leftover
import Amed.X86.Shift

/-!
# A prefix run in front of the same bytes

The input whose bytes are a run of prefixes and the bytes of another input, and the states
that two such runs lead to. Behind its run each decoder sees the same bytes, so two runs whose
prefixes have settled the same go on side by side.
-/

namespace Amed.X86

open Bytes

/-- The input with a prefix run in front of its bytes. -/
def behind (ctx : Context) (run : List UInt8) : Context :=
  { ctx with
    address := fun i => if i < run.length then run.getD i 0 else ctx.address (i - run.length)
    length := ctx.length + run.length }

/-- Long mode as the input sets it. -/
def isLongMode (ctx : Context) : Bool := longModeOf ctx.machineMode ctx.features

/-! ## The bytes -/

theorem slice_behind (ctx : Context) (run : List UInt8) :
    slice (behind ctx run).address 0 run.length = run := by
  apply List.ext_getElem
  · simp
  · intro i h₁ h₂
    simp [slice, behind, h₂]

theorem behind_address_add (ctx : Context) (run : List UInt8) (i : Nat) :
    (behind ctx run).address (run.length + i) = ctx.address i := by
  change (if run.length + i < run.length then _ else _) = _
  rw [if_neg (by omega), Nat.add_sub_cancel_left]

/-- A run of prefix bytes inside the buffer is the head of the prefix run. -/
theorem prefixBytes_of_run {buf : Buffer} {longMode : Bool} {pos : Nat} {run : List UInt8}
    (hin : pos + run.length ≤ buf.nb) (hbytes : slice buf.address pos run.length = run)
    (hrun : ∀ op ∈ run, isPrefixByte longMode op = true) :
    prefixBytes buf longMode pos = run ++ prefixBytes buf longMode (pos + run.length) := by
  have hn : buf.nb - pos = run.length + (buf.nb - (pos + run.length)) := by omega
  unfold prefixBytes
  rw [hn, slice_append, hbytes, List.takeWhile_append_of_pos hrun]

/-- A run that reaches the buffer's end leaves no opcode. -/
theorem prefixBytes_of_run_all {buf : Buffer} {longMode : Bool} {run : List UInt8}
    (hout : buf.nb ≤ run.length) (hbytes : slice buf.address 0 run.length = run)
    (hrun : ∀ op ∈ run, isPrefixByte longMode op = true) :
    (prefixBytes buf longMode 0).length = buf.nb := by
  have htake : slice buf.address 0 buf.nb = run.take buf.nb := by
    rw [← hbytes, show run.length = buf.nb + (run.length - buf.nb) by omega, slice_append,
      List.take_left' (slice_length _ _ _)]
  unfold prefixBytes
  rw [Nat.sub_zero, htake, List.takeWhile_eq_self_iff.mpr fun op hop =>
    hrun op (List.mem_of_mem_take hop), List.length_take]
  omega

/-- An input is accepted only if its run ends before the counted bytes do. -/
theorem run_lt_of_accepts {ctx : Context} {run : List UInt8}
    (hrun : ∀ op ∈ run, isPrefixByte (isLongMode ctx) op = true)
    (hacc : Accepts (behind ctx run)) : run.length < (contextBuffer (behind ctx run)).nb := by
  by_contra hout
  have hcount := prefixBytes_of_run_all (Nat.le_of_not_lt hout) (slice_behind ctx run) hrun
  have hsum := hacc.2
  have hle : prefixCount (contextBuffer (behind ctx run)) (isLongMode ctx) + 1 ≤
      (openingWidths (contextBuffer (behind ctx run)) (isLongMode ctx)).sum := by
    simp only [openingWidths, List.sum_append, List.sum_replicate_nat, List.sum_cons, List.sum_nil]
    omega
  have hall : prefixCount (contextBuffer (behind ctx run)) (isLongMode ctx) =
      (contextBuffer (behind ctx run)).nb := hcount
  have hsum' : (openingWidths (contextBuffer (behind ctx run)) (isLongMode ctx)).sum ≤
      (contextBuffer (behind ctx run)).nb := hsum
  omega

/-! ## The states behind two runs -/

theorem foldl_applyPrefix_pc (df : DefaultSizes) (run : List UInt8) {s : Internal}
    (hfit : s.pc + run.length < 256) : (run.foldl (applyPrefix df) s).pc = s.pc + run.length := by
  induction run generalizing s with
  | nil => rfl
  | cons op run ih =>
      rw [List.length_cons] at hfit
      have hpc : (applyPrefix df s op).pc = s.pc + 1 := by
        rw [applyPrefix_pc, Nat.mod_eq_of_lt (by omega)]
      rw [List.foldl_cons, ih (by omega), hpc, List.length_cons]
      omega

/-- The count is 0 exactly behind a run without illegal prefixes. -/
theorem foldl_applyPrefix_vfpc_eq_zero (df : DefaultSizes) {s : Internal} (hzero : s.vfpc = 0)
    {run : List UInt8} (hlt : run.length < 256) :
    (run.foldl (applyPrefix df) s).vfpc = 0 ↔ ∀ op ∈ run, ¬isIllegalPrefix op = true := by
  have hbound : run.countP isIllegalPrefix ≤ run.length := List.countP_le_length
  rw [foldl_applyPrefix_vfpc df run (by omega), hzero, Nat.zero_add, Nat.mod_eq_of_lt (by omega),
    List.countP_eq_zero]

/-- Behind two runs the buffers hold the same bytes. -/
theorem beside_of_runs (ctx : Context) {run run' : List UInt8} {drift : Drift} {s s' : Internal}
    (hpc : run.length ≤ s.pc) (hlength : run'.length = run.length + drift.ahead)
    (hnb : (contextBuffer (behind ctx run')).nb =
      (contextBuffer (behind ctx run)).nb + drift.ahead)
    (hstate : s' = s.drifted drift s'.insn.x86.log) :
    Beside (contextBuffer (behind ctx run)) (contextBuffer (behind ctx run')) drift s s' := by
  refine ⟨fun i hi => ?_, hnb, _, hstate⟩
  obtain ⟨k, rfl⟩ := Nat.exists_eq_add_of_le (hpc.trans hi)
  calc
    (behind ctx run').address (run.length + k + drift.ahead) = ctx.address k := by
      rw [show run.length + k + drift.ahead = run'.length + k by omega, behind_address_add]
    _ = (behind ctx run).address (run.length + k) := (behind_address_add ctx run k).symm

/-- From states side by side behind the prefixes the template is looked up side by side. -/
theorem fetchOpcode_leaveLoop_beside (db : Db) {buf buf' : Buffer} {drift : Drift}
    {s s' : Internal} (h : Beside buf buf' drift s s') :
    BothBeside buf buf' drift (fetchOpcode db buf (leaveLoop buf s))
      (fetchOpcode db buf' (leaveLoop buf' s')) :=
  fetchOpcode_beside db (leaveLoop_beside h)

/-- The state of the lookup, once the prefixes are taken in. -/
theorem lookedUp_behind {db : Db} {ctx : Context} {stale : Internal} {insn : Insn}
    {df : DefaultSizes} (hdf : defaultSizes ctx.machineMode = some df) {run bytes : List UInt8}
    (hbytes : prefixBytes (contextBuffer (behind ctx run)) (isLongMode ctx) 0 = bytes) :
    lookedUp db (behind ctx run) stale insn =
      match fetchOpcode db (contextBuffer (behind ctx run)) (leaveLoop
        (contextBuffer (behind ctx run)) (bytes.foldl (applyPrefix df)
          (setMode ctx.machineMode df (initialise ctx.features (startState stale insn))))) with
      | (false, _) => none
      | (true, s) => some s := by
  have hdf' : defaultSizes (behind ctx run).machineMode = some df := hdf
  exact lookedUp_of_prefixBytes hdf' hbytes

/-- The byte counter wraps: the ModRM byte of the encoding lies behind 255 bytes. -/
def CounterWraps (db : Db) (ctx : Context) (stale : Internal) (insn : Insn) : Prop :=
  (contextBuffer ctx).nb = 255 ∧
    ∃ s ∈ accepted db ctx stale insn, ModrmMissing db (contextBuffer ctx) s

/-- Side by side, the second counter steps over the ModRM byte unless it wraps. -/
theorem fits_of_not_wraps {db : Db} {ctx ctx' : Context} {stale s s' : Internal} {insn : Insn}
    {drift : Drift} (h : Beside (contextBuffer ctx) (contextBuffer ctx') drift s s')
    (hselected : accepted db ctx' stale insn = some s')
    (hwraps : ¬CounterWraps db ctx' stale insn) (hreads : ReadsModrm db s) :
    s.pc + 1 + drift.ahead < 256 := by
  by_contra hout
  obtain ⟨-, -, hle⟩ := (accepted_opened hselected).pc_bounds rfl
  have hpc := h.pc_eq
  have hlt := (contextBuffer ctx').nb_lt
  refine hwraps ⟨by omega, s', hselected, ?_, by omega⟩
  obtain ⟨-, -, log, rfl⟩ := h
  exact hreads

/-! ## The template behind the lookup -/

/-- Decoding the arguments leaves the selected encoding and template alone. -/
theorem decodeSelected_selected {db : Db} {ctx : Context} {stale s : Internal} {insn : Insn}
    (h : accepted db ctx stale insn = some s) :
    (decodeSelected db (contextBuffer ctx) s).encoding = s.encoding ∧
      (decodeSelected db (contextBuffer ctx) s).ptemplate = s.ptemplate := by
  have houtline := decodeSelected_outline db (contextBuffer ctx) s
  have hsettled := (accepted_opened h).decodeRealModrm_settled db
  exact ⟨(congrArg Internal.encoding houtline).trans (congrArg Settled.encoding hsettled),
    (congrArg Internal.ptemplate houtline).trans (congrArg Settled.ptemplate hsettled)⟩

end Amed.X86

import Amed.X86.Leftover
import Mathlib.Data.List.Induction
import Mathlib.Data.List.TakeWhile

/-!
# Operand and address size

The sizes the decoder settles on for a legacy-encoded instruction, against the table of
the architecture.

## Implementation notes

Sizes are coded 0, 1 and 2 for 16, 32 and 64 bits, as the code has them. The fold over the
prefix bytes is described by three facts about the bytes: whether the last REX prefix has
W set, whether a REX prefix with W follows the last 66, and whether 66 or 67 occur.
-/

namespace Amed.X86

open Bytes

/-- A REX prefix with W set. -/
def isRexW (op : UInt8) : Bool := isRexByte op && bit op 3

/-- The REX prefix right in front of the opcode has W set. -/
def endsInRexW (ps : List UInt8) : Bool := ps.getLast?.any isRexW

/-- The last of the REX prefixes, wherever it stands, has W set. -/
def lastRexHasW (ps : List UInt8) : Bool := (ps.filter isRexByte).getLast?.any (bit · 3)

/-- A REX prefix with W set stands behind every operand size prefix. -/
def rexWBehind66 (ps : List UInt8) : Bool := (ps.reverse.takeWhile (· != 0x66)).any isRexW

/-! ## The table of the architecture -/

/-- The address size. -/
def manualAddressSize (mode : MachineMode) (ps : List UInt8) : Nat :=
  match mode with
  | .mode16 => if 0x67 ∈ ps then 1 else 0
  | .mode32 => if 0x67 ∈ ps then 0 else 1
  | _ => if 0x67 ∈ ps then 1 else 2

/-- The operand size of an opcode that defaults to 64 bits (`d64`), is forced to 64 bits
(`f64`) or is neither. -/
def manualOperandSize (mode : MachineMode) (ps : List UInt8) (t : DbTemplate) : Nat :=
  match mode with
  | .mode16 => if 0x66 ∈ ps then 1 else 0
  | .mode32 => if 0x66 ∈ ps then 0 else 1
  | _ =>
      if t.f64 || endsInRexW ps then 2
      else if 0x66 ∈ ps then 0
      else if t.d64 then 2 else 1

/-! ## The prefix run -/

theorem lastRexHasW_append (ps : List UInt8) (op : UInt8) :
    lastRexHasW (ps ++ [op]) = if isRexByte op then bit op 3 else lastRexHasW ps := by
  unfold lastRexHasW
  by_cases h : isRexByte op <;> simp [List.filter_append, h]

theorem rexWBehind66_append (ps : List UInt8) (op : UInt8) :
    rexWBehind66 (ps ++ [op]) = (op != 0x66 && (isRexW op || rexWBehind66 ps)) := by
  unfold rexWBehind66
  by_cases h : op = 0x66
  · simp [h]
  · simp [h]

/-- The sizes after a run of prefixes. -/
def sizesAfter (df : DefaultSizes) (ps : List UInt8) (z : Sizes) : Prop :=
  z.asz = (if 0x67 ∈ ps then df.adsize / 2 else df.adsize) ∧
    z.osz = (if rexWBehind66 ps then 2 else if 0x66 ∈ ps then df.opsize / 2 else df.opsize) ∧
    z.w = lastRexHasW ps ∧ z.p66 = decide (0x66 ∈ ps) ∧ z.enc = encodingNone

theorem isRexByte_ne {op : UInt8} (h : isRexByte op) : op ≠ 0x66 ∧ op ≠ 0x67 := by
  constructor <;> rintro rfl <;> exact absurd h (by decide)

/-- What a prefix byte does to the sizes. -/
theorem prefixEffect_sizes (df : DefaultSizes) (s : Internal) (op : UInt8) :
    (prefixEffect df s op).diagram.sizes =
      if isRexByte op then
        { s.diagram.sizes with osz := if bit op 3 then 2 else s.diagram.osz, w := bit op 3 }
      else if op = 0x66 then { s.diagram.sizes with osz := df.opsize / 2, p66 := true }
      else if op = 0x67 then { s.diagram.sizes with asz := df.adsize / 2 }
      else s.diagram.sizes := by
  unfold prefixEffect
  by_cases hrex : isRexByte op
  · simp only [hrex, if_true]
    rfl
  · simp only [hrex, Bool.false_eq_true, if_false]
    by_cases h66 : op = 0x66
    · subst h66
      rfl
    · by_cases h67 : op = 0x67
      · subst h67
        rfl
      · rw [if_neg h66, if_neg h67]
        have h66' : op.toNat ≠ 0x66 := fun h => h66 (UInt8.toNat_inj.mp h)
        have h67' : op.toNat ≠ 0x67 := fun h => h67 (UInt8.toNat_inj.mp h)
        split <;> first | rfl | contradiction

theorem applyPrefix_sizes {df : DefaultSizes} {ps : List UInt8} {s : Internal} {op : UInt8}
    (h : sizesAfter df ps s.diagram.sizes) :
    sizesAfter df (ps ++ [op]) (applyPrefix df s op).diagram.sizes := by
  obtain ⟨hasz, hosz, hw, hp66, henc⟩ := h
  have hosz' : s.diagram.osz = _ := hosz
  change sizesAfter df (ps ++ [op]) (prefixEffect df s op).diagram.sizes
  unfold sizesAfter
  rw [lastRexHasW_append, rexWBehind66_append, prefixEffect_sizes]
  by_cases hrex : isRexByte op
  · obtain ⟨h66, h67⟩ := isRexByte_ne hrex
    have h66' := Ne.symm h66
    have h67' := Ne.symm h67
    simp only [hrex, if_true, List.mem_append, List.mem_singleton, h66', h67', or_false, isRexW,
      Bool.true_and]
    refine ⟨hasz, ?_, trivial, hp66, henc⟩
    rw [hosz']
    by_cases hbit : bit op 3 <;> simp [hbit, h66]
  · simp only [hrex, Bool.false_eq_true, if_false, isRexW, Bool.false_and, Bool.false_or]
    by_cases h66 : op = 0x66
    · subst h66
      refine ⟨?_, ?_, hw, ?_, henc⟩
      · simpa using hasz
      · simp
      · simp
    · by_cases h67 : op = 0x67
      · subst h67
        refine ⟨?_, ?_, hw, ?_, henc⟩
        · simp
        · simpa using hosz
        · simpa using hp66
      · have h66' := Ne.symm h66
        have h67' := Ne.symm h67
        simp only [h66, h67, if_false, List.mem_append, List.mem_singleton, h66', h67', or_false]
        refine ⟨hasz, ?_, hw, hp66, henc⟩
        rw [hosz]
        simp [h66]

theorem foldl_applyPrefix_sizes {df : DefaultSizes} {qs : List UInt8} (ps : List UInt8)
    {s : Internal} (h : sizesAfter df qs s.diagram.sizes) :
    sizesAfter df (qs ++ ps) (ps.foldl (applyPrefix df) s).diagram.sizes := by
  induction ps generalizing qs s with
  | nil => simpa using h
  | cons op ps ih =>
      rw [List.foldl_cons, List.append_cons]
      exact ih (applyPrefix_sizes h)

/-! ## The selected template -/

/-- The features of a context are feature bits. -/
def FeatureBits (features : BitVec 32) : Prop := features &&& notFeatureMask = 0

instance (features : BitVec 32) : Decidable (FeatureBits features) :=
  inferInstanceAs (Decidable (_ = _))

theorem FeatureBits.toNat_mod {features : BitVec 32} (h : FeatureBits features) :
    features.toNat % 2 ^ 25 = 0 := by
  apply Nat.eq_of_testBit_eq
  intro i
  rw [Nat.testBit_mod_two_pow, Nat.zero_testBit]
  by_cases hi : i < 25
  · have hbit := congrArg (·.getLsbD i) h
    simp only [BitVec.getLsbD_and] at hbit
    have hmask : notFeatureMask.getLsbD i = true := by
      have hall : ∀ j : Fin 25, notFeatureMask.getLsbD j = true := by decide
      exact hall ⟨i, hi⟩
    rw [hmask, Bool.and_true] at hbit
    have hzero : (0 : BitVec 32).getLsbD i = false := by simp
    simpa [hi, BitVec.getLsbD] using hbit.trans hzero
  · simp [hi]

theorem FeatureBits.getLsbD {features : BitVec 32} (h : FeatureBits features) {i : Nat}
    (hi : i < 25) : features.getLsbD i = false := by
  have hbit := congrArg (·.testBit i) h.toNat_mod
  simp only [Nat.testBit_mod_two_pow, hi, decide_true, Bool.true_and, Nat.zero_testBit] at hbit
  exact hbit

theorem FeatureBits.longModeOf {features : BitVec 32} (h : FeatureBits features)
    (mode : MachineMode) : longModeOf mode features = decide (mode = .mode64) := by
  rw [X86.longModeOf, h.getLsbD (by decide), Bool.or_false]

theorem sizesAfter_start {features : BitVec 32} (h : FeatureBits features) (mode : MachineMode)
    (df : DefaultSizes) (s : Internal) :
    sizesAfter df [] (setMode mode df (initialise features s)).diagram.sizes := by
  refine ⟨rfl, rfl, h.getLsbD (by decide), h.getLsbD (by decide), ?_⟩
  have hmod := h.toNat_mod
  change features.toNat / 2 ^ 16 % 2 ^ 3 = 0
  omega

/-- The prefix bytes of an instruction at the start of a context's buffer. -/
def contextPrefixes (ctx : Context) : List UInt8 :=
  prefixBytes (contextBuffer ctx) (longModeOf ctx.machineMode ctx.features) 0

/-- No vector prefix stands behind the prefix bytes: the opcode is legacy-encoded. -/
def LegacyEncoded (ctx : Context) : Prop :=
  vectorWidth (contextBuffer ctx) (longModeOf ctx.machineMode ctx.features)
    (contextPrefixes ctx).length = 0

instance (ctx : Context) : Decidable (LegacyEncoded ctx) := inferInstanceAs (Decidable (_ = _))

/-- Behind the prefixes of a legacy-encoded opcode the sizes stay until the template is
selected. -/
theorem scanPrefixes_sizes (buf : Buffer) (df : DefaultSizes) {s : Internal}
    (h : vectorWidth buf s.diagram.longMode
      (s.pc + (prefixBytes buf s.diagram.longMode s.pc).length) = 0) :
    (scanPrefixes buf df s).diagram.sizes =
      ((prefixBytes buf s.diagram.longMode s.pc).foldl (applyPrefix df) s).diagram.sizes := by
  unfold scanPrefixes
  rw [run_prefixStep df (by omega)]
  obtain ⟨hc, hframe⟩ := foldl_prefixBytes buf df s.diagram.longMode s rfl
  have hpc := hc.pc
  simp only [width, List.map_map] at hpc
  generalize hps : prefixBytes buf s.diagram.longMode s.pc = ps at hc hframe hpc h ⊢
  generalize ps.foldl (applyPrefix df) s = s₁ at hc hframe hpc ⊢
  have hpc₁ : s₁.pc = s.pc + ps.length := by
    have hmap : ps.map ((fun f => f.bytes.length) ∘ prefixField) = List.replicate ps.length 1 :=
      List.map_const'
    rw [hmap, List.sum_replicate_nat, Nat.mul_one] at hpc
    exact hpc
  dsimp only
  cases hop : buf.peekByte s₁.pc with
  | none => rfl
  | some op =>
      rcases decodeEscape_cases hop with ⟨-, -, hs⟩ | ⟨-, hw, -⟩ | ⟨rfl, htakes⟩
      · exact congrArg (fun s : Internal => s.diagram.sizes) hs
      · rw [hframe.longMode, hpc₁] at hw
        exact absurd h hw
      · exact congrArg Diagram.sizes htakes.diagram

theorem selected_sizes {db : Db} {ctx : Context} {stale s : Internal} {insn : Insn}
    {df : DefaultSizes} (h : accepted db ctx stale insn = some s)
    (hdf : defaultSizes ctx.machineMode = some df) (hfeat : FeatureBits ctx.features)
    (hlegacy : LegacyEncoded ctx) :
    ∃ d : Diagram, sizesAfter df (contextPrefixes ctx) d.sizes ∧
      d.longMode = longModeOf ctx.machineMode ctx.features ∧
      s.diagram = d.hashSizes.overrideSize (db.templates s.ptemplate) := by
  unfold accepted selected at h
  simp only [hdf] at h
  have hstart := foldl_applyPrefix_sizes (contextPrefixes ctx)
    (sizesAfter_start hfeat ctx.machineMode df (startState stale insn))
  have hscan := scanPrefixes_scanned (contextBuffer ctx) df
    (setMode ctx.machineMode df (initialise ctx.features (startState stale insn)))
  have hsizes := scanPrefixes_sizes (contextBuffer ctx) df
    (s := setMode ctx.machineMode df (initialise ctx.features (startState stale insn)))
    (by rw [show (setMode ctx.machineMode df
        (initialise ctx.features (startState stale insn))).pc = 0 from rfl, Nat.zero_add]
        exact hlegacy)
  have hlong := setMode_longMode ctx.machineMode df ctx.features (startState stale insn)
  generalize scanPrefixes (contextBuffer ctx) df
    (setMode ctx.machineMode df (initialise ctx.features (startState stale insn))) = s₁ at *
  cases hf : fetchOpcode db (contextBuffer ctx) s₁ with
  | mk ok s₂ =>
      rw [hf] at h
      cases ok with
      | false => simp at h
      | true =>
          obtain rfl := Option.some.inj h
          have hfetch := fetchOpcode_fetched hf
          refine ⟨s₂.diagram, ?_, ?_, rfl⟩
          · rw [hfetch.sizes, hsizes]
            exact hstart
          · rw [hfetch.frame.longMode, hscan.frame.longMode, hlong]

theorem hashSizes_sizes (d : Diagram) (henc : d.enc = encodingNone) :
    d.hashSizes.asz = d.asz ∧ d.hashSizes.osz = (if d.w then 2 else d.osz) ∧
      d.hashSizes.p66 = d.p66 ∧ d.hashSizes.longMode = d.longMode := by
  unfold Diagram.hashSizes
  rw [if_pos henc]
  exact ⟨rfl, rfl, rfl, rfl⟩

theorem overrideSize_sizes (d : Diagram) (t : DbTemplate) :
    (d.overrideSize t).asz = d.asz ∧
      (d.overrideSize t).osz =
        if d.longMode && d.osz ≠ 2 then
          if t.f64 then 2 else if t.d64 then (if d.p66 then 1 else 2) else d.osz
        else d.osz := by
  unfold Diagram.overrideSize
  split
  · split
    · exact ⟨rfl, rfl⟩
    · split <;> exact ⟨rfl, rfl⟩
  · exact ⟨rfl, rfl⟩

/-- The sizes the arguments of a legacy-encoded instruction are decoded with are those the
template was selected with. -/
theorem decodeRun_sizes {db : Db} {ctx : Context} {stale s : Internal} {insn : Insn}
    (h : accepted db ctx stale insn = some s) :
    (decodeRun db ctx stale insn).2.diagram.asz = s.diagram.asz ∧
      (decodeRun db ctx stale insn).2.diagram.osz = s.diagram.osz := by
  have hview := ((accepted_opened h).layout db).view
  have hgrows := Walk.nodes_grows db (contextBuffer ctx).window (templateNodes db s) 0
    { s.view with pc := operandStart db (contextBuffer ctx) s, fields := [] }
  rw [decodeRun_of_accepted h]
  exact ⟨(congrArg View.asz hview).trans hgrows.asz, (congrArg View.osz hview).trans hgrows.osz⟩

/-- The decoder's sizes are those of the architecture. -/
structure SizedByTable (mode : MachineMode) (ps : List UInt8) (t : DbTemplate) (d : Diagram) :
    Prop where
  operand : d.osz = manualOperandSize mode ps t
  address : d.asz = manualAddressSize mode ps

/-- The prefixes for which the code follows the table: in 16-bit mode none that toggles a
size; in 64-bit mode no REX that stopped counting and, for an opcode that defaults to 64
bits, no 66 unless a REX prefix overrides it. -/
def SizesAgree (mode : MachineMode) (ps : List UInt8) (t : DbTemplate) : Prop :=
  match mode with
  | .mode16 => 0x66 ∉ ps ∧ 0x67 ∉ ps
  | .mode32 => True
  | _ =>
      t.f64 = true ∨ endsInRexW ps = true ∨
        if t.d64 then 0x66 ∉ ps
        else lastRexHasW ps = false ∧ rexWBehind66 ps = false

instance (mode : MachineMode) (ps : List UInt8) (t : DbTemplate) :
    Decidable (SizesAgree mode ps t) := by
  unfold SizesAgree
  split <;> infer_instance

theorem endsInRexW_append (ps : List UInt8) (op : UInt8) :
    endsInRexW (ps ++ [op]) = isRexW op := by
  simp [endsInRexW]

/-- A REX prefix in front of the opcode is the last one, and behind every 66. -/
theorem lastRexHasW_of_endsInRexW {ps : List UInt8} (h : endsInRexW ps = true) :
    lastRexHasW ps = true := by
  induction ps using List.reverseRecOn with
  | nil => simp [endsInRexW] at h
  | append_singleton ps op _ =>
      rw [endsInRexW_append, isRexW, Bool.and_eq_true] at h
      rw [lastRexHasW_append, if_pos h.1, h.2]

/-- The sizes of an accepted legacy-encoded instruction, from what the prefixes left. -/
theorem decodeRun_sizesAfter {db : Db} {ctx : Context} {stale s : Internal} {insn : Insn}
    {df : DefaultSizes} (h : accepted db ctx stale insn = some s)
    (hdf : defaultSizes ctx.machineMode = some df) (hfeat : FeatureBits ctx.features)
    (hlegacy : LegacyEncoded ctx) :
    ∃ z : Sizes, sizesAfter df (contextPrefixes ctx) z ∧
      (decodeRun db ctx stale insn).2.diagram.asz = z.asz ∧
      (decodeRun db ctx stale insn).2.diagram.osz =
        if ctx.machineMode = .mode64 ∧ (if z.w then 2 else z.osz) ≠ 2 then
          if (db.templates s.ptemplate).f64 then 2
          else if (db.templates s.ptemplate).d64 then (if z.p66 then 1 else 2)
          else (if z.w then 2 else z.osz)
        else (if z.w then 2 else z.osz) := by
  obtain ⟨d, hsizes, hlong, hs⟩ := selected_sizes h hdf hfeat hlegacy
  obtain ⟨hasz, hosz⟩ := decodeRun_sizes h
  obtain ⟨hasz', hosz', hp66', hlong'⟩ := hashSizes_sizes d hsizes.2.2.2.2
  obtain ⟨hasz'', hosz''⟩ := overrideSize_sizes d.hashSizes (db.templates s.ptemplate)
  refine ⟨d.sizes, hsizes, ?_, ?_⟩
  · rw [hasz, hs, hasz'', hasz']
    rfl
  · rw [hosz, hs, hosz'', hosz', hp66', hlong', hlong, hfeat.longModeOf]
    simp only [Bool.and_eq_true, decide_eq_true_eq]
    rfl

/-- Outside long mode there is no REX prefix. -/
theorem not_isRexByte_of_mem {buf : Buffer} {pos : Nat} {op : UInt8}
    (h : op ∈ prefixBytes buf false pos) : isRexByte op = false := by
  have hop := List.mem_takeWhile_imp h
  unfold isPrefixByte at hop
  split at hop
  · cases hop
  · simpa using ‹¬isRexByte op = true›

theorem lastRexHasW_of_not_rex {ps : List UInt8} (h : ∀ op ∈ ps, isRexByte op = false) :
    lastRexHasW ps = false := by
  have hfilter : ps.filter isRexByte = [] := List.filter_eq_nil_iff.mpr (by simpa using h)
  rw [lastRexHasW, hfilter]
  rfl

theorem rexWBehind66_of_not_rex {ps : List UInt8} (h : ∀ op ∈ ps, isRexByte op = false) :
    rexWBehind66 ps = false := by
  rw [rexWBehind66, List.any_eq_false]
  intro op hop
  have hmem : op ∈ ps := List.mem_reverse.mp (List.takeWhile_subset _ hop)
  rw [isRexW, h op hmem]
  simp

/-- The operand size the code settles on in 64-bit mode for a template, from what the
prefixes left. -/
def longOperandSize (ps : List UInt8) (t : DbTemplate) : Nat :=
  let size :=
    if lastRexHasW ps then 2
    else if rexWBehind66 ps then 2 else if 0x66 ∈ ps then 0 else 1
  if size ≠ 2 then
    if t.f64 then 2 else if t.d64 then (if 0x66 ∈ ps then 1 else 2) else size
  else size

theorem longOperandSize_eq_iff {ps : List UInt8} {t : DbTemplate} :
    longOperandSize ps t = manualOperandSize .mode64 ps t ↔ SizesAgree .mode64 ps t := by
  have hlast : endsInRexW ps = true → lastRexHasW ps = true := lastRexHasW_of_endsInRexW
  simp only [longOperandSize, manualOperandSize, SizesAgree, Bool.or_eq_true]
  by_cases hf : t.f64 = true
  · simp only [hf, true_or, if_true, iff_true]
    split <;> simp_all
  · by_cases hends : endsInRexW ps = true
    · simp [hf, hends, hlast hends]
    · by_cases hd : t.d64 = true <;> by_cases h66 : (0x66 : UInt8) ∈ ps <;>
        cases lastRexHasW ps <;> cases rexWBehind66 ps <;> simp [hf, hends, hd, h66]

/-- The sizes of a legacy-encoded instruction follow the table of the architecture exactly
for these prefixes. -/
theorem sizedByTable_iff {db : Db} {ctx : Context} {stale s : Internal} {insn : Insn}
    (hfeat : FeatureBits ctx.features) (hlegacy : LegacyEncoded ctx)
    (h : accepted db ctx stale insn = some s) :
    SizedByTable ctx.machineMode (contextPrefixes ctx) (db.templates s.ptemplate)
        (decodeRun db ctx stale insn).2.diagram ↔
      SizesAgree ctx.machineMode (contextPrefixes ctx) (db.templates s.ptemplate) := by
  obtain ⟨df, hdf⟩ : ∃ df, defaultSizes ctx.machineMode = some df := by
    have hsome := (accepted_isSome_iff db ctx stale insn).mp (Option.isSome_of_eq_some h)
    exact Option.isSome_iff_exists.mp hsome.1
  obtain ⟨z, ⟨hz₁, hz₂, hz₃, hz₄, -⟩, hasz, hosz⟩ := decodeRun_sizesAfter h hdf hfeat hlegacy
  have hrex : ctx.machineMode ≠ .mode64 → ∀ op ∈ contextPrefixes ctx, isRexByte op = false := by
    intro hmode op hop
    rw [contextPrefixes, hfeat.longModeOf, decide_eq_false hmode] at hop
    exact not_isRexByte_of_mem hop
  have hsplit : ∀ mode ps t d, SizedByTable mode ps t d ↔
      d.osz = manualOperandSize mode ps t ∧ d.asz = manualAddressSize mode ps :=
    fun _ _ _ _ => ⟨fun h => ⟨h.operand, h.address⟩, fun h => ⟨h.1, h.2⟩⟩
  rw [hsplit, hasz, hosz, hz₁, hz₂, hz₃, hz₄]
  generalize contextPrefixes ctx = ps at hrex
  generalize db.templates s.ptemplate = t
  cases hmode : ctx.machineMode <;> rw [hmode] at hdf hrex <;> cases hdf
  case mode16 =>
      have hno := hrex (by decide)
      rw [lastRexHasW_of_not_rex hno, rexWBehind66_of_not_rex hno]
      simp only [manualOperandSize, manualAddressSize, SizesAgree]
      by_cases h66 : (0x66 : UInt8) ∈ ps <;> by_cases h67 : (0x67 : UInt8) ∈ ps <;> simp [h66, h67]
  case mode32 =>
      have hno := hrex (by decide)
      rw [lastRexHasW_of_not_rex hno, rexWBehind66_of_not_rex hno]
      simp [manualOperandSize, manualAddressSize, SizesAgree]
  case mode64 =>
      rw [← longOperandSize_eq_iff]
      simp [longOperandSize, manualAddressSize]

open Excerpt in
/-- `PUSH RAX` in 64-bit mode takes 64 bits. -/
theorem sizedByTable_push :
    SizedByTable .mode64 [] (tables.templates 671)
      (decodeRun tables (contextOf .mode64 [0x50] 1) default default).2.diagram := by
  have h : (accepted tables (contextOf .mode64 [0x50] 1) default default).isSome := by decide
  exact (sizedByTable_iff (by decide) (by decide) (Option.some_get h).symm).mpr
    (by decide +revert)

open Excerpt in
/-- `PUSH AX` with its prefix 66 in 64-bit mode: the code takes 32 bits. -/
theorem not_sizedByTable_push66 :
    ¬∀ (db : Db) (ctx : Context) (stale s : Internal) (insn : Insn), FeatureBits ctx.features →
      LegacyEncoded ctx → accepted db ctx stale insn = some s →
        SizedByTable ctx.machineMode (contextPrefixes ctx) (db.templates s.ptemplate)
          (decodeRun db ctx stale insn).2.diagram := by
  intro h
  have hacc : (accepted tables (contextOf .mode64 [0x66, 0x50] 2) default default).isSome := by
    decide
  have hosz := (h _ _ _ _ _ (by decide) (by decide) (Option.some_get hacc).symm).operand
  exact absurd hosz (by decide +revert)

end Amed.X86

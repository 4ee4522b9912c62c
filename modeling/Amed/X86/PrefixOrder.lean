import Amed.X86.LastF
import Amed.X86.PrefixRun

/-!
# The order and the repetition of the legacy prefixes

Two runs of legacy prefixes with the same members, at most one segment override and at most one
of F2 and F3 among them, in front of the same bytes. Each prefix settles members of the state of
its own, so the prefixes commute, and 66, 67 and F0 settle the same when they are repeated.
-/

namespace Amed.X86

open Bytes Folds

/-- The segment override prefixes. -/
def isSegmentByte (op : UInt8) : Bool :=
  op = 0x26 || op = 0x2e || op = 0x36 || op = 0x3e || op = 0x64 || op = 0x65

/-- A run of legacy prefixes with at most one segment override and at most one of F2 and F3. -/
structure LegacyRun (run : List UInt8) : Prop where
  prefixes : ∀ op ∈ run, isPrefixByte false op = true
  segment : (run.filter isSegmentByte).length ≤ 1
  last : (run.filter isFByte).length ≤ 1

/-! ## What a prefix settles -/

/-- The state less the counter, the count of the illegal prefixes and the record. -/
def Internal.uncounted (s : Internal) : Internal :=
  { s with pc := 0, vfpc := 0, insn.x86.log := ⟨fun _ => ⟨.none, []⟩, 0⟩ }

/-- What a prefix byte settles. -/
def settle (df : DefaultSizes) (s : Internal) (op : UInt8) : Internal :=
  { prefixEffect df s op with vfpc := 0 }

theorem applyPrefix_uncounted (df : DefaultSizes) (s : Internal) (op : UInt8) :
    (applyPrefix df s op).uncounted = settle df s.uncounted op := by
  unfold settle applyPrefix prefixEffect
  split
  · rfl
  · split <;> rfl

theorem foldl_applyPrefix_uncounted (df : DefaultSizes) (run : List UInt8) (s : Internal) :
    (run.foldl (applyPrefix df) s).uncounted = run.foldl (settle df) s.uncounted := by
  induction run generalizing s with
  | nil => rfl
  | cons op run ih => rw [List.foldl_cons, ih, applyPrefix_uncounted, List.foldl_cons]

theorem settle_66 (df : DefaultSizes) (s : Internal) :
    settle df s 0x66 = { s with
      vfpc := 0, diagram := { s.diagram with p66 := true, osz := df.opsize / 2 } } := rfl

theorem settle_67 (df : DefaultSizes) (s : Internal) :
    settle df s 0x67 = { s with vfpc := 0, diagram.asz := df.adsize / 2 } := rfl

theorem settle_f0 (df : DefaultSizes) (s : Internal) :
    settle df s 0xf0 = { s with vfpc := 0, diagram.f0 := true } := rfl

theorem settle_f2 (df : DefaultSizes) (s : Internal) :
    settle df s 0xf2 = { s with
      vfpc := 0, lastFPrefix := prefixF2, diagram.f2 := true } := rfl

theorem settle_f3 (df : DefaultSizes) (s : Internal) :
    settle df s 0xf3 = { s with
      vfpc := 0, lastFPrefix := prefixF3, diagram.f3 := true } := rfl

/-- What a segment override settles. -/
def settleSegment (s : Internal) (segment : Nat) : Internal :=
  { segmentEffect s segment with vfpc := 0 }

/-- The legacy prefixes: an override of a segment, 66, 67, F0, F2 or F3. -/
theorem legacyPrefix_cases {op : UInt8} (h : isPrefixByte false op = true) :
    (isSegmentByte op = true ∧ isFByte op = false ∧
        ∃ segment, ∀ df s, settle df s op = settleSegment s segment) ∨
      op = 0x66 ∨ op = 0x67 ∨ op = 0xf0 ∨ op = 0xf2 ∨ op = 0xf3 := by
  have hval : ∀ {v : UInt8}, op.toNat = v.toNat → op = v := fun h => UInt8.toNat_inj.mp h
  unfold isPrefixByte at h
  split at h
  · cases h
  · split at h
    · rename_i hop
      obtain rfl : op = 0x26 := hval hop
      exact Or.inl ⟨rfl, rfl, Register.es, fun _ _ => rfl⟩
    · rename_i hop
      obtain rfl : op = 0x2e := hval hop
      exact Or.inl ⟨rfl, rfl, Register.cs, fun _ _ => rfl⟩
    · rename_i hop
      obtain rfl : op = 0x36 := hval hop
      exact Or.inl ⟨rfl, rfl, Register.ss, fun _ _ => rfl⟩
    · rename_i hop
      obtain rfl : op = 0x3e := hval hop
      exact Or.inl ⟨rfl, rfl, Register.ds, fun _ _ => rfl⟩
    · rename_i hop
      obtain rfl : op = 0x64 := hval hop
      exact Or.inl ⟨rfl, rfl, Register.fs, fun _ _ => rfl⟩
    · rename_i hop
      obtain rfl : op = 0x65 := hval hop
      exact Or.inl ⟨rfl, rfl, Register.gs, fun _ _ => rfl⟩
    · rename_i hop
      exact Or.inr (Or.inl (hval hop))
    · rename_i hop
      exact Or.inr (Or.inr (Or.inl (hval hop)))
    · rename_i hop
      exact Or.inr (Or.inr (Or.inr (Or.inl (hval hop))))
    · rename_i hop
      exact Or.inr (Or.inr (Or.inr (Or.inr (Or.inl (hval hop)))))
    · rename_i hop
      exact Or.inr (Or.inr (Or.inr (Or.inr (Or.inr (hval hop)))))
    · cases h

/-- Two different prefixes that are not both segment overrides and not both of F2 and F3 settle
members of their own. -/
theorem settle_comm {a b : UInt8} (ha : isPrefixByte false a = true)
    (hb : isPrefixByte false b = true)
    (hsegment : ¬(isSegmentByte a = true ∧ isSegmentByte b = true))
    (hlast : ¬(isFByte a = true ∧ isFByte b = true)) (df : DefaultSizes) (s : Internal) :
    settle df (settle df s a) b = settle df (settle df s b) a := by
  obtain ⟨hsa, -, ra, ha⟩ | ha := legacyPrefix_cases ha
  · obtain ⟨hsb, -⟩ | hb := legacyPrefix_cases hb
    · exact absurd ⟨hsa, hsb⟩ hsegment
    · rw [ha, ha]
      rcases hb with rfl | rfl | rfl | rfl | rfl <;>
        simp only [settle_66, settle_67, settle_f0, settle_f2, settle_f3] <;> rfl
  · obtain ⟨hsb, -, rb, hb⟩ | hb := legacyPrefix_cases hb
    · rw [hb, hb]
      rcases ha with rfl | rfl | rfl | rfl | rfl <;>
        simp only [settle_66, settle_67, settle_f0, settle_f2, settle_f3] <;> rfl
    · rcases ha with rfl | rfl | rfl | rfl | rfl <;>
        rcases hb with rfl | rfl | rfl | rfl | rfl <;>
          first
            | exact absurd ⟨rfl, rfl⟩ hlast
            | simp only [settle_66, settle_67, settle_f0, settle_f2, settle_f3]

/-- Neither an override of a segment nor F2 or F3 settles anything when it is repeated. -/
theorem settle_idem {a : UInt8} (ha : isPrefixByte false a = true)
    (hsegment : isSegmentByte a = false) (hlast : isFByte a = false) (df : DefaultSizes)
    (s : Internal) : settle df (settle df s a) a = settle df s a := by
  obtain ⟨hsa, -⟩ | rfl | rfl | rfl | rfl | rfl := legacyPrefix_cases ha
  · rw [hsa] at hsegment
    cases hsegment
  · simp only [settle_66]
  · simp only [settle_67]
  · simp only [settle_f0]
  · cases hlast
  · cases hlast

/-! ## The runs -/

namespace LegacyRun

variable {run : List UInt8}

/-- A member of a filtered list of at most one element is not repeated. -/
theorem count_le {p : UInt8 → Bool} (h : (run.filter p).length ≤ 1) {a : UInt8}
    (ha : p a = true) : run.count a ≤ 1 := by
  rw [← List.count_filter ha]
  exact List.count_le_length.trans h

theorem eq_of_mem {p : UInt8 → Bool} (h : (run.filter p).length ≤ 1) {a b : UInt8}
    (ha : a ∈ run) (hb : b ∈ run) (hpa : p a = true) (hpb : p b = true) : a = b := by
  have hma : a ∈ run.filter p := List.mem_filter.mpr ⟨ha, hpa⟩
  have hmb : b ∈ run.filter p := List.mem_filter.mpr ⟨hb, hpb⟩
  match hl : run.filter p, h with
  | [], _ =>
      rw [hl] at hma
      cases hma
  | [c], _ =>
      rw [hl] at hma hmb
      rw [List.mem_singleton.mp hma, List.mem_singleton.mp hmb]
  | _ :: _ :: _, h => simp at h

theorem comm (h : LegacyRun run) (df : DefaultSizes) {a b : UInt8} (ha : a ∈ run) (hb : b ∈ run)
    (hne : b ≠ a) (s : Internal) :
    settle df (settle df s a) b = settle df (settle df s b) a :=
  settle_comm (h.prefixes a ha) (h.prefixes b hb)
    (fun hseg => hne (eq_of_mem h.segment hb ha hseg.2 hseg.1))
    (fun hlast => hne (eq_of_mem h.last hb ha hlast.2 hlast.1)) df s

theorem idem (h : LegacyRun run) (df : DefaultSizes) {a : UInt8} (ha : a ∈ run)
    (hcount : 1 < run.count a) (s : Internal) : settle df (settle df s a) a = settle df s a := by
  refine settle_idem (h.prefixes a ha) ?_ ?_ df s
  · by_contra hseg
    exact absurd (count_le h.segment (Bool.eq_true_of_not_eq_false hseg)) (by omega)
  · by_contra hlast
    exact absurd (count_le h.last (Bool.eq_true_of_not_eq_false hlast)) (by omega)

/-- Runs with the same members settle the same. -/
theorem foldl_settle {run' : List UInt8} (h : LegacyRun run) (h' : LegacyRun run')
    (hmem : ∀ op, op ∈ run ↔ op ∈ run') (df : DefaultSizes) (s : Internal) :
    run.foldl (settle df) s = run'.foldl (settle df) s :=
  foldl_eq_of_members hmem (fun _ ha _ hb hne s => h.comm df ha hb hne s)
    (fun _ ha hcount s => h.idem df ha hcount s) (fun _ ha hcount s => h'.idem df ha hcount s) s

end LegacyRun

/-- Without additional bits of F2 and F3 the diagrams of both runs are the same. -/
theorem Diagram.drifted_same (d : Diagram) (ahead vfpc : Nat) :
    d.drifted ⟨ahead, vfpc, false, false⟩ = d := by
  unfold Diagram.drifted
  rw [Bool.or_false, Bool.or_false]

theorem Internal.drifted_same (s : Internal) (ahead vfpc : Nat) (log : BytecodeLog) :
    s.drifted ⟨ahead, vfpc, false, false⟩ log =
      { s with pc := s.pc + ahead, vfpc := vfpc, insn.x86.log := log } := by
  unfold Internal.drifted
  rw [Diagram.drifted_same]

/-- States that differ in what is counted only. -/
theorem drifted_of_uncounted {s s' : Internal} (h : s'.uncounted = s.uncounted) {ahead : Nat}
    (hpc : s'.pc = s.pc + ahead) :
    s' = s.drifted ⟨ahead, s'.vfpc, false, false⟩ s'.insn.x86.log := by
  calc
    s' = { s'.uncounted with
        pc := s'.pc, vfpc := s'.vfpc, insn.x86.log := s'.insn.x86.log } := rfl
    _ = { s with
        pc := s.pc + ahead, vfpc := s'.vfpc, insn.x86.log := s'.insn.x86.log } := by
      rw [h, hpc]
      rfl
    _ = s.drifted ⟨ahead, s'.vfpc, false, false⟩ s'.insn.x86.log :=
      (s.drifted_same ahead s'.vfpc s'.insn.x86.log).symm

theorem isPrefixByte_of_legacy {op : UInt8} (h : isPrefixByte false op = true)
    (longMode : Bool) : isPrefixByte longMode op = true := by
  unfold isPrefixByte at h ⊢
  split at h
  · cases h
  · rename_i hrex
    rw [if_neg hrex]
    exact h

/-- The leading prefixes of the bytes behind the run. -/
def restPrefixes (ctx : Context) : List UInt8 :=
  (slice ctx.address 0 ctx.length.toNat).takeWhile (isPrefixByte (isLongMode ctx))

section Runs

variable {db : Db} {ctx : Context} {run run' : List UInt8} {stale : Internal} {insn : Insn}

variable (run) in
theorem nb_behind (hlength : 0 ≤ ctx.length) (hfit : ctx.length + run.length ≤ 255) :
    (contextBuffer (behind ctx run)).nb = run.length + ctx.length.toNat := by
  have hnb : (contextBuffer (behind ctx run)).nb = ((ctx.length + run.length) % 256).toNat := rfl
  omega

theorem prefixBytes_behind_rest (h : LegacyRun run) (hlength : 0 ≤ ctx.length)
    (hfit : ctx.length + run.length ≤ 255) :
    prefixBytes (contextBuffer (behind ctx run)) (isLongMode ctx) 0 = run ++ restPrefixes ctx := by
  have hnb := nb_behind run hlength hfit
  have hslice : slice (behind ctx run).address run.length ctx.length.toNat =
      slice ctx.address 0 ctx.length.toNat := by
    apply List.map_congr_left
    intro i _
    rw [behind_address_add, Nat.zero_add]
  rw [prefixBytes_of_run (by omega) (slice_behind ctx run)
    fun op hop => isPrefixByte_of_legacy (h.prefixes op hop) (isLongMode ctx)]
  unfold prefixBytes restPrefixes
  rw [Nat.zero_add, hnb, Nat.add_sub_cancel_left]
  exact congrArg (run ++ List.takeWhile _ ·) hslice

/-- Both runs hold an illegal prefix or neither does. -/
theorem foldl_vfpc_of_members (df : DefaultSizes) {s : Internal} (hzero : s.vfpc = 0)
    {l l' : List UInt8} (hl : l.length < 256) (hl' : l'.length < 256)
    (hmem : ∀ op, op ∈ l ↔ op ∈ l') :
    (l'.foldl (applyPrefix df) s).vfpc = 0 ↔ (l.foldl (applyPrefix df) s).vfpc = 0 := by
  rw [foldl_applyPrefix_vfpc_eq_zero df hzero hl, foldl_applyPrefix_vfpc_eq_zero df hzero hl']
  simp only [hmem]

theorem leaveLoop_vfpc (buf : Buffer) (s : Internal) : (leaveLoop buf s).vfpc = s.vfpc := by
  unfold leaveLoop
  cases buf.peekByte s.pc with
  | none => rfl
  | some op =>
      obtain hsame | rfl | hsets := decodeEscape_sets buf s op
      · exact congrArg Internal.vfpc hsame
      · exact (decodeMap_carries buf s).2
      · exact hsets.vfpc

variable (db stale insn) in
/-- Both runs reach the lookup side by side, or neither does. -/
theorem lookedUp_of_members (h : LegacyRun run) (h' : LegacyRun run')
    (hmem : ∀ op, op ∈ run ↔ op ∈ run') (hlength : 0 ≤ ctx.length)
    (hfit : ctx.length + run'.length ≤ 255) (hle : run.length ≤ run'.length) :
    ∃ vfpc, (lookedUp db (behind ctx run) stale insn).Rel
      (fun t t' => Beside (contextBuffer (behind ctx run)) (contextBuffer (behind ctx run'))
        ⟨run'.length - run.length, vfpc, false, false⟩ t t' ∧ (vfpc = 0 ↔ t.vfpc = 0))
      (lookedUp db (behind ctx run') stale insn) := by
  have hbytes := prefixBytes_behind_rest h hlength (by omega)
  have hbytes' := prefixBytes_behind_rest h' hlength hfit
  have hnb := nb_behind run hlength (by omega)
  have hnb' := nb_behind run' hlength hfit
  cases hdf : defaultSizes ctx.machineMode with
  | none =>
      have hnone : ∀ r, lookedUp db (behind ctx r) stale insn = none := by
        intro r
        unfold lookedUp fetched
        rw [show defaultSizes (behind ctx r).machineMode = none from hdf]
      rw [hnone, hnone]
      exact ⟨0, .none⟩
  | some df =>
      rw [lookedUp_behind hdf hbytes, lookedUp_behind hdf hbytes']
      generalize hstart : setMode ctx.machineMode df
        (initialise ctx.features (startState stale insn)) = s₀
      have hpc₀ : s₀.pc = 0 := by rw [← hstart]; rfl
      have hvfpc₀ : s₀.vfpc = 0 := by rw [← hstart]; rfl
      have hrest : (restPrefixes ctx).length ≤ ctx.length.toNat := by
        have hprefix := (List.takeWhile_prefix (isPrefixByte (isLongMode ctx))
          (l := slice ctx.address 0 ctx.length.toNat)).length_le
        rwa [slice_length] at hprefix
      have hlen : (run ++ restPrefixes ctx).length < 256 := by
        rw [List.length_append]
        omega
      have hlen' : (run' ++ restPrefixes ctx).length < 256 := by
        rw [List.length_append]
        omega
      have hpc := foldl_applyPrefix_pc df (run ++ restPrefixes ctx) (s := s₀) (by omega)
      have hpc' := foldl_applyPrefix_pc df (run' ++ restPrefixes ctx) (s := s₀) (by omega)
      have hsettled : ((run' ++ restPrefixes ctx).foldl (applyPrefix df) s₀).uncounted =
          ((run ++ restPrefixes ctx).foldl (applyPrefix df) s₀).uncounted := by
        rw [foldl_applyPrefix_uncounted, foldl_applyPrefix_uncounted, List.foldl_append,
          List.foldl_append, h.foldl_settle h' hmem]
      have hvfpc := foldl_vfpc_of_members df hvfpc₀ hlen hlen' fun op => by
        rw [List.mem_append, List.mem_append, hmem]
      generalize (run ++ restPrefixes ctx).foldl (applyPrefix df) s₀ = s at hpc hsettled hvfpc ⊢
      generalize (run' ++ restPrefixes ctx).foldl (applyPrefix df) s₀ = s'
        at hpc' hsettled hvfpc ⊢
      rw [List.length_append] at hpc hpc'
      have hahead : s'.pc = s.pc + (run'.length - run.length) := by omega
      have hbeside := beside_of_runs ctx (by omega) (Nat.add_sub_cancel' hle).symm
        (by dsimp only; omega)
        (drifted_of_uncounted hsettled hahead)
      have hfetch := fetchOpcode_leaveLoop_beside db hbeside
      have hcarried := fetchOpcode_carried db (contextBuffer (behind ctx run))
        (leaveLoop (contextBuffer (behind ctx run)) s)
      have hcount := leaveLoop_vfpc (contextBuffer (behind ctx run)) s
      refine ⟨s'.vfpc, ?_⟩
      generalize fetchOpcode db (contextBuffer (behind ctx run))
        (leaveLoop (contextBuffer (behind ctx run)) s) = r at hfetch hcarried ⊢
      generalize fetchOpcode db (contextBuffer (behind ctx run'))
        (leaveLoop (contextBuffer (behind ctx run')) s') = r' at hfetch ⊢
      obtain ⟨ok, t⟩ := r
      obtain ⟨ok', t'⟩ := r'
      obtain ⟨rfl, ht⟩ : ok' = ok ∧ Beside (contextBuffer (behind ctx run))
        (contextBuffer (behind ctx run')) _ t t' := hfetch
      cases ok' with
      | false => exact .none
      | true =>
          have hvfpc' : t.vfpc = s.vfpc := (congrArg Carried.vfpc hcarried).trans hcount
          refine .some ⟨ht, ?_⟩
          rw [hvfpc']
          exact hvfpc

end Runs

/-! ## The instruction -/

/-- Without additional bits both runs finish the template alike. -/
theorem finishTemplate_beside (db : Db) {buf buf' : Buffer} {ahead vfpc : Nat} {t t' : Internal}
    (h : Beside buf buf' ⟨ahead, vfpc, false, false⟩ t t') :
    Beside buf buf' ⟨ahead, vfpc, false, false⟩ (finishTemplate db t) (finishTemplate db t') := by
  obtain ⟨hbytes, hnb, log, rfl⟩ := h
  refine ⟨hbytes, hnb, log, ?_⟩
  rw [Internal.drifted_same, Internal.drifted_same]
  rfl

/-- The same instruction behind two runs of prefixes: what differs is the length, by the
bytes of the runs. -/
structure SameInsn (run run' : List UInt8) (insn insn' : Insn) : Prop where
  mnemonic : insn'.mnemonic = insn.mnemonic
  attributes : insn'.attributes = insn.attributes
  argumentCount : insn'.argumentCount = insn.argumentCount
  arguments : insn'.arguments = insn.arguments
  length : insn'.length + run.length = insn.length + run'.length

/-- Both runs in front of the same bytes decode as the same instruction, or neither decodes. -/
def OrderFree (db : Db) (ctx : Context) (run run' : List UInt8) (stale : Internal)
    (insn : Insn) : Prop :=
  let r := decodeInsn db (behind ctx run) stale insn
  let r' := decodeInsn db (behind ctx run') stale insn
  r'.1 = r.1 ∧ (r.1 = true → SameInsn run run' r.2 r'.2)

theorem SameInsn.symm {run run' : List UInt8} {insn insn' : Insn}
    (h : SameInsn run run' insn insn') : SameInsn run' run insn' insn :=
  ⟨h.mnemonic.symm, h.attributes.symm, h.argumentCount.symm, h.arguments.symm, h.length.symm⟩

theorem OrderFree.symm {db : Db} {ctx : Context} {run run' : List UInt8} {stale : Internal}
    {insn : Insn} (h : OrderFree db ctx run run' stale insn) :
    OrderFree db ctx run' run stale insn :=
  ⟨h.1.symm, fun hok => (h.2 (h.1.symm.trans hok)).symm⟩

section Runs

variable {db : Db} {ctx : Context} {run run' : List UInt8} {stale : Internal} {insn : Insn}

variable (db stale insn) in
/-- The selected templates of two runs with the same members. -/
theorem accepted_of_members (h : LegacyRun run) (h' : LegacyRun run')
    (hmem : ∀ op, op ∈ run ↔ op ∈ run') (hlength : 0 ≤ ctx.length)
    (hfit : ctx.length + run'.length ≤ 255) (hle : run.length ≤ run'.length) :
    ∃ vfpc, (accepted db (behind ctx run) stale insn).Rel
      (Beside (contextBuffer (behind ctx run)) (contextBuffer (behind ctx run'))
        ⟨run'.length - run.length, vfpc, false, false⟩)
      (accepted db (behind ctx run') stale insn) := by
  obtain ⟨vfpc, hrel⟩ := lookedUp_of_members db stale insn h h' hmem hlength hfit hle
  refine ⟨vfpc, ?_⟩
  rw [accepted_eq_map, accepted_eq_map]
  generalize lookedUp db (behind ctx run) stale insn = o at hrel ⊢
  generalize lookedUp db (behind ctx run') stale insn = o' at hrel ⊢
  cases hrel with
  | none => exact .none
  | @some t t' ht =>
      obtain ⟨hbeside, hvfpc⟩ := ht
      have hlookup : lookupIndex db t' = lookupIndex db t := by
        obtain ⟨-, -, log, rfl⟩ := hbeside
        have hdiagram : (t.drifted ⟨run'.length - run.length, vfpc, false, false⟩ log).diagram =
            t.diagram := t.diagram.drifted_same _ _
        unfold lookupIndex
        rw [hdiagram]
        rfl
      exact .some (selectTemplate_beside db hbeside hlookup fun _ => hvfpc)

/-- Unless the longer input's counter wraps, both inputs decode alike. -/
theorem orderFree_of_fits (h : LegacyRun run) (h' : LegacyRun run')
    (hmem : ∀ op, op ∈ run ↔ op ∈ run') (hlength : 0 ≤ ctx.length)
    (hfit : ctx.length + run'.length ≤ 255) (hle : run.length ≤ run'.length)
    (hwraps : ¬CounterWraps db (behind ctx run') stale insn) :
    OrderFree db ctx run run' stale insn := by
  obtain ⟨vfpc, hrel⟩ := accepted_of_members db stale insn h h' hmem hlength hfit hle
  unfold OrderFree
  dsimp only
  cases hs : accepted db (behind ctx run) stale insn with
  | none =>
      cases hs' : accepted db (behind ctx run') stale insn with
      | none =>
          rw [decodeInsn_fst, decodeInsn_fst, hs, hs']
          exact ⟨rfl, fun hok => nomatch hok⟩
      | some s' =>
          rw [hs, hs'] at hrel
          cases hrel
  | some s =>
      cases hs' : accepted db (behind ctx run') stale insn with
      | none =>
          rw [hs, hs'] at hrel
          cases hrel
      | some s' =>
          rw [hs, hs', Option.rel_some_some] at hrel
          obtain ⟨t, t', ht, hends⟩ := decodeSelected_beside db hrel
            (fits_of_not_wraps hrel hs' hwraps)
          have hdone : Beside (contextBuffer (behind ctx run)) (contextBuffer (behind ctx run'))
              ⟨run'.length - run.length, vfpc, false, false⟩
              (decodeSelected db (contextBuffer (behind ctx run)) s)
              (decodeSelected db (contextBuffer (behind ctx run')) s') := by
            obtain ⟨hend, hend'⟩ | ⟨hend, hend'⟩ := hends
            · rw [hend, hend']
              exact ht
            · rw [hend, hend']
              exact finishTemplate_beside db ht
          rw [decodeInsn_of_accepted hs, decodeInsn_of_accepted hs']
          refine ⟨rfl, fun _ => ?_⟩
          have hpc := hdone.pc_eq
          obtain ⟨-, -, log, hstate⟩ := hdone
          rw [hstate]
          refine ⟨rfl, rfl, rfl, rfl, ?_⟩
          change (decodeSelected db (contextBuffer (behind ctx run)) s).pc +
            (run'.length - run.length) + run.length =
              (decodeSelected db (contextBuffer (behind ctx run)) s).pc + run'.length
          omega

/-- Where a counter wraps, the lengths do not differ by the prefixes. -/
theorem not_orderFree_of_wraps (h : LegacyRun run) (h' : LegacyRun run')
    (hmem : ∀ op, op ∈ run ↔ op ∈ run') (hlength : 0 ≤ ctx.length)
    (hfit : ctx.length + run'.length ≤ 255) (hlt : run.length < run'.length)
    (hwraps : CounterWraps db (behind ctx run') stale insn) :
    ¬OrderFree db ctx run run' stale insn := by
  intro hfree
  have hcount : (contextBuffer (behind ctx run)).nb = run.length + ctx.length.toNat :=
    nb_behind run hlength (by omega)
  obtain ⟨vfpc, hrel⟩ := accepted_of_members db stale insn h h' hmem hlength hfit hlt.le
  obtain ⟨hnb', s', hs', hmissing'⟩ := hwraps
  have hs' : accepted db (behind ctx run') stale insn = some s' := hs'
  rw [hs'] at hrel
  cases hs : accepted db (behind ctx run) stale insn with
  | none =>
      rw [hs] at hrel
      cases hrel
  | some s =>
      rw [hs, Option.rel_some_some] at hrel
      have hpc := hrel.pc_eq
      have hnb := hrel.nb
      dsimp only at hpc hnb
      have hmissing : ModrmMissing db (contextBuffer (behind ctx run)) s := by
        have hout := hmissing'.2
        refine ⟨?_, by omega⟩
        have hreads := hmissing'.1
        obtain ⟨-, -, log, rfl⟩ := hrel
        exact hreads
      have hlength := (hfree.2 (by rw [decodeInsn_of_accepted hs])).length
      rw [decodeInsn_of_accepted hs, decodeInsn_of_accepted hs'] at hlength
      have hshort := (length_of_missing (accepted_opened hs) rfl hmissing).1 (by omega)
      have hwrapped := ((length_of_missing (accepted_opened hs') rfl hmissing').2 hnb').2
      dsimp only at hlength
      omega

/-- Order and repetition of the prefixes do not matter exactly where the byte counter does not
wrap behind a missing ModRM byte; of two runs of one length that both wrap this says nothing. -/
theorem orderFree_iff (h : LegacyRun run) (h' : LegacyRun run')
    (hmem : ∀ op, op ∈ run ↔ op ∈ run') (hlength : 0 ≤ ctx.length)
    (hfit : ctx.length + run.length ≤ 255) (hfit' : ctx.length + run'.length ≤ 255) :
    (¬(run ≠ run' ∧ (CounterWraps db (behind ctx run) stale insn ∨
          CounterWraps db (behind ctx run') stale insn)) →
        OrderFree db ctx run run' stale insn) ∧
      (OrderFree db ctx run run' stale insn →
        ¬(run.length ≠ run'.length ∧ (CounterWraps db (behind ctx run) stale insn ∨
          CounterWraps db (behind ctx run') stale insn))) := by
  have hmem' : ∀ op, op ∈ run' ↔ op ∈ run := fun op => (hmem op).symm
  have hnb := nb_behind run hlength hfit
  have hnb' := nb_behind run' hlength hfit'
  refine ⟨fun hcond => ?_, fun hfree hwraps => ?_⟩
  · by_cases hsame : run = run'
    · subst hsame
      exact ⟨rfl, fun _ => ⟨rfl, rfl, rfl, rfl, rfl⟩⟩
    · obtain hle | hle := Nat.le_total run.length run'.length
      · exact orderFree_of_fits h h' hmem hlength hfit' hle fun hw => hcond ⟨hsame, Or.inr hw⟩
      · exact (orderFree_of_fits h' h hmem' hlength hfit hle
          fun hw => hcond ⟨hsame, Or.inl hw⟩).symm
  · obtain ⟨hne, hwraps⟩ := hwraps
    -- only the longer input reaches 255 bytes
    obtain hlt | hlt := Nat.lt_or_gt_of_ne hne
    · obtain hw | hw := hwraps
      · have hfull := hw.1
        omega
      · exact not_orderFree_of_wraps h h' hmem hlength hfit' hlt hw hfree
    · obtain hw | hw := hwraps
      · exact not_orderFree_of_wraps h' h hmem' hlength hfit hlt hw hfree.symm
      · have hfull := hw.1
        omega

end Runs

open Excerpt in
/-- `HLT` behind 66 67 and behind 67 66 66. -/
theorem orderFree_hlt :
    OrderFree tables (contextOf .mode32 [0xf4] 1) [0x66, 0x67] [0x67, 0x66, 0x66] default
      default := by
  have hnb : ∀ run : List UInt8, run.length < 4 →
      ¬CounterWraps tables (behind (contextOf .mode32 [0xf4] 1) run) default default := by
    intro run hlt hwraps
    have hfull := hwraps.1
    rw [nb_behind run (by decide) (by change (1 : Int) + run.length ≤ 255; omega)] at hfull
    change run.length + 1 = 255 at hfull
    omega
  refine (orderFree_iff ⟨List.all_eq_true.mp rfl, by decide, by decide⟩
    ⟨List.all_eq_true.mp rfl, by decide, by decide⟩ (fun op => ?_) (by decide) (by decide)
    (by decide)).1 fun hcond => ?_
  · simp only [List.mem_cons, List.not_mem_nil, or_false, or_self]
    exact Or.comm
  · obtain ⟨-, hwraps | hwraps⟩ := hcond
    · exact hnb _ (by decide) hwraps
    · exact hnb _ (by decide) hwraps

open Excerpt in
/-- `ADD` without its ModRM byte behind 66 has length 3, behind 254 of them length 0. -/
theorem not_orderFree_add :
    ¬∀ (db : Db) (ctx : Context) (run run' : List UInt8) (stale : Internal) (insn : Insn),
      LegacyRun run → LegacyRun run' → (∀ op, op ∈ run ↔ op ∈ run') → 0 ≤ ctx.length →
        ctx.length + run.length ≤ 255 → ctx.length + run'.length ≤ 255 →
          OrderFree db ctx run run' stale insn := by
  intro h
  have hfree := h tables (contextOf .mode32 [0x01] 1) [0x66] (List.replicate 254 0x66) default
    default ⟨List.all_eq_true.mp rfl, by decide, by decide⟩
    ⟨fun op hop => List.eq_of_mem_replicate hop ▸ rfl, by decide +kernel, by decide +kernel⟩
    (fun op => List.mem_singleton.trans (List.mem_replicate.trans (and_iff_right (by decide))).symm)
    (by decide) (by decide) (by rw [List.length_replicate]; decide)
  exact absurd (hfree.2 (by decide +kernel)).length (by decide +kernel)

end Amed.X86

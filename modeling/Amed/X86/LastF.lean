import Amed.X86.PrefixRun

/-!
# The last of the F2 and F3 prefixes

A run with F2 and F3 prefixes in front of a legacy-encoded opcode against the same run with
only the last of them. The last one decides the functionality of the prefix, but each of the
two leaves a bit of its own in the hashcode, and nothing clears the bit of the earlier one.
-/

namespace Amed.X86

open Bytes Folds

/-- The prefixes F2 and F3. -/
def isFByte (op : UInt8) : Bool := op = 0xf2 || op = 0xf3

/-- The run without the F2 and F3 prefixes but the last one. -/
def keepLastF (run : List UInt8) : List UInt8 := keepLast isFByte run

theorem isFByte_cases {op : UInt8} (h : isFByte op = true) : op = 0xf2 ∨ op = 0xf3 := by
  simpa [isFByte] using h

theorem applyPrefix_f2 (df : DefaultSizes) (s : Internal) :
    applyPrefix df s 0xf2 = (({ s with
      vfpc := (s.vfpc + 1) % 256, lastFPrefix := prefixF2, diagram.f2 := true }).advance
        1).addBytecode .prefixByte [0xf2] := rfl

theorem applyPrefix_f3 (df : DefaultSizes) (s : Internal) :
    applyPrefix df s 0xf3 = (({ s with
      vfpc := (s.vfpc + 1) % 256, lastFPrefix := prefixF3, diagram.f3 := true }).advance
        1).addBytecode .prefixByte [0xf3] := rfl

/-! ## What the removed prefixes leave -/

/-- The second state has seen more F2 and F3 prefixes than the first one. -/
structure Strays (s s' : Internal) : Prop where
  f2 : s.diagram.f2 = true → s'.diagram.f2 = true
  f3 : s.diagram.f3 = true → s'.diagram.f3 = true
  state : ∃ pc vfpc log last f2 f3, s' = { s with
    pc := pc, vfpc := vfpc, insn.x86.log := log, lastFPrefix := last
    diagram := { s.diagram with f2 := f2, f3 := f3 } }

theorem Strays.refl (s : Internal) : Strays s s :=
  ⟨id, id, s.pc, s.vfpc, s.insn.x86.log, s.lastFPrefix, s.diagram.f2, s.diagram.f3, rfl⟩

/-- A prefix that both runs have. -/
theorem Strays.applyPrefix {s s' : Internal} (h : Strays s s') (df : DefaultSizes) (op : UInt8) :
    Strays (applyPrefix df s op) (applyPrefix df s' op) := by
  obtain ⟨hf2, hf3, pc, vfpc, log, last, f2, f3, rfl⟩ := h
  unfold Amed.X86.applyPrefix prefixEffect
  split
  · exact ⟨hf2, hf3, _, _, _, _, _, _, rfl⟩
  · split
    -- F2 and F3 set a bit in both states, the other prefixes none
    all_goals first
      | exact ⟨hf2, hf3, _, _, _, _, _, _, rfl⟩
      | exact ⟨fun _ => rfl, hf3, _, _, _, _, _, _, rfl⟩
      | exact ⟨hf2, fun _ => rfl, _, _, _, _, _, _, rfl⟩

/-- A prefix that only the second run has. -/
theorem Strays.removed {s s' : Internal} (h : Strays s s') (df : DefaultSizes) {op : UInt8}
    (hop : isFByte op = true) : Strays s (Amed.X86.applyPrefix df s' op) := by
  obtain ⟨hf2, hf3, pc, vfpc, log, last, f2, f3, rfl⟩ := h
  obtain rfl | rfl := isFByte_cases hop
  · rw [applyPrefix_f2]
    exact ⟨fun _ => rfl, hf3, _, _, _, _, _, _, rfl⟩
  · rw [applyPrefix_f3]
    exact ⟨hf2, fun _ => rfl, _, _, _, _, _, _, rfl⟩

theorem foldl_keepLastF_strays (df : DefaultSizes) (run : List UInt8) (s : Internal) :
    Strays ((keepLastF run).foldl (applyPrefix df) s) (run.foldl (applyPrefix df) s) :=
  foldl_keepLast_rel (fun op _ _ _ h => h.applyPrefix df op)
    (fun _ _ hop _ _ h => h.removed df hop) (Strays.refl s)

/-- What a prefix does to the variable for the last of F2 and F3. -/
def lastFStep (last : Nat) (op : UInt8) : Nat :=
  if op = 0xf2 then prefixF2 else if op = 0xf3 then prefixF3 else last

theorem applyPrefix_lastFPrefix (df : DefaultSizes) (s : Internal) (op : UInt8) :
    (applyPrefix df s op).lastFPrefix = lastFStep s.lastFPrefix op := by
  by_cases hf : isFByte op = true
  · obtain rfl | rfl := isFByte_cases hf
    · rfl
    · rfl
  · obtain ⟨h2, h3⟩ : op ≠ 0xf2 ∧ op ≠ 0xf3 := by simpa [isFByte] using hf
    have hlast : (prefixEffect df s op).lastFPrefix = s.lastFPrefix := by
      unfold prefixEffect
      split
      · rfl
      · split
        any_goals rfl
        · rename_i _ h
          exact absurd (UInt8.toNat_inj.mp h) h2
        · rename_i _ h
          exact absurd (UInt8.toNat_inj.mp h) h3
    rw [lastFStep, if_neg h2, if_neg h3]
    exact hlast

theorem foldl_lastFPrefix (df : DefaultSizes) (run : List UInt8) (s : Internal) :
    (run.foldl (applyPrefix df) s).lastFPrefix = run.foldl lastFStep s.lastFPrefix := by
  induction run generalizing s with
  | nil => rfl
  | cons op run ih =>
      rw [List.foldl_cons, ih, applyPrefix_lastFPrefix]
      rfl

/-- The last prefix is the same in both runs. -/
theorem foldl_keepLastF_lastFPrefix (df : DefaultSizes) (run : List UInt8) (s : Internal) :
    ((keepLastF run).foldl (applyPrefix df) s).lastFPrefix =
      (run.foldl (applyPrefix df) s).lastFPrefix := by
  rw [foldl_lastFPrefix, foldl_lastFPrefix]
  refine foldl_keepLast (fun op _ hop s s' => ?_) (fun op _ hop s => ?_) s.lastFPrefix
  · obtain rfl | rfl := isFByte_cases hop
    · rfl
    · rfl
  · obtain ⟨h2, h3⟩ : op ≠ 0xf2 ∧ op ≠ 0xf3 := by simpa [isFByte] using hop
    rw [lastFStep, if_neg h2, if_neg h3]

/-- Behind the runs only the counter, the counts and the bits of F2 and F3 differ. -/
theorem Strays.drifted {s s' : Internal} (h : Strays s s')
    (hlast : s'.lastFPrefix = s.lastFPrefix) {ahead : Nat} (hpc : s'.pc = s.pc + ahead) :
    s' = s.drifted ⟨ahead, s'.vfpc, s'.diagram.f2, s'.diagram.f3⟩ s'.insn.x86.log := by
  obtain ⟨hf2, hf3, pc, vfpc, log, last, f2, f3, rfl⟩ := h
  obtain rfl : pc = s.pc + ahead := hpc
  obtain rfl : last = s.lastFPrefix := hlast
  have h2 : f2 = (s.diagram.f2 || f2) := by
    cases hs : s.diagram.f2 with
    | false => rfl
    | true => exact hf2 hs
  have h3 : f3 = (s.diagram.f3 || f3) := by
    cases hs : s.diagram.f3 with
    | false => rfl
    | true => exact hf3 hs
  exact congrArg₂ (fun g₂ g₃ => { s with
    pc := s.pc + ahead, vfpc := vfpc, insn.x86.log := log
    diagram := { s.diagram with f2 := g₂, f3 := g₃ } }) h2 h3

/-! ## The bits of the last prefix alone -/

/-- The bits of F2 and F3 are those the features bring along and that of the last prefix. -/
structure LastOnly (f2 f3 : Bool) (s : Internal) : Prop where
  f2 : s.diagram.f2 = (f2 || s.lastFPrefix = prefixF2)
  f3 : s.diagram.f3 = (f3 || s.lastFPrefix = prefixF3)

/-- A state with the bits of the last prefix alone. -/
def Internal.lastFOnly (s : Internal) (f2 f3 : Bool) : Internal :=
  { s with diagram := { s.diagram with
    f2 := f2 || s.lastFPrefix = prefixF2, f3 := f3 || s.lastFPrefix = prefixF3 } }

theorem applyPrefix_f2f3 (df : DefaultSizes) (s : Internal) {op : UInt8}
    (hop : isFByte op = false) :
    (applyPrefix df s op).diagram.f2 = s.diagram.f2 ∧
      (applyPrefix df s op).diagram.f3 = s.diagram.f3 := by
  obtain ⟨h2, h3⟩ : op ≠ 0xf2 ∧ op ≠ 0xf3 := by simpa [isFByte] using hop
  unfold applyPrefix prefixEffect
  split
  · exact ⟨rfl, rfl⟩
  · split
    any_goals exact ⟨rfl, rfl⟩
    · rename_i _ h
      exact absurd (UInt8.toNat_inj.mp h) h2
    · rename_i _ h
      exact absurd (UInt8.toNat_inj.mp h) h3

/-- The run with the last F2 or F3 alone sets the bit of the last one alone. -/
theorem foldl_keepLastF_lastOnly (df : DefaultSizes) {f2 f3 : Bool} (run : List UInt8)
    {s : Internal} (h : LastOnly f2 f3 s)
    (hfresh : s.lastFPrefix = 0 ∨ run.any isFByte = false) :
    LastOnly f2 f3 ((keepLastF run).foldl (applyPrefix df) s) := by
  induction run generalizing s with
  | nil => exact h
  | cons op run ih =>
      unfold keepLastF at ih ⊢
      by_cases hdropped : isFByte op = true ∧ run.any isFByte = true
      · rw [keepLast_cons_of_dropped hdropped.1 hdropped.2]
        refine ih h (Or.inl (hfresh.resolve_right fun hnone => ?_))
        rw [List.any_cons, hdropped.1] at hnone
        exact Bool.noConfusion hnone
      · rw [keepLast_cons_of_kept hdropped]
        cases hop : isFByte op with
        | true =>
            have hrest : run.any isFByte = false := by
              simpa using fun hany => hdropped ⟨hop, hany⟩
            have hzero : s.lastFPrefix = 0 := by
              refine hfresh.resolve_right fun hnone => ?_
              rw [List.any_cons, hop] at hnone
              exact Bool.noConfusion hnone
            refine ih ?_ (Or.inr hrest)
            obtain ⟨h2, h3⟩ := h
            rw [hzero] at h2 h3
            obtain rfl | rfl := isFByte_cases hop
            · rw [applyPrefix_f2]
              exact ⟨by simp [Internal.addBytecode, Internal.advance], h3⟩
            · rw [applyPrefix_f3]
              exact ⟨h2, by simp [Internal.addBytecode, Internal.advance]⟩
        | false =>
            obtain ⟨h2, h3⟩ := applyPrefix_f2f3 df s hop
            have hlast : (applyPrefix df s op).lastFPrefix = s.lastFPrefix := by
              obtain ⟨h2, h3⟩ : op ≠ 0xf2 ∧ op ≠ 0xf3 := by simpa [isFByte] using hop
              rw [applyPrefix_lastFPrefix, lastFStep, if_neg h2, if_neg h3]
            refine ih ⟨?_, ?_⟩ ?_
            · rw [h2, hlast, h.f2]
            · rw [h3, hlast, h.f3]
            · rw [hlast]
              rw [List.any_cons, hop, Bool.false_or] at hfresh
              exact hfresh

/-! ## Up to the lookup -/

/-- Both runs see the same vector prefix. -/
theorem Beside.vectorWidth_eq {buf buf' : Buffer} {drift : Drift} {s s' : Internal}
    (h : Beside buf buf' drift s s') (longMode : Bool) :
    vectorWidth buf' longMode s'.pc = vectorWidth buf longMode s.pc := by
  unfold vectorWidth
  rw [h.peekByte_eq]
  cases (buf.peekByte s.pc).bind (vectorPrefix longMode) with
  | none => rfl
  | some p =>
      obtain ⟨n, accepts⟩ := p
      dsimp only
      rw [h.peekBytes_eq]

/-- Without a vector prefix the escape leaves the diagram and the last prefix alone. -/
theorem leaveLoop_legacy {buf : Buffer} {s : Internal}
    (h : vectorWidth buf s.diagram.longMode s.pc = 0) :
    (leaveLoop buf s).diagram = s.diagram ∧ (leaveLoop buf s).lastFPrefix = s.lastFPrefix ∧
      (leaveLoop buf s).vfpc = s.vfpc := by
  unfold leaveLoop
  cases hop : buf.peekByte s.pc with
  | none => exact ⟨rfl, rfl, rfl⟩
  | some op =>
      dsimp only
      obtain ⟨-, -, hsame⟩ | ⟨-, hvector, -⟩ | ⟨rfl, -⟩ := decodeEscape_cases hop
      · rw [hsame]
        exact ⟨rfl, rfl, rfl⟩
      · exact absurd h hvector
      · change (decodeMap buf s).diagram = _ ∧ (decodeMap buf s).lastFPrefix = _ ∧
          (decodeMap buf s).vfpc = _
        unfold decodeMap
        dsimp only
        split <;> exact ⟨rfl, rfl, rfl⟩

/-- The states of the two runs in which the template is looked up. -/
structure LookupsBeside (buf buf' : Buffer) (drift : Drift) (f2 f3 : Bool)
    (t t' : Internal) : Prop where
  beside : Beside buf buf' drift t t'
  vfpc : drift.vfpc = 0 ↔ t.vfpc = 0
  last : LastOnly f2 f3 t

/-- Side by side behind the prefixes, both runs fetch the opcode or neither does. -/
theorem fetchOpcode_lookups (db : Db) {buf buf' : Buffer} {drift : Drift} {s s' : Internal}
    {f2 f3 : Bool} (h : Beside buf buf' drift s s') (hvfpc : drift.vfpc = 0 ↔ s.vfpc = 0)
    (hlast : LastOnly f2 f3 s) (hlegacy : vectorWidth buf s.diagram.longMode s.pc = 0) :
    (match fetchOpcode db buf (leaveLoop buf s) with
      | (false, _) => none
      | (true, s) => some s : Option Internal).Rel (LookupsBeside buf buf' drift f2 f3)
      (match fetchOpcode db buf' (leaveLoop buf' s') with
        | (false, _) => none
        | (true, s) => some s) := by
  have hfetch := fetchOpcode_leaveLoop_beside db h
  have hcarried := fetchOpcode_carried db buf (leaveLoop buf s)
  obtain ⟨hdiagram, hlastF, hcount⟩ := leaveLoop_legacy hlegacy
  generalize fetchOpcode db buf (leaveLoop buf s) = r at hfetch hcarried ⊢
  generalize fetchOpcode db buf' (leaveLoop buf' s') = r' at hfetch ⊢
  obtain ⟨ok, t⟩ := r
  obtain ⟨ok', t'⟩ := r'
  obtain ⟨rfl, ht⟩ : ok' = ok ∧ Beside buf buf' drift t t' := hfetch
  cases ok' with
  | false => exact .none
  | true =>
      have hf2 : t.diagram.f2 = (leaveLoop buf s).diagram.f2 :=
        congrArg (fun c : Carried => c.diagram.f2) hcarried
      have hf3 : t.diagram.f3 = (leaveLoop buf s).diagram.f3 :=
        congrArg (fun c : Carried => c.diagram.f3) hcarried
      have hlast' : t.lastFPrefix = s.lastFPrefix :=
        (congrArg Carried.lastFPrefix hcarried).trans hlastF
      have hvfpc' : t.vfpc = s.vfpc := (congrArg Carried.vfpc hcarried).trans hcount
      refine .some ⟨ht, ?_, ?_, ?_⟩
      · rw [hvfpc']
        exact hvfpc
      · rw [hf2, hdiagram, hlast']
        exact hlast.f2
      · rw [hf3, hdiagram, hlast']
        exact hlast.f3

section Runs

variable {db : Db} {ctx : Context} {run : List UInt8} {stale : Internal} {insn : Insn}

theorem keepLastF_length_le (run : List UInt8) : (keepLastF run).length ≤ run.length :=
  (keepLast_sublist isFByte run).length_le

theorem mem_of_mem_keepLastF {run : List UInt8} {op : UInt8} (h : op ∈ keepLastF run) :
    op ∈ run := (keepLast_sublist isFByte run).subset h

/-- The prefix run of an accepted input whose run is not continued by its opcode. -/
theorem prefixBytes_behind (hrun : ∀ op ∈ run, isPrefixByte (isLongMode ctx) op = true)
    (hopcode : isPrefixByte (isLongMode ctx) (ctx.address 0) = false)
    (hin : run.length < (contextBuffer (behind ctx run)).nb) :
    prefixBytes (contextBuffer (behind ctx run)) (isLongMode ctx) 0 = run := by
  have hpeek : (contextBuffer (behind ctx run)).peekByte (0 + run.length) =
      some (ctx.address 0) := by
    refine peekByte_eq_some.mpr ⟨by omega, ?_⟩
    have haddr := behind_address_add ctx run 0
    rw [Nat.add_zero] at haddr
    rw [Nat.zero_add]
    exact haddr.symm
  rw [prefixBytes_of_run (by omega) (slice_behind ctx run) hrun, prefixBytes_of_some hpeek,
    hopcode]
  exact List.append_nil run

/-- No prefix that a vector encoding forbids is lost. -/
theorem keepLastF_vfpc (df : DefaultSizes) {s : Internal} (hzero : s.vfpc = 0)
    (hlt : run.length < 256) :
    (run.foldl (applyPrefix df) s).vfpc = 0 ↔
      ((keepLastF run).foldl (applyPrefix df) s).vfpc = 0 := by
  have hany : (keepLastF run).any isIllegalPrefix = run.any isIllegalPrefix := by
    refine any_keepLast (fun op hop => ?_) run
    obtain rfl | rfl := isFByte_cases hop <;> decide
  rw [foldl_applyPrefix_vfpc_eq_zero df hzero hlt, foldl_applyPrefix_vfpc_eq_zero df hzero
    ((keepLastF_length_le run).trans_lt hlt), ← List.any_eq_false, ← List.any_eq_false, hany]

variable (db stale insn) in
/-- Both runs reach the lookup side by side, or neither does. -/
theorem lookedUp_lookups (hrun : ∀ op ∈ run, isPrefixByte (isLongMode ctx) op = true)
    (hopcode : isPrefixByte (isLongMode ctx) (ctx.address 0) = false)
    (hlegacy : LegacyEncoded (behind ctx run))
    (hin : run.length < (contextBuffer (behind ctx run)).nb)
    (hnb : (contextBuffer (behind ctx run)).nb =
      (contextBuffer (behind ctx (keepLastF run))).nb + (run.length - (keepLastF run).length)) :
    ∃ drift : Drift, drift.ahead = run.length - (keepLastF run).length ∧
      (lookedUp db (behind ctx (keepLastF run)) stale insn).Rel
        (LookupsBeside (contextBuffer (behind ctx (keepLastF run)))
          (contextBuffer (behind ctx run)) drift (ctx.features.getLsbD 12)
          (ctx.features.getLsbD 13))
        (lookedUp db (behind ctx run) stale insn) := by
  have hle := keepLastF_length_le run
  have hlt := (contextBuffer (behind ctx run)).nb_lt
  have hbytes := prefixBytes_behind hrun hopcode hin
  have hbytes' := prefixBytes_behind (fun op hop => hrun op (mem_of_mem_keepLastF hop)) hopcode
    (show (keepLastF run).length < (contextBuffer (behind ctx (keepLastF run))).nb by omega)
  cases hdf : defaultSizes ctx.machineMode with
  | none =>
      refine ⟨⟨_, 0, false, false⟩, rfl, ?_⟩
      have hnone : ∀ r, lookedUp db (behind ctx r) stale insn = none := by
        intro r
        unfold lookedUp fetched
        rw [show defaultSizes (behind ctx r).machineMode = none from hdf]
      rw [hnone, hnone]
      exact .none
  | some df =>
      rw [lookedUp_behind hdf hbytes, lookedUp_behind hdf hbytes']
      generalize hstart : setMode ctx.machineMode df
        (initialise ctx.features (startState stale insn)) = s₀
      have hpc₀ : s₀.pc = 0 := by rw [← hstart]; rfl
      have hvfpc₀ : s₀.vfpc = 0 := by rw [← hstart]; rfl
      have hlast₀ : s₀.lastFPrefix = 0 := by rw [← hstart]; rfl
      have hlong₀ : s₀.diagram.longMode = isLongMode ctx := by rw [← hstart]; rfl
      have hflags₀ : LastOnly (ctx.features.getLsbD 12) (ctx.features.getLsbD 13) s₀ := by
        rw [← hstart]
        exact ⟨(Bool.or_false _).symm, (Bool.or_false _).symm⟩
      have hpc := foldl_applyPrefix_pc df run (s := s₀) (by omega)
      have hpc' := foldl_applyPrefix_pc df (keepLastF run) (s := s₀) (by omega)
      have hahead : (run.foldl (applyPrefix df) s₀).pc =
          ((keepLastF run).foldl (applyPrefix df) s₀).pc +
            (run.length - (keepLastF run).length) := by omega
      have hstate := (foldl_keepLastF_strays df run s₀).drifted
        (foldl_keepLastF_lastFPrefix df run s₀).symm hahead
      have hbeside := beside_of_runs ctx (by omega) (Nat.add_sub_cancel' hle).symm hnb hstate
      have hlong : ((keepLastF run).foldl (applyPrefix df) s₀).diagram.longMode =
          isLongMode ctx := (foldl_applyPrefix_frame df _ s₀).longMode.trans hlong₀
      refine ⟨_, rfl, fetchOpcode_lookups db hbeside (keepLastF_vfpc df hvfpc₀ (by omega))
        (foldl_keepLastF_lastOnly df run hflags₀ (Or.inl hlast₀)) ?_⟩
      rw [hlong, ← hbeside.vectorWidth_eq, hpc, hpc₀, Nat.zero_add]
      have hprefixes : contextPrefixes (behind ctx run) = run := hbytes
      have hwidth : vectorWidth (contextBuffer (behind ctx run)) (isLongMode ctx)
        (contextPrefixes (behind ctx run)).length = 0 := hlegacy
      rwa [hprefixes] at hwidth

end Runs

/-! ## The last prefix wins -/

/-- What an instruction is decoded as: the encoding and the template, the functionality of the
prefix and the arguments. -/
structure Choice where
  encoding : Nat
  ptemplate : Nat
  prefixFunctionality : PrefixFunctionality
  argumentCount : Nat
  arguments : Nat → Argument

def Internal.choice (s : Internal) : Choice :=
  ⟨s.encoding, s.ptemplate, s.insn.x86.prefixFunctionality, s.insn.argumentCount,
    s.insn.arguments⟩

/-- The run decodes like the one with the last F2 or F3 alone. -/
def LastFWins (db : Db) (ctx : Context) (run : List UInt8) (stale : Internal)
    (insn : Insn) : Prop :=
  let r := decodeRun db (behind ctx run) stale insn
  let r' := decodeRun db (behind ctx (keepLastF run)) stale insn
  r.1 = r'.1 ∧ (r.1 = true → r.2.choice = r'.2.choice)

/-- The lookup does not notice the bit of an earlier F2 or F3, and the 8-bit count covers the
opcode in both runs or in neither. -/
structure LookupForgets (db : Db) (ctx : Context) (run : List UInt8) (stale : Internal)
    (insn : Insn) : Prop where
  accepts : Accepts (behind ctx run) ↔ Accepts (behind ctx (keepLastF run))
  lookup : ∀ t ∈ lookedUp db (behind ctx run) stale insn,
    lookupIndex db t = lookupIndex db
      (t.lastFOnly (ctx.features.getLsbD 12) (ctx.features.getLsbD 13))

/-- The byte counter wraps behind a missing ModRM byte in the longer run only. -/
def WrapsLater (db : Db) (ctx : Context) (run : List UInt8) (stale : Internal)
    (insn : Insn) : Prop :=
  keepLastF run ≠ run ∧ CounterWraps db (behind ctx run) stale insn

section Runs

variable {db : Db} {ctx : Context} {run : List UInt8} {stale : Internal} {insn : Insn}

/-- The counts of two accepted inputs differ by the removed prefixes. -/
theorem nb_of_accepts (hrun : ∀ op ∈ run, isPrefixByte (isLongMode ctx) op = true)
    (hacc : Accepts (behind ctx run)) :
    run.length < (contextBuffer (behind ctx run)).nb ∧
      (contextBuffer (behind ctx run)).nb =
        (contextBuffer (behind ctx (keepLastF run))).nb +
          (run.length - (keepLastF run).length) := by
  have hlt := run_lt_of_accepts hrun hacc
  have hle := keepLastF_length_le run
  refine ⟨hlt, ?_⟩
  have hnb : (contextBuffer (behind ctx run)).nb = ((ctx.length + run.length) % 256).toNat := rfl
  have hnb' : (contextBuffer (behind ctx (keepLastF run))).nb =
      ((ctx.length + (keepLastF run).length) % 256).toNat := rfl
  omega

variable (db stale insn) in
/-- The look-ups of two accepted runs. -/
theorem lookups_of_accepts (hrun : ∀ op ∈ run, isPrefixByte (isLongMode ctx) op = true)
    (hopcode : isPrefixByte (isLongMode ctx) (ctx.address 0) = false)
    (hlegacy : LegacyEncoded (behind ctx run)) (hacc : Accepts (behind ctx run)) :
    ∃ drift t t', drift.ahead = run.length - (keepLastF run).length ∧
      lookedUp db (behind ctx (keepLastF run)) stale insn = some t ∧
      lookedUp db (behind ctx run) stale insn = some t' ∧
      LookupsBeside (contextBuffer (behind ctx (keepLastF run)))
        (contextBuffer (behind ctx run)) drift (ctx.features.getLsbD 12)
        (ctx.features.getLsbD 13) t t' := by
  obtain ⟨hin, hnb⟩ := nb_of_accepts hrun hacc
  obtain ⟨drift, hahead, hrel⟩ := lookedUp_lookups db stale insn hrun hopcode hlegacy hin hnb
  have hsome := (accepted_isSome_iff db (behind ctx run) stale insn).mpr hacc
  rw [accepted_eq_map, Option.isSome_map] at hsome
  obtain ⟨t', ht'⟩ := Option.isSome_iff_exists.mp hsome
  rw [ht'] at hrel
  cases ht : lookedUp db (behind ctx (keepLastF run)) stale insn with
  | none =>
      rw [ht] at hrel
      cases hrel
  | some t =>
      rw [ht] at hrel
      cases hrel with
      | some h => exact ⟨drift, t, t', hahead, rfl, ht', h⟩

/-- The bit of the earlier prefix is all that the hashcodes of the two runs differ in. -/
theorem LookupsBeside.lookupIndex_lastFOnly {buf buf' : Buffer} {drift : Drift} {f2 f3 : Bool}
    {t t' : Internal} (h : LookupsBeside buf buf' drift f2 f3 t t') :
    lookupIndex db (t'.lastFOnly f2 f3) = lookupIndex db t := by
  obtain ⟨⟨-, -, log, rfl⟩, -, h2, h3⟩ := h
  have hdiagram : ((t.drifted drift log).lastFOnly f2 f3).diagram = t.diagram := by
    change ({ t.diagram with
      f2 := f2 || t.lastFPrefix = prefixF2, f3 := f3 || t.lastFPrefix = prefixF3 } : Diagram) = _
    rw [← h2, ← h3]
  unfold lookupIndex
  rw [hdiagram]
  rfl

theorem lastFWins_of_forgets (hrun : ∀ op ∈ run, isPrefixByte (isLongMode ctx) op = true)
    (hopcode : isPrefixByte (isLongMode ctx) (ctx.address 0) = false)
    (hlegacy : LegacyEncoded (behind ctx run))
    (hforgets : LookupForgets db ctx run stale insn)
    (hwraps : ¬WrapsLater db ctx run stale insn) : LastFWins db ctx run stale insn := by
  by_cases hsame : keepLastF run = run
  · unfold LastFWins
    rw [hsame]
    exact ⟨rfl, fun _ => rfl⟩
  have hfst := decodeRun_fst_iff db (behind ctx run) stale insn
  have hfst' := decodeRun_fst_iff db (behind ctx (keepLastF run)) stale insn
  have hok : (decodeRun db (behind ctx run) stale insn).1 =
      (decodeRun db (behind ctx (keepLastF run)) stale insn).1 :=
    Bool.eq_iff_iff.mpr (hfst.trans (hforgets.accepts.trans hfst'.symm))
  refine ⟨hok, fun htrue => ?_⟩
  have hacc := hfst.mp htrue
  obtain ⟨drift, t, t', hahead, ht, ht', h⟩ :=
    lookups_of_accepts db stale insn hrun hopcode hlegacy hacc
  have hselected : accepted db (behind ctx (keepLastF run)) stale insn =
      some (selectTemplate db t) := by rw [accepted_eq_map, ht]; rfl
  have hselected' : accepted db (behind ctx run) stale insn = some (selectTemplate db t') := by
    rw [accepted_eq_map, ht']; rfl
  have hlookup : lookupIndex db t' = lookupIndex db t :=
    (hforgets.lookup t' ht').trans h.lookupIndex_lastFOnly
  have hbeside := selectTemplate_beside db h.beside hlookup fun _ => h.vfpc
  have hfit := fits_of_not_wraps hbeside hselected' fun h => hwraps ⟨hsame, h⟩
  obtain ⟨u, u', hu, hends⟩ := decodeSelected_beside db hbeside hfit
  have hchoice : u'.choice = u.choice := by
    obtain ⟨-, -, log, rfl⟩ := hu
    rfl
  rw [decodeRun_of_accepted hselected, decodeRun_of_accepted hselected']
  change (decodeSelected db _ _).choice = (decodeSelected db _ _).choice
  obtain ⟨hend, hend'⟩ | ⟨hend, hend'⟩ := hends
  · rw [hend, hend']
    exact hchoice
  · rw [hend, hend']
    exact hchoice

theorem forgets_of_lastFWins (hrun : ∀ op ∈ run, isPrefixByte (isLongMode ctx) op = true)
    (hopcode : isPrefixByte (isLongMode ctx) (ctx.address 0) = false)
    (hlegacy : LegacyEncoded (behind ctx run)) (hwins : LastFWins db ctx run stale insn) :
    LookupForgets db ctx run stale insn := by
  have hfst := decodeRun_fst_iff db (behind ctx run) stale insn
  have hfst' := decodeRun_fst_iff db (behind ctx (keepLastF run)) stale insn
  obtain ⟨hok, hsame⟩ := hwins
  refine ⟨?_, fun t' ht' => ?_⟩
  · rw [← hfst, ← hfst']
    exact Bool.eq_iff_iff.mp hok
  · have hacc : Accepts (behind ctx run) := by
      rw [← accepted_isSome_iff db _ stale insn, accepted_eq_map, ht']
      rfl
    obtain ⟨drift, t, t₁, -, ht, ht₁, h⟩ :=
      lookups_of_accepts db stale insn hrun hopcode hlegacy hacc
    obtain rfl : t₁ = t' := Option.some.inj (ht₁.symm.trans ht')
    have hselected : accepted db (behind ctx (keepLastF run)) stale insn =
        some (selectTemplate db t) := by rw [accepted_eq_map, ht]; rfl
    have hselected' : accepted db (behind ctx run) stale insn = some (selectTemplate db t₁) := by
      rw [accepted_eq_map, ht₁]; rfl
    have hchoice := hsame (hfst.mpr hacc)
    rw [decodeRun_of_accepted hselected, decodeRun_of_accepted hselected'] at hchoice
    obtain ⟨hencoding, htemplate⟩ := decodeSelected_selected hselected
    obtain ⟨hencoding', htemplate'⟩ := decodeSelected_selected hselected'
    have hhigh : lookupIndex db t₁ / 2 ^ 16 = lookupIndex db t / 2 ^ 16 :=
      hencoding'.symm.trans ((congrArg Choice.encoding hchoice).trans hencoding)
    have hlow : lookupIndex db t₁ % 2 ^ 16 = lookupIndex db t % 2 ^ 16 :=
      htemplate'.symm.trans ((congrArg Choice.ptemplate hchoice).trans htemplate)
    rw [h.lookupIndex_lastFOnly, ← Nat.div_add_mod (lookupIndex db t₁) (2 ^ 16), hhigh, hlow,
      Nat.div_add_mod]

/-- The last of the F2 and F3 prefixes wins exactly where the lookup forgets the earlier ones,
apart from a byte counter that wraps behind a missing ModRM byte. -/
theorem lastFWins_iff (hrun : ∀ op ∈ run, isPrefixByte (isLongMode ctx) op = true)
    (hopcode : isPrefixByte (isLongMode ctx) (ctx.address 0) = false)
    (hlegacy : LegacyEncoded (behind ctx run)) :
    (LookupForgets db ctx run stale insn ∧ ¬WrapsLater db ctx run stale insn →
        LastFWins db ctx run stale insn) ∧
      (LastFWins db ctx run stale insn → LookupForgets db ctx run stale insn) :=
  ⟨fun h => lastFWins_of_forgets hrun hopcode hlegacy h.1 h.2,
    forgets_of_lastFWins hrun hopcode hlegacy⟩

end Runs

/-! ## F3 before F2 -/

open Excerpt in
/-- The entries of the opcode 90: `NOP`, `PAUSE` behind an F3 prefix, else `XCHG` with REX.B. -/
def nopTables : Db :=
  { tables with
    lookup := fun index hashcode =>
      if index = 0x90 then
        if hashcode.getLsbD 13 then 347 * 2 ^ 16 + 629
        else if hashcode.getLsbD 15 then 556 * 2 ^ 16 + 1002
        else 300 * 2 ^ 16 + 533
      else 0
    encodings := fun encoding =>
      match encoding with
      | 300 => { isa := 94, page := 86, categories := [29, 43, 0, 0], extension := 10 }
      | 347 => { isa := 114, page := 91, categories := [29, 0, 0, 0], extension := 37 }
      | 556 => { isa := 94, page := 147, categories := [29, 0, 0, 0], extension := 10 }
      | _ => {}
    templates := fun ptemplate =>
      match ptemplate with
      | 533 => { iform := 272, bitdiffs := 1 }
      | 629 => { iform := 290, bitdiffs := 1 }
      | 1002 => { iform := 497, bitdiffs := 1, arguments := 1308 }
      | _ => {}
    iform2mnem := fun iform =>
      match iform with
      | 272 => 147
      | 290 => 154
      | 497 => 250
      | _ => 0 }

open Excerpt in
/-- Two F2 prefixes before `NOP`: nothing is forgotten, and one of them decodes like both. -/
theorem lastFWins_nop :
    LookupForgets nopTables (contextOf .mode32 [0x90] 1) [0xf2, 0xf2] default default ∧
      LastFWins nopTables (contextOf .mode32 [0x90] 1) [0xf2, 0xf2] default default := by
  have hlookup : (lookedUp nopTables (behind (contextOf .mode32 [0x90] 1) [0xf2, 0xf2]) default
      default).all (fun t => lookupIndex nopTables t =
        lookupIndex nopTables (t.lastFOnly false false)) = true := by decide
  have hforgets : LookupForgets nopTables (contextOf .mode32 [0x90] 1) [0xf2, 0xf2] default
      default :=
    ⟨by decide, fun t ht => of_decide_eq_true ((Option.all_eq_true _ _).mp hlookup t ht)⟩
  exact ⟨hforgets, (lastFWins_iff (List.all_eq_true.mp rfl) (by decide) (by decide)).1
    ⟨hforgets, fun hwraps => absurd hwraps.2.1 (by decide)⟩⟩

open Excerpt in
/-- F3 and then F2 before the opcode 90 decode as `PAUSE`, F2 alone as `NOP`. -/
theorem not_lastFWins_pause :
    ¬∀ (db : Db) (ctx : Context) (run : List UInt8) (stale : Internal) (insn : Insn),
      (∀ op ∈ run, isPrefixByte (isLongMode ctx) op = true) →
        isPrefixByte (isLongMode ctx) (ctx.address 0) = false →
          LegacyEncoded (behind ctx run) → LastFWins db ctx run stale insn := by
  intro h
  have hwins := h nopTables (contextOf .mode32 [0x90] 1) [0xf3, 0xf2] default default
    (List.all_eq_true.mp rfl) (by decide) (by decide)
  have hencoding := congrArg Choice.encoding (hwins.2 (by decide))
  exact absurd hencoding (by decide)

end Amed.X86

import Amed.X86.Cut

/-!
# Truncated instructions

What becomes of an instruction when the buffer ends before it does. The outcomes of
`decode_modrm` and `decode_template` are not looked at, so an instruction that loses only
bytes behind its opcode and ModRM byte is still accepted.

## Implementation notes

`Stuck` relates the walk over a template in the shortened buffer, which is at its end, to
the walk in the whole one: whatever marks the first as undefined marks the second.
-/

namespace Amed.X86

open Bytes

/-! ## A walk with no bytes left -/

namespace Walk

/-- The walk `w` stands at the end of its window, the walk `w'` inside its own; both have
seen the same operands. -/
structure Stuck (limit limit' : Nat) (w w' : Walk) : Prop where
  pc : w.pc = limit
  pc' : w'.pc ≤ limit'
  vmem : w'.vmem = w.vmem
  asz : w'.asz = w.asz
  osz : w'.osz = w.osz
  sss : w'.sss = w.sss
  undefined : w.undefined = true → w'.undefined = true

variable {limit limit' : Nat} {mem mem' : Nat → UInt8} {w w' w'' : Walk}

/-- The walk that has bytes left may go on. -/
theorem Stuck.ahead (h : Stuck limit limit' w w') (hg : w'.Grows w'') (hv : w''.vmem = w'.vmem)
    (hpc : w''.pc ≤ limit') : Stuck limit limit' w w'' :=
  ⟨h.pc, hpc, hv.trans h.vmem, hg.asz.trans h.asz, hg.osz.trans h.osz, hg.sss.trans h.sss,
    fun hu => hg.undefined (h.undefined hu)⟩

/-- At the end of the bytes nothing can be read. -/
theorem read_at_end (h : w.pc = limit) {type : BytecodeType} {n : Nat} (hn : n ≠ 0) :
    w.read ⟨mem, some limit⟩ type n = none := by
  refine if_neg fun hholds => ?_
  have hle : w.pc + n ≤ limit := hholds limit rfl
  omega

theorem read_of_holds {win : Window} {type : BytecodeType} {n : Nat} (h : win.Holds (w.pc + n)) :
    w.read win type n = some { w with
      pc := w.pc + n
      fields := w.fields ++ [⟨type, slice win.mem w.pc n⟩] } :=
  if_pos h

theorem is4_at_end (h : w.pc = limit) : w.is4 ⟨mem, some limit⟩ = w := by
  unfold is4
  rw [read_at_end h (by decide)]
  split <;> rfl

theorem register_at_end (h : w.pc = limit) (node : DbReg) :
    w.register ⟨mem, some limit⟩ node = w := by
  unfold register
  split
  · exact is4_at_end h
  · rfl

/-- The is4 byte is read only where there is one. -/
theorem is4_pc_le (h : w.pc ≤ limit) : (w.is4 ⟨mem, some limit⟩).pc ≤ limit := by
  unfold is4
  split
  · exact h
  · split
    · exact h
    · rename_i hread
      obtain ⟨hholds, rfl⟩ := read_eq_some hread
      exact hholds limit rfl

theorem register_pc_le (h : w.pc ≤ limit) (node : DbReg) :
    (w.register ⟨mem, some limit⟩ node).pc ≤ limit := by
  unfold register
  split
  · exact is4_pc_le h
  · exact h

variable (mem mem') in
/-- A register reads the is4 byte at most. -/
theorem Stuck.register (h : Stuck limit limit' w w') (node : DbReg) :
    Stuck limit limit' (w.register ⟨mem, some limit⟩ node)
      (w'.register ⟨mem', some limit'⟩ node) := by
  rw [register_at_end h.pc]
  exact h.ahead (register_grows _ w' node) (register_keeps _ w' node).2.1 (register_pc_le h.pc' node)

variable (mem mem') in
theorem Stuck.optionalRegister (h : Stuck limit limit' w w') (node : Option DbReg) :
    Stuck limit limit' (w.optionalRegister ⟨mem, some limit⟩ node)
      (w'.optionalRegister ⟨mem', some limit'⟩ node) := by
  cases node with
  | none => exact h
  | some node => exact h.register mem mem' node

/-- Two outcomes of a node: what is undefined at the end of the window is undefined in any
case, and where the node goes through it does so in any case. -/
def StuckOutcome (limit limit' : Nat) (q q' : Bool × Walk) : Prop :=
  (q.2.undefined = true → q'.2.undefined = true) ∧
    (q.1 = true → q'.1 = true ∧ Stuck limit limit' q.2 q'.2)

theorem Stuck.through (h : Stuck limit limit' w w') :
    StuckOutcome limit limit' (true, w) (true, w') :=
  ⟨h.undefined, fun _ => ⟨rfl, h⟩⟩

theorem Stuck.refused (h : Stuck limit limit' w w') {q' : Bool × Walk} (hg : w'.Grows q'.2) :
    StuckOutcome limit limit' (false, w) q' :=
  ⟨fun hu => hg.undefined (h.undefined hu), fun hok => absurd hok (by simp)⟩

theorem Stuck.memory (h : Stuck limit limit' w w') (i : Nat) (node : DbMem) :
    Stuck limit limit' (w.memory ⟨mem, some limit⟩ i node) (w'.memory ⟨mem', some limit'⟩ i node) := by
  unfold Walk.memory
  dsimp only
  split
  · exact ⟨h.pc, h.pc', rfl, h.asz, h.osz, h.sss, h.undefined⟩
  · have hregs := (h.optionalRegister mem mem' node.seg).optionalRegister mem mem' node.base
    exact ⟨hregs.pc, hregs.pc', rfl, hregs.asz, hregs.osz, hregs.sss, hregs.undefined⟩

theorem Stuck.imm (db : Db) (h : Stuck limit limit' w w') (node : DbAny) :
    StuckOutcome limit limit' (w.imm db ⟨mem, some limit⟩ node)
      (w'.imm db ⟨mem', some limit'⟩ node) := by
  have hgrows := imm_grows db ⟨mem', some limit'⟩ w' node
  unfold Walk.imm at hgrows ⊢
  split
  · exact h.through
  · rename_i henc
    rw [if_neg henc] at hgrows
    split
    · rw [is4_at_end h.pc]
      exact (h.ahead (is4_grows _ w') (is4_keeps _ w').2.1 (is4_pc_le h.pc')).through
    · rename_i his4
      rw [if_neg his4, h.osz] at hgrows
      rw [h.osz]
      by_cases hzero : immBytes db w.osz node = 0
      · rw [hzero, read_of_holds (by simp [Window.Holds, h.pc]),
          read_of_holds (by simpa [Window.Holds] using h.pc')]
        exact ⟨h.undefined, fun _ => ⟨rfl, ⟨h.pc, h.pc', h.vmem, h.asz, h.osz, h.sss, h.undefined⟩⟩⟩
      · rw [read_at_end h.pc hzero]
        exact h.refused hgrows

theorem moffsWidth_ne {asz n : Nat} {dt : Datatype} (h : moffsWidth asz = some (dt, n)) : n ≠ 0 := by
  unfold moffsWidth at h
  split at h <;> simp_all <;> omega

theorem moffs_at_end (h : w.pc = limit) : w.moffs ⟨mem, some limit⟩ = (false, w) := by
  unfold moffs
  split
  · rfl
  · rw [read_at_end h (moffsWidth_ne ‹_›)]

theorem ptr_at_end (h : w.pc = limit) : w.ptr ⟨mem, some limit⟩ = (false, w) := by
  unfold ptr
  rw [read_at_end h (by decide)]

theorem Stuck.swz (h : Stuck limit limit' w w') (node : DbSwz) :
    StuckOutcome limit limit' (w.swz node) (w'.swz node) := by
  unfold Walk.swz
  rw [h.vmem, h.sss]
  split
  · exact h.through
  · dsimp only
    split
    · exact ⟨fun _ => rfl, fun _ => ⟨rfl, ⟨h.pc, h.pc', rfl, h.asz, h.osz, rfl, fun _ => rfl⟩⟩⟩
    · exact ⟨h.undefined, fun hok => ⟨hok, h⟩⟩

variable (mem mem') in
/-- A node that goes through at the end of the window goes through in the other walk too. -/
theorem Stuck.node (db : Db) (h : Stuck limit limit' w w') (i : Nat) (node : DbNode) :
    StuckOutcome limit limit' (w.node db ⟨mem, some limit⟩ i node)
      (w'.node db ⟨mem', some limit'⟩ i node) := by
  have ht : Stuck limit limit' (w.touch i) (w'.touch i) :=
    ⟨h.pc, h.pc', h.vmem, h.asz, h.osz, h.sss, h.undefined⟩
  cases node with
  | reg node => exact (ht.register mem mem' node).through
  | preg node => exact (ht.register mem mem' node).through
  | vreg node =>
      have hreg := ht.register mem mem' node
      exact Stuck.through ⟨hreg.pc, hreg.pc', hreg.vmem, hreg.asz, hreg.osz, hreg.sss, hreg.undefined⟩
  | mem node => exact (ht.memory i node).through
  | agen node => exact (ht.memory i node).through
  | mib node => exact (ht.memory i node).through
  | imm node => exact ht.imm db node
  | rel node => exact ht.imm db node
  | shift node => exact ht.imm db node
  | rotate node => exact ht.imm db node
  | cc node => exact ht.imm db node
  | moffs node =>
      change StuckOutcome limit limit' ((w.touch i).moffs _) ((w'.touch i).moffs _)
      rw [moffs_at_end ht.pc]
      exact ht.refused (moffs_grows _ _)
  | ptr node =>
      change StuckOutcome limit limit' ((w.touch i).ptr _) ((w'.touch i).ptr _)
      rw [ptr_at_end ht.pc]
      exact ht.refused (ptr_grows _ _)
  | bcst =>
      refine ⟨ht.undefined, fun hok => ⟨?_, ht⟩⟩
      change (w'.touch i).vmem.isSome = true
      rw [ht.vmem]
      exact hok
  | swz node => exact ht.swz node
  | sae => exact ht.through
  | evh => exact ht.through
  | rc node => exact ht.through
  | sbcst node => exact ht.through
  | other => exact ht.through

variable (mem mem') in
/-- What a whole template marks as undefined without a byte to read it marks so in any case. -/
theorem Stuck.nodes (db : Db) (nodes : List DbNode) (i : Nat) (h : Stuck limit limit' w w') :
    (Walk.nodes db ⟨mem, some limit⟩ nodes i w).2.undefined = true →
      (Walk.nodes db ⟨mem', some limit'⟩ nodes i w').2.undefined = true := by
  induction nodes generalizing i w w' with
  | nil => exact h.undefined
  | cons node nodes ih =>
      obtain ⟨hundef, hok⟩ := h.node mem mem' db i node
      unfold Walk.nodes
      generalize w.node db ⟨mem, some limit⟩ i node = q at hundef hok
      generalize w'.node db ⟨mem', some limit'⟩ i node = q' at hundef hok
      obtain ⟨ok, v⟩ := q
      obtain ⟨ok', v'⟩ := q'
      cases ok with
      | false =>
          intro hu
          cases ok' with
          | false => exact hundef hu
          | true => exact (nodes_grows db _ nodes _ v').undefined (hundef hu)
      | true =>
          obtain ⟨hok', hstuck⟩ := hok rfl
          obtain rfl : ok' = true := hok'
          exact ih _ hstuck

end Walk

/-! ## When a truncated instruction is rejected -/

/-- Every shorter length makes the decoder reject the bytes or mark them undefined,
whatever its memory held before. -/
def TruncationRejected (db : Db) (ctx : Context) (stale : Internal) (insn : Insn) : Prop :=
  ∀ length < (decodeInsn db ctx stale insn).2.length, ∀ (stale' : Internal) (insn' : Insn),
    (decodeInsn db (cut ctx length) stale' insn').1 = true →
      (decodeInsn db (cut ctx length) stale' insn').2.attributes.isUndefined = true

/-- The instruction reads nothing behind its opcode and ModRM byte, and the openings its
shorter lengths leave look up nothing that is defined: its own opcode with 0 for the ModRM
byte, and the first byte of a vector prefix that is cut off. -/
structure CutsUndefined (db : Db) (ctx : Context) (s : Internal) : Prop where
  bare : instructionEnd db (contextBuffer ctx) s ≤ s.pc + if ReadsModrm db s then 1 else 0
  modrm : ReadsModrm db s → s.pc < instructionEnd db (contextBuffer ctx) s →
    ∀ (stale : Internal) (insn : Insn), ∀ u ∈ lookedUp db ctx stale insn,
      EntryUndefined db (contextBuffer (cut ctx s.pc)) u 0
  vector :
    let lm := longModeOf ctx.machineMode ctx.features
    let k := prefixCount (contextBuffer ctx) lm
    ∀ length < instructionEnd db (contextBuffer ctx) s,
      k < length → length < k + vectorWidth (contextBuffer ctx) lm k →
        ∀ df ∈ defaultSizes ctx.machineMode, ∀ (stale : Internal) (insn : Insn),
          EntryUndefined db (contextBuffer (cut ctx length))
            (opcodeBehindPrefixes ctx df stale insn)
            ((contextBuffer (cut ctx length)).modrmAt (k + 1))

/-- A miss is marked undefined. -/
theorem encoding_ne_zero {db : Db} {t s : Internal} (hs : s = selectTemplate db t)
    (hdef : s.insn.attributes.isUndefined = false) : s.encoding ≠ 0 := by
  intro hzero
  subst hs
  have hor := (Bool.or_eq_false_iff.mp hdef).2
  exact absurd hzero (of_decide_eq_false hor)

/-- Where an instruction that reads more is cut behind its opcode and ModRM byte, the same
template is selected. -/
theorem accepted_cut {db : Db} (hdb : db.LookupIgnoresModrm) {ctx : Context} {stale s : Internal}
    {insn : Insn} (h : accepted db ctx stale insn = some s)
    (hdef : s.insn.attributes.isUndefined = false) {length : Nat}
    (hlength : length = s.pc + if ReadsModrm db s then 1 else 0)
    (hle : length ≤ (contextBuffer ctx).nb) :
    ∃ s', accepted db (cut ctx length) stale insn = some s' ∧ s'.view = s.view ∧
      s'.encoding = s.encoding ∧ s'.ptemplate = s.ptemplate ∧ s'.mapidx = s.mapidx := by
  obtain ⟨-, -, hpc⟩ := (accepted_opened h).pc_bounds rfl
  have hlt := (contextBuffer ctx).nb_lt
  have hnb := cut_nb ctx (by omega : length < 256)
  have haddr : (contextBuffer (cut ctx length)).address = (contextBuffer ctx).address := rfl
  have hle' : s.pc ≤ (contextBuffer (cut ctx length)).nb := by omega
  have hagree := agree_of_shorter haddr hpc hle'
  obtain ⟨hnow, hother⟩ := selected_agree rfl h hagree (vectorWidth_cut h (by omega) hle)
  by_cases hmap : s.mapidx = mapIdx0F0F
  · exact ⟨s, hnow hmap, rfl, rfl, rfl, rfl⟩
  · obtain ⟨t, hs, hsel⟩ := hother hmap
    by_cases hm : (db.encodings s.encoding).hasModrm = true
    · rw [if_pos ⟨hm, hmap⟩] at hlength
      have hin : s.pc + 1 ≤ (contextBuffer (cut ctx length)).nb := by omega
      have hpeek := ((agree_of_shorter haddr (by omega) hin).peekByte_eq le_rfl).2
      rw [Buffer.modrmAt, hpeek] at hsel
      exact ⟨s, hsel.trans (congrArg some hs.symm), rfl, rfl, rfl, rfl⟩
    · have hm' : (db.encodings s.encoding).hasModrm = false := by simpa using hm
      have hentry := entryFor_setModrmField hdb hs (encoding_ne_zero hs hdef) hm'
      rw [selectTemplate_of_entryFor hs (hentry _)] at hsel
      exact ⟨_, hsel, rfl, rfl, rfl, rfl⟩

/-- The operands start within the bytes, unless the ModRM byte is missing. -/
theorem operandStart_le {db : Db} {buf : Buffer} {s : Internal} (hpc : s.pc ≤ buf.nb)
    (hm : ¬ModrmMissing db buf s) : operandStart db buf s ≤ buf.nb := by
  rw [operandStart, if_neg hm]
  exact fitting_sum_le _ hpc

/-- Cut behind its opcode and ModRM byte an instruction has no byte left for its arguments. -/
theorem operandStart_of_cut {db : Db} {buf : Buffer} {s : Internal}
    (hnb : buf.nb = s.pc + if ReadsModrm db s then 1 else 0) : operandStart db buf s = buf.nb := by
  have hm : ¬ModrmMissing db buf s := by
    rintro ⟨hreads, hout⟩
    rw [if_pos hreads] at hnb
    omega
  have hle := operandStart_le (by omega) hm
  rw [operandStart, if_neg hm, encodingWidths] at hle ⊢
  split at hnb
  · rename_i hreads
    rw [if_pos hreads, modrmWidthsAt, fitting_cons_of_le _ (by omega), List.sum_cons] at hle ⊢
    omega
  · rename_i hreads
    rw [if_neg hreads]
    simpa using hnb.symm

/-- An instruction that reads on behind its opcode and ModRM byte has that byte. -/
theorem not_modrmMissing {db : Db} {ctx : Context} {stale s : Internal} {insn : Insn}
    (h : accepted db ctx stale insn = some s)
    (hlong : s.pc + (if ReadsModrm db s then 1 else 0) < instructionEnd db (contextBuffer ctx) s) :
    ¬ModrmMissing db (contextBuffer ctx) s := by
  have ho := accepted_opened h
  have hlt := (contextBuffer ctx).nb_lt
  have hselected : (decodeSelected db (contextBuffer ctx) s).pc =
      instructionEnd db (contextBuffer ctx) s := congrArg View.pc (ho.layout db).view
  intro hm
  rw [if_pos hm.1, hm.pc_eq ho rfl] at hlong
  obtain ⟨hshort, hwrap⟩ := length_of_missing ho rfl hm
  rcases Nat.lt_or_eq_of_le (Nat.le_of_lt_succ hlt) with hnb | hnb
  · have := hshort hnb
    omega
  · have := (hwrap hnb).2
    omega

/-- An instruction that its operands leave defined is defined by its template. -/
theorem isUndefined_of_marksUndefined {db : Db} {buf : Buffer} {s : Internal}
    (hdef : marksUndefined db buf s = false) : s.insn.attributes.isUndefined = false := by
  have hgrows := Walk.nodes_grows db buf.window (templateNodes db s) 0
    { s.view with pc := operandStart db buf s, fields := [] }
  by_contra hundef
  have hmark : marksUndefined db buf s = true := hgrows.undefined (eq_true_of_ne_false hundef)
  rw [hdef] at hmark
  exact Bool.false_ne_true hmark

/-- An instruction that reads more is accepted when it ends behind its opcode and ModRM
byte. -/
theorem not_truncationRejected {db : Db} (hdb : db.LookupIgnoresModrm) {ctx : Context}
    {stale s : Internal} {insn : Insn} (h : accepted db ctx stale insn = some s)
    (hdef : marksUndefined db (contextBuffer ctx) s = false)
    (hlong : s.pc + (if ReadsModrm db s then 1 else 0) < instructionEnd db (contextBuffer ctx) s) :
    ¬TruncationRejected db ctx stale insn := by
  obtain ⟨hend, -⟩ := decodeInsn_end h
  have ho := accepted_opened h
  obtain ⟨-, -, hpc⟩ := ho.pc_bounds rfl
  have hlt := (contextBuffer ctx).nb_lt
  have hselected : (decodeSelected db (contextBuffer ctx) s).pc =
      instructionEnd db (contextBuffer ctx) s := congrArg View.pc (ho.layout db).view
  have hm := not_modrmMissing h hlong
  have hin := (length_of_present ho rfl hm).2
  have hdef' := isUndefined_of_marksUndefined hdef
  intro hrej
  obtain ⟨length, hlength⟩ : ∃ length, length = s.pc + if ReadsModrm db s then 1 else 0 := ⟨_, rfl⟩
  obtain ⟨s', hacc, hview, henc, htem, hmap⟩ := accepted_cut hdb h hdef' hlength (by omega)
  obtain ⟨-, hundef'⟩ := decodeInsn_end hacc
  have hnb := cut_nb ctx (by omega : length < 256)
  have hreads : ReadsModrm db s' ↔ ReadsModrm db s := by
    unfold ReadsModrm
    rw [henc, hmap]
  have hpc' : s'.pc = s.pc := congrArg View.pc hview
  have hstart : operandStart db (contextBuffer (cut ctx length)) s' = length := by
    rw [operandStart_of_cut, hnb]
    rw [hnb, hlength, hpc']
    simp only [hreads]
  have hstuck : Walk.Stuck length (contextBuffer ctx).nb
      { s'.view with pc := operandStart db (contextBuffer (cut ctx length)) s', fields := [] }
      { s.view with pc := operandStart db (contextBuffer ctx) s, fields := [] } := by
    rw [hview]
    exact ⟨hstart, operandStart_le hpc hm, rfl, rfl, rfl, rfl, id⟩
  have hmark := hrej length (by omega) stale insn (by rw [decodeInsn_fst, hacc]; rfl)
  rw [hundef'] at hmark
  have hnodes : templateNodes db s' = templateNodes db s := by
    unfold templateNodes
    rw [htem]
  have hwin : (contextBuffer (cut ctx length)).window = ⟨ctx.address, some length⟩ := by
    rw [Buffer.window, hnb]
    rfl
  unfold marksUndefined operandWalk at hmark hdef
  rw [hnodes, hwin] at hmark
  have hreached := hstuck.nodes _ ctx.address db (templateNodes db s) 0 hmark
  have hwin' : (contextBuffer ctx).window = ⟨ctx.address, some (contextBuffer ctx).nb⟩ := rfl
  rw [← hwin', hdef] at hreached
  exact Bool.false_ne_true hreached

section Openings

variable {db : Db} {ctx : Context} {stale s : Internal} {insn : Insn}

/-- The state of the lookup for other leftovers, which stands where this one does. -/
theorem lookedUp_of_accepted (h : accepted db ctx stale insn = some s) (stale' : Internal)
    (insn' : Insn) :
    ∃ u, lookedUp db ctx stale' insn' = some u ∧ u.pc = s.pc ∧
      (u.mapidx = mapIdx0F0F ↔ s.mapidx = mapIdx0F0F) := by
  have hsome : (accepted db ctx stale insn).isSome = true := by
    rw [h]
    rfl
  have hsome' : (accepted db ctx stale' insn').isSome = true := by
    unfold accepted at hsome ⊢
    rw [selected_isSome_iff db _ _ _ rfl] at hsome ⊢
    exact hsome
  obtain ⟨s', h'⟩ := Option.isSome_iff_exists.mp hsome'
  have hmap := h'
  rw [accepted_eq_map] at hmap
  obtain ⟨u, hu, rfl⟩ := Option.map_eq_some_iff.mp hmap
  have ho := accepted_opened h
  have ho' := accepted_opened h'
  exact ⟨u, hu, (ho'.pc_bounds rfl).1.trans (ho.pc_bounds rfl).1.symm,
    ho'.threeDNow.trans ho.threeDNow.symm⟩

/-- What is looked up without the ModRM byte, whatever the memory held. -/
theorem lookedUp_cut_pc (h : accepted db ctx stale insn = some s) (hreads : ReadsModrm db s)
    {stale' u : Internal} {insn' : Insn} (hu : lookedUp db ctx stale' insn' = some u) :
    lookedUp db (cut ctx s.pc) stale' insn' = some (u.setModrmField 0) := by
  obtain ⟨u', hu', hpc, hmap⟩ := lookedUp_of_accepted h stale' insn'
  obtain rfl := Option.some.inj (hu.symm.trans hu')
  rw [← hpc]
  exact lookedUp_cut_modrm hu (mt hmap.mp hreads.2)

/-- An opcode that is looked up is an accepted instruction. -/
theorem decodeInsn_of_lookedUp {length : Nat}
    (hu : lookedUp db (cut ctx length) stale insn = some s) :
    (decodeInsn db (cut ctx length) stale insn).1 = true := by
  rw [decodeInsn_fst, accepted_of_lookedUp hu]
  rfl

theorem defaultSizes_of_accepted (h : accepted db ctx stale insn = some s) :
    ∃ df, defaultSizes ctx.machineMode = some df := by
  unfold accepted selected at h
  cases hdf : defaultSizes ctx.machineMode with
  | none => simp [hdf] at h
  | some df => exact ⟨df, rfl⟩

/-- A length inside the opening that is still accepted goes through a vector prefix. -/
theorem cut_opening (h : accepted db ctx stale insn = some s) {length : Nat} (hin : length < s.pc)
    {stale' s' : Internal} {insn' : Insn}
    (hacc : accepted db (cut ctx length) stale' insn' = some s') :
    let lm := longModeOf ctx.machineMode ctx.features
    let k := prefixCount (contextBuffer ctx) lm
    k < length ∧ length < k + vectorWidth (contextBuffer ctx) lm k := by
  obtain ⟨hsum, -, hpc⟩ := (accepted_opened h).pc_bounds rfl
  have hlt := (contextBuffer ctx).nb_lt
  have hnb := cut_nb ctx (by omega : length < 256)
  obtain ⟨hsum', -, hle⟩ := (accepted_opened hacc).pc_bounds rfl
  have haddr : (contextBuffer (cut ctx length)).address = (contextBuffer ctx).address := rfl
  have hcut := openingWidths_shorter haddr (by omega)
    (longModeOf ctx.machineMode ctx.features) (hsum' ▸ hle) (by omega)
  rwa [hnb] at hcut

end Openings

/-- A truncated instruction is rejected at every shorter length exactly when it has nothing
to lose: it ends with its opcode or ModRM byte and its shorter openings are undefined. -/
theorem truncationRejected_iff {db : Db} (hdb : db.LookupIgnoresModrm) {ctx : Context}
    {stale s : Internal} {insn : Insn} (h : accepted db ctx stale insn = some s)
    (hdef : (decodeInsn db ctx stale insn).2.attributes.isUndefined = false) :
    TruncationRejected db ctx stale insn ↔ CutsUndefined db ctx s := by
  obtain ⟨hend, hundef⟩ := decodeInsn_end h
  obtain ⟨-, -, hpc⟩ := (accepted_opened h).pc_bounds rfl
  have hlt := (contextBuffer ctx).nb_lt
  rw [hundef] at hdef
  constructor
  · intro hrej
    have hbare : instructionEnd db (contextBuffer ctx) s ≤
        s.pc + if ReadsModrm db s then 1 else 0 := by
      by_contra hlong
      exact not_truncationRejected hdb h hdef (by omega) hrej
    refine ⟨hbare, fun hreads hcut stale' insn' u hu => ?_,
      fun length hlength hk hvector df hdf stale' insn' => ?_⟩
    · have hlook := lookedUp_cut_pc h hreads hu
      exact (decodeInsn_isUndefined hlook).mp
        (hrej s.pc (hend ▸ hcut) stale' insn' (decodeInsn_of_lookedUp hlook))
    · have hle : length ≤ (contextBuffer ctx).nb := by
        split at hbare <;> omega
      have hlook := lookedUp_cut_vector db stale' insn' hdf rfl rfl hle hk hvector
      exact (decodeInsn_isUndefined hlook).mp
        (hrej length (hend ▸ hlength) stale' insn' (decodeInsn_of_lookedUp hlook))
  · intro hc length hlength stale' insn' hok
    rw [hend] at hlength
    have hbare := hc.bare
    rw [decodeInsn_fst] at hok
    obtain ⟨s', hacc⟩ := Option.isSome_iff_exists.mp hok
    by_cases hin : length < s.pc
    · obtain ⟨hk, hvector⟩ := cut_opening h hin hacc
      obtain ⟨df, hdf⟩ := defaultSizes_of_accepted h
      have hlook := lookedUp_cut_vector db stale' insn' hdf rfl rfl (by omega) hk hvector
      exact (decodeInsn_isUndefined hlook).mpr
        (hc.vector length hlength hk hvector df hdf stale' insn')
    · split at hbare
      · obtain rfl : length = s.pc := by omega
        obtain ⟨u, hu, -⟩ := lookedUp_of_accepted h stale' insn'
        exact (decodeInsn_isUndefined (lookedUp_cut_pc h ‹_› hu)).mpr
          (hc.modrm ‹_› hlength stale' insn' u hu)
      · omega

open Excerpt in
/-- `HLT` is a single byte. -/
theorem truncationRejected_hlt :
    TruncationRejected tables (contextOf .mode32 [0xf4] 1) default default := by
  have h : (accepted tables (contextOf .mode32 [0xf4] 1) default default).isSome := by decide
  have hend : instructionEnd tables (contextBuffer (contextOf .mode32 [0xf4] 1))
      ((accepted tables (contextOf .mode32 [0xf4] 1) default default).get h) = 1 := by
    decide +revert
  have hreads : ¬ReadsModrm tables
      ((accepted tables (contextOf .mode32 [0xf4] 1) default default).get h) := by
    clear hend
    decide +revert
  have hpc : ((accepted tables (contextOf .mode32 [0xf4] 1) default default).get h).pc = 1 := by
    clear hend hreads
    decide +revert
  refine (truncationRejected_iff excerpt_lookupIgnoresModrm (Option.some_get h).symm (by decide)).mpr
    ⟨?_, fun hm => absurd hm hreads, fun length hlength hk => ?_⟩
  · rw [hend, hpc, if_neg hreads]
  · rw [hend] at hlength
    exact absurd hk (by omega)

open Excerpt in
/-- `ADD EAX, 1` without its immediate is accepted. -/
theorem not_truncationRejected_add :
    ¬∀ (db : Db) (ctx : Context) (stale : Internal) (insn : Insn),
      (decodeInsn db ctx stale insn).1 = true →
        (decodeInsn db ctx stale insn).2.attributes.isUndefined = false →
          TruncationRejected db ctx stale insn := by
  intro h
  have hmark := h tables (contextOf .mode32 [0x05, 0x01, 0x00, 0x00, 0x00] 5) default default
    (by decide) (by decide) 1 (by decide) default default (by decide)
  exact absurd hmark (by decide)

end Amed.X86

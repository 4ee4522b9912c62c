import Amed.X86.Operands

/-!
# The same bytes behind prefix runs of two lengths

Two runs of the decoder whose buffers hold the same bytes from the counters on, the second
one some bytes further behind. What the prefixes have left different (the counter, the number
of prefixes a vector encoding forbids, the record, and F2 and F3 bits) is not looked at by the
functions that read the opcode, the ModRM byte and the arguments, so both runs go on alike.

## Implementation notes

The record has room for 15 entries, so the record of one run is not a function of the other's;
it is an arbitrary one in `Beside`.
-/

namespace Amed.X86

open Bytes

/-- What the longer prefix run has changed. -/
structure Drift where
  ahead : Nat
  vfpc : Nat
  f2 : Bool
  f3 : Bool

/-- The diagram with the additional F2 and F3 bits. -/
def Diagram.drifted (d : Diagram) (drift : Drift) : Diagram :=
  { d with f2 := d.f2 || drift.f2, f3 := d.f3 || drift.f3 }

/-- The state of the second run. -/
def Internal.drifted (s : Internal) (drift : Drift) (log : BytecodeLog) : Internal :=
  { s with
    pc := s.pc + drift.ahead
    vfpc := drift.vfpc
    insn.x86.log := log
    diagram := s.diagram.drifted drift }

/-- The two runs see the same bytes from their counters on and have the same state. -/
structure Beside (buf buf' : Buffer) (drift : Drift) (s s' : Internal) : Prop where
  bytes : ∀ i, s.pc ≤ i → buf'.address (i + drift.ahead) = buf.address i
  nb : buf'.nb = buf.nb + drift.ahead
  state : ∃ log, s' = s.drifted drift log

/-- The outcomes of a step of both runs. -/
def BothBeside (buf buf' : Buffer) (drift : Drift) (r r' : Bool × Internal) : Prop :=
  r'.1 = r.1 ∧ Beside buf buf' drift r.2 r'.2

section Beside

variable {buf buf' : Buffer} {drift : Drift} {s s' : Internal}

theorem Beside.both (h : Beside buf buf' drift s s') (ok : Bool) :
    BothBeside buf buf' drift (ok, s) (ok, s') := ⟨rfl, h⟩

variable (db : Db)

/-- What the functions that end with `decode_arg_imm` do after it. -/
theorem BothBeside.afterImm {r r' : Bool × Internal} {f f' : Internal → Internal}
    (hf : ∀ {t t'}, Beside buf buf' drift t t' → Beside buf buf' drift (f t) (f' t')) :
    BothBeside buf buf' drift r r' →
      BothBeside buf buf' drift
        (match r with
          | (false, s) => (false, s)
          | (true, s) => (true, f s))
        (match r' with
          | (false, s) => (false, s)
          | (true, s) => (true, f' s)) := by
  intro h
  obtain ⟨ok, t⟩ := r
  obtain ⟨ok', t'⟩ := r'
  obtain ⟨rfl, ht⟩ : ok' = ok ∧ Beside buf buf' drift t t' := h
  cases ok' with
  | false => exact ht.both false
  | true => exact (hf ht).both true

namespace Beside

theorem pc_eq (h : Beside buf buf' drift s s') : s'.pc = s.pc + drift.ahead := by
  obtain ⟨-, -, log, rfl⟩ := h
  rfl

theorem slice_eq (h : Beside buf buf' drift s s') (n : Nat) :
    slice buf'.address s'.pc n = slice buf.address s.pc n := by
  rw [h.pc_eq]
  apply List.map_congr_left
  intro i _
  rw [show s.pc + drift.ahead + i = s.pc + i + drift.ahead by omega]
  exact h.bytes _ (Nat.le_add_right _ _)

/-- The next byte is the same on both sides. -/
theorem peekByte_eq (h : Beside buf buf' drift s s') :
    buf'.peekByte s'.pc = buf.peekByte s.pc := by
  have hnb := h.nb
  have hbyte := h.bytes s.pc le_rfl
  rw [h.pc_eq]
  unfold Buffer.peekByte
  rw [hbyte]
  split <;> split <;> first | rfl | omega

theorem peekBytes_eq (h : Beside buf buf' drift s s') (n : Nat) :
    buf'.peekBytes s'.pc n = buf.peekBytes s.pc n := by
  have hnb := h.nb
  have hpc := h.pc_eq
  unfold Buffer.peekBytes
  rw [h.slice_eq]
  split <;> split <;> first | rfl | omega

/-- Both counters step over the same bytes. -/
theorem advance (h : Beside buf buf' drift s s') {n : Nat}
    (hfit : s.pc + n + drift.ahead < 256) :
    Beside buf buf' drift (s.advance n) (s'.advance n) := by
  obtain ⟨hbytes, hnb, log, rfl⟩ := h
  have hpc : (s.pc + n) % 256 = s.pc + n := Nat.mod_eq_of_lt (by omega)
  have hpc' : (s.pc + drift.ahead + n) % 256 = (s.pc + n) % 256 + drift.ahead := by omega
  refine ⟨fun i hi => hbytes i (le_trans (Nat.le_add_right _ n) ?_), hnb, log,
    congrArg (fun p => { s.drifted drift log with pc := p }) hpc'⟩
  exact hpc ▸ hi

/-- The records of the two runs may differ. -/
theorem addBytecode (h : Beside buf buf' drift s s') (type type' : BytecodeType)
    (bytes bytes' : List UInt8) :
    Beside buf buf' drift (s.addBytecode type bytes) (s'.addBytecode type' bytes') := by
  obtain ⟨hbytes, hnb, log, rfl⟩ := h
  exact ⟨hbytes, hnb, _, rfl⟩

theorem modifyArgument (h : Beside buf buf' drift s s') (i : Nat) (f : Argument → Argument) :
    Beside buf buf' drift (s.modifyArgument i f) (s'.modifyArgument i f) := by
  obtain ⟨hbytes, hnb, log, rfl⟩ := h
  exact ⟨hbytes, hnb, log, rfl⟩

/-- Both runs read the same bytes, or neither has enough left. -/
theorem takeBytes (h : Beside buf buf' drift s s') (type : BytecodeType) (n : Nat) :
    (s.takeBytes buf type n = none ∧ s'.takeBytes buf' type n = none) ∨
      ∃ bs t t', s.takeBytes buf type n = some (bs, t) ∧
        s'.takeBytes buf' type n = some (bs, t') ∧ Beside buf buf' drift t t' := by
  have hnb := h.nb
  have hlt := buf'.nb_lt
  unfold Internal.takeBytes
  rw [h.peekBytes_eq]
  cases hpeek : buf.peekBytes s.pc n with
  | none => exact Or.inl ⟨rfl, rfl⟩
  | some bs =>
      obtain ⟨hin, -⟩ := peekBytes_eq_some.mp hpeek
      exact Or.inr ⟨bs, _, _, rfl, rfl, (h.advance (by omega)).addBytecode _ _ _ _⟩

end Beside

/-! ## Arguments -/

theorem getIs4Value_beside (h : Beside buf buf' drift s s') :
    (getIs4Value buf' s').1 = (getIs4Value buf s).1 ∧
      Beside buf buf' drift (getIs4Value buf s).2 (getIs4Value buf' s').2 := by
  unfold getIs4Value
  have hknown : s'.diagram.hasIs4 = s.diagram.hasIs4 ∧ s'.diagram.is4 = s.diagram.is4 := by
    obtain ⟨-, -, log, rfl⟩ := h
    exact ⟨rfl, rfl⟩
  rw [hknown.1, hknown.2]
  split
  · exact ⟨rfl, h⟩
  · obtain ⟨hnone, hnone'⟩ | ⟨bs, t, t', hsome, hsome', ht⟩ := h.takeBytes .imm 1
    · rw [hnone, hnone']
      exact ⟨rfl, h⟩
    · rw [hsome, hsome']
      obtain ⟨b, rfl⟩ := List.length_eq_one_iff.mp (takeBytes_length hsome)
      obtain ⟨hbytes, hnb, log, rfl⟩ := ht
      exact ⟨rfl, hbytes, hnb, log, rfl⟩

theorem decodeNodeRegisterValue_beside (h : Beside buf buf' drift s s') (node : DbReg) :
    (decodeNodeRegisterValue buf' s' node).1 = (decodeNodeRegisterValue buf s node).1 ∧
      Beside buf buf' drift (decodeNodeRegisterValue buf s node).2
        (decodeNodeRegisterValue buf' s' node).2 := by
  unfold decodeNodeRegisterValue
  split
  · exact ⟨rfl, h⟩
  · split
    · obtain ⟨hvalue, hs⟩ := getIs4Value_beside h
      dsimp only
      rw [hvalue]
      generalize getIs4Value buf s = p at hs ⊢
      generalize getIs4Value buf' s' = p' at hs ⊢
      obtain ⟨hbytes, hnb, log, hlog⟩ := hs
      rw [hlog]
      exact ⟨rfl, hbytes, hnb, log, rfl⟩
    · obtain ⟨hbytes, hnb, log, rfl⟩ := h
      exact ⟨rfl, hbytes, hnb, log, rfl⟩

theorem decodeOptionalRegister_beside (h : Beside buf buf' drift s s') (node : Option DbReg) :
    (decodeOptionalRegister buf' s' node).1 = (decodeOptionalRegister buf s node).1 ∧
      Beside buf buf' drift (decodeOptionalRegister buf s node).2
        (decodeOptionalRegister buf' s' node).2 := by
  cases node with
  | none => exact ⟨rfl, h⟩
  | some node => exact decodeNodeRegisterValue_beside h node

theorem decodeArgReg_beside (h : Beside buf buf' drift s s') (i : Nat) (node : DbReg) :
    BothBeside buf buf' drift (decodeArgReg db buf s i node) (decodeArgReg db buf' s' i node) := by
  obtain ⟨hvalue, hs⟩ := decodeNodeRegisterValue_beside
    (h.modifyArgument i fun a => { a with type := .register }) node
  unfold decodeArgReg
  dsimp only
  rw [hvalue]
  generalize decodeNodeRegisterValue buf (s.modifyArgument i _) node = p at hs ⊢
  generalize decodeNodeRegisterValue buf' (s'.modifyArgument i _) node = p' at hs ⊢
  obtain ⟨hbytes, hnb, log, hlog⟩ := hs
  rw [hlog]
  exact ⟨rfl, hbytes, hnb, log, rfl⟩

theorem decodeArgVreg_beside (h : Beside buf buf' drift s s') (i : Nat) (node : DbReg) :
    BothBeside buf buf' drift (decodeArgVreg db buf s i node) (decodeArgVreg db buf' s' i node) := by
  obtain ⟨-, hs⟩ := decodeArgReg_beside db h i node
  unfold decodeArgVreg
  dsimp only
  generalize decodeArgReg db buf s i node = p at hs ⊢
  generalize decodeArgReg db buf' s' i node = p' at hs ⊢
  obtain ⟨hbytes, hnb, log, hlog⟩ := hs
  rw [hlog]
  exact ⟨rfl, hbytes, hnb, log, rfl⟩

theorem decodeArgPreg_beside (h : Beside buf buf' drift s s') (i : Nat) (node : DbReg) :
    BothBeside buf buf' drift (decodeArgPreg db buf s i node) (decodeArgPreg db buf' s' i node) := by
  obtain ⟨-, hs⟩ := decodeArgReg_beside db h i node
  unfold decodeArgPreg
  dsimp only
  generalize decodeArgReg db buf s i node = p at hs ⊢
  generalize decodeArgReg db buf' s' i node = p' at hs ⊢
  obtain ⟨hbytes, hnb, log, hlog⟩ := hs
  rw [hlog]
  change BothBeside buf buf' drift _
    (if (p.2.insn.arguments i).get Cell.regValue = Register.k0 then _ else _)
  split
  · exact ⟨rfl, hbytes, hnb, log, rfl⟩
  · exact ⟨rfl, hbytes, hnb, log, rfl⟩

theorem decodeImplicitMem_beside (h : Beside buf buf' drift s s') (i : Nat) (node : DbMem) :
    Beside buf buf' drift (decodeImplicitMem buf s i node) (decodeImplicitMem buf' s' i node) := by
  obtain ⟨hseg, hs⟩ := decodeOptionalRegister_beside h node.seg
  unfold decodeImplicitMem
  dsimp only
  rw [hseg]
  obtain ⟨hbase, ht⟩ := decodeOptionalRegister_beside
    (hs.modifyArgument i fun a => a.put Cell.memSegment (decodeOptionalRegister buf s node.seg).1)
    node.base
  rw [hbase]
  exact ht.modifyArgument i _

theorem decodeModrmMem_beside (h : Beside buf buf' drift s s') (i : Nat) (node : DbMem) :
    Beside buf buf' drift (decodeModrmMem s i node) (decodeModrmMem s' i node) := by
  obtain ⟨hbytes, hnb, log, rfl⟩ := h
  exact ⟨hbytes, hnb, log, rfl⟩

theorem decodeArgMem_beside (h : Beside buf buf' drift s s') (i : Nat) (node : DbMem) :
    BothBeside buf buf' drift (decodeArgMem db buf s i node) (decodeArgMem db buf' s' i node) := by
  have hasz : s'.diagram.asz = s.diagram.asz := by
    obtain ⟨-, -, log, rfl⟩ := h
    rfl
  unfold decodeArgMem
  dsimp only
  rw [hasz]
  have hfirst := h.modifyArgument i fun a =>
    (((a.put Cell.memVdatatype Datatype.none.code).put Cell.memBroadcastingFrom 0).put
      Cell.memBroadcastingTo 0).put Cell.memAddressSize ([16, 32, 64].getD s.diagram.asz 0)
  split
  · have hs := decodeModrmMem_beside hfirst i node
    generalize decodeModrmMem (s.modifyArgument i _) i node = t at hs ⊢
    generalize decodeModrmMem (s'.modifyArgument i _) i node = t' at hs ⊢
    obtain ⟨hbytes, hnb, log, rfl⟩ := hs
    exact ⟨rfl, hbytes, hnb, log, rfl⟩
  · have hs := decodeImplicitMem_beside hfirst i node
    generalize decodeImplicitMem buf (s.modifyArgument i _) i node = t at hs ⊢
    generalize decodeImplicitMem buf' (s'.modifyArgument i _) i node = t' at hs ⊢
    obtain ⟨hbytes, hnb, log, rfl⟩ := hs
    exact ⟨rfl, hbytes, hnb, log, rfl⟩

theorem decodeArgAddress_beside (h : Beside buf buf' drift s s') (i : Nat) (node : DbMem) :
    BothBeside buf buf' drift (decodeArgAddress db buf s i node)
      (decodeArgAddress db buf' s' i node) := by
  obtain ⟨-, hs⟩ := decodeArgMem_beside db h i node
  unfold decodeArgAddress
  exact (hs.modifyArgument i _).both true

theorem decodeArgImm_beside (h : Beside buf buf' drift s s') (i : Nat) (node : DbAny) :
    BothBeside buf buf' drift (decodeArgImm db buf s i node) (decodeArgImm db buf' s' i node) := by
  have hosz : s'.diagram.osz = s.diagram.osz := by
    obtain ⟨-, -, log, rfl⟩ := h
    rfl
  unfold decodeArgImm
  dsimp only
  rw [hosz]
  generalize hfirst : (fun a : Argument => ({ a.put Cell.imm 0 with
    size := getRealSize db node.size s.diagram.osz % 65536
    type := .immediate
    datatype := getNormalizedDatatype node.datatype
      (getRealSize db node.size s.diagram.osz % 65536) } : Argument)) = first
  have hs := h.modifyArgument i first
  split
  · exact (hs.modifyArgument i _).both true
  · split
    · obtain ⟨hvalue, ht⟩ := getIs4Value_beside hs
      rw [hvalue]
      exact (ht.modifyArgument i _).both true
    · obtain ⟨hnone, hnone'⟩ | ⟨bs, t, t', hsome, hsome', ht⟩ :=
        hs.takeBytes .imm (getRealSize db node.size s.diagram.osz % 65536 / 8 % 256)
      · rw [hnone, hnone']
        exact ⟨rfl, hs⟩
      · rw [hsome, hsome']
        exact (ht.modifyArgument i _).both true

theorem checkCount_beside (h : Beside buf buf' drift s s') (i low : Nat) :
    Beside buf buf' drift (s.checkCount i low) (s'.checkCount i low) := by
  obtain ⟨hbytes, hnb, log, rfl⟩ := h
  have hsame : (s.drifted drift log).srcReg = s.srcReg := rfl
  unfold Internal.checkCount
  rw [hsame]
  cases hsrc : s.srcReg with
  | none => exact ⟨hbytes, hnb, log, rfl⟩
  | some srcReg =>
      dsimp only
      change Beside buf buf' drift _ (if s.insn.attributes.isUgly = true then _ else _)
      split
      · exact ⟨hbytes, hnb, log, rfl⟩
      · rw [← hsrc]
        exact ⟨hbytes, hnb, log, rfl⟩

theorem decodeArgImmShift_beside (h : Beside buf buf' drift s s') (i : Nat) (node : DbAny) :
    BothBeside buf buf' drift (decodeArgImmShift db buf s i node)
      (decodeArgImmShift db buf' s' i node) := by
  refine BothBeside.afterImm (fun {t t'} ht => ?_) (decodeArgImm_beside db h i node)
  split
  · exact checkCount_beside ht i 0
  · exact checkCount_beside ht i 1
  · exact ht

theorem decodeArgImmRotate_beside (h : Beside buf buf' drift s s') (i : Nat) (node : DbAny) :
    BothBeside buf buf' drift (decodeArgImmRotate db buf s i node)
      (decodeArgImmRotate db buf' s' i node) :=
  BothBeside.afterImm (fun ht => checkCount_beside ht i 0) (decodeArgImm_beside db h i node)

theorem decodeArgCc_beside (h : Beside buf buf' drift s s') (i : Nat) (node : DbAny) :
    BothBeside buf buf' drift (decodeArgCc db buf s i node) (decodeArgCc db buf' s' i node) :=
  BothBeside.afterImm (fun ht => ht.modifyArgument i _) (decodeArgImm_beside db h i node)

theorem decodeArgRel_beside (h : Beside buf buf' drift s s') (i : Nat) (node : DbAny) :
    BothBeside buf buf' drift (decodeArgRel db buf s i node) (decodeArgRel db buf' s' i node) :=
  BothBeside.afterImm (fun ht => ht.modifyArgument i _) (decodeArgImm_beside db h i node)

theorem decodeArgMoffs_beside (h : Beside buf buf' drift s s') (i : Nat) (node : DbAny) :
    BothBeside buf buf' drift (decodeArgMoffs db buf s i node)
      (decodeArgMoffs db buf' s' i node) := by
  have hsizes : s'.diagram.asz = s.diagram.asz ∧ s'.diagram.osz = s.diagram.osz := by
    obtain ⟨-, -, log, rfl⟩ := h
    exact ⟨rfl, rfl⟩
  unfold decodeArgMoffs
  dsimp only
  rw [hsizes.1, hsizes.2]
  split
  · exact ⟨rfl, h⟩
  · rename_i offsetDt nbytes _
    obtain ⟨hnone, hnone'⟩ | ⟨bs, t, t', hsome, hsome', ht⟩ := h.takeBytes .disp nbytes
    · rw [hnone, hnone']
      exact ⟨rfl, h⟩
    · rw [hsome, hsome']
      obtain ⟨hbytes, hnb, log, rfl⟩ := ht
      exact ⟨rfl, hbytes, hnb, log, rfl⟩

theorem decodeArgPtr_beside (h : Beside buf buf' drift s s') (i : Nat) :
    BothBeside buf buf' drift (decodeArgPtr buf s i) (decodeArgPtr buf' s' i) := by
  unfold decodeArgPtr
  obtain ⟨hnone, hnone'⟩ | ⟨seg, t, t', hsome, hsome', ht⟩ := h.takeBytes .absSeg 2
  · rw [hnone, hnone']
    exact ⟨rfl, h⟩
  · have hosz : t'.diagram.osz = t.diagram.osz := by
      obtain ⟨-, -, log, rfl⟩ := ht
      rfl
    rw [hsome, hsome']
    dsimp only
    rw [hosz]
    split
    · exact ⟨rfl, ht⟩
    · rename_i offsetDt nbytes _
      obtain ⟨hnone, hnone'⟩ | ⟨bs, u, u', hread, hread', hu⟩ := ht.takeBytes .disp nbytes
      · rw [hnone, hnone']
        exact ⟨rfl, ht⟩
      · rw [hread, hread']
        exact (hu.modifyArgument i _).both true

theorem decodeNodeBcst_beside (h : Beside buf buf' drift s s') :
    BothBeside buf buf' drift (decodeNodeBcst s) (decodeNodeBcst s') := by
  obtain ⟨hbytes, hnb, log, rfl⟩ := h
  have hvmem : (s.drifted drift log).vmem = s.vmem := rfl
  unfold decodeNodeBcst
  rw [hvmem]
  cases s.vmem with
  | none => exact ⟨rfl, hbytes, hnb, log, rfl⟩
  | some vmem =>
      dsimp only
      change BothBeside buf buf' drift _ (if s.diagram.bp = true then _ else _)
      split
      · exact ⟨rfl, hbytes, hnb, log, rfl⟩
      · exact ⟨rfl, hbytes, hnb, log, rfl⟩

theorem decodeNodeSbcst_beside (h : Beside buf buf' drift s s') (node : DbSbcst) :
    BothBeside buf buf' drift (decodeNodeSbcst s node) (decodeNodeSbcst s' node) := by
  obtain ⟨hbytes, hnb, log, rfl⟩ := h
  have hvmem : (s.drifted drift log).vmem = s.vmem := rfl
  unfold decodeNodeSbcst
  rw [hvmem]
  cases s.vmem with
  | none => exact ⟨rfl, hbytes, hnb, log, rfl⟩
  | some vmem => exact ⟨rfl, hbytes, hnb, log, rfl⟩

theorem decodeNodeSwzMem_beside (h : Beside buf buf' drift s s') (node : DbSwz) :
    BothBeside buf buf' drift (decodeNodeSwzMem db s node) (decodeNodeSwzMem db s' node) := by
  obtain ⟨hvmem, hsss, huses, htemplate⟩ : s'.vmem = s.vmem ∧
      s'.diagram.sss = s.diagram.sss ∧ s'.usesCompressedDisp = s.usesCompressedDisp ∧
      s'.ptemplate = s.ptemplate := by
    obtain ⟨-, -, log, rfl⟩ := h
    exact ⟨rfl, rfl, rfl, rfl⟩
  unfold decodeNodeSwzMem
  rw [hvmem]
  cases s.vmem with
  | none => exact h.both true
  | some vmem =>
      dsimp only
      rw [hsss]
      generalize node.row s.diagram.sss = row
      split
      · obtain ⟨hbytes, hnb, log, rfl⟩ := h
        exact ⟨rfl, hbytes, hnb, log, rfl⟩
      have hconvert := h.modifyArgument vmem fun a => swzConvert a row
      split
      · exact hconvert.both false
      have hscale := hconvert.modifyArgument vmem fun a =>
        if s.usesCompressedDisp then swzScaleDisp a (db.templates s.ptemplate).egran else a
      have huses' : (s'.modifyArgument vmem fun a => swzConvert a row).usesCompressedDisp =
          s.usesCompressedDisp := huses
      have htemplate' : (s'.modifyArgument vmem fun a => swzConvert a row).ptemplate =
          s.ptemplate := htemplate
      rw [huses', htemplate']
      split
      · split
        · exact hscale.both false
        · exact (hscale.modifyArgument vmem _).both true
      · split
        · exact (hscale.modifyArgument vmem _).both true
        · exact hscale.both true

theorem decodeNodeSwz_beside (h : Beside buf buf' drift s s') (node : DbSwz) :
    BothBeside buf buf' drift (decodeNodeSwz db s node) (decodeNodeSwz db s' node) := by
  unfold decodeNodeSwz
  split
  · obtain ⟨hbytes, hnb, log, rfl⟩ := h
    have hsame : (s.drifted drift log).vreg = s.vreg := rfl
    unfold decodeNodeSwzReg
    rw [hsame]
    cases hvreg : s.vreg with
    | none => exact ⟨rfl, hbytes, hnb, log, rfl⟩
    | some vreg => exact ⟨rfl, hbytes, hnb, log, rfl⟩
  · exact decodeNodeSwzMem_beside db h node

/-- A node of the argument list. -/
theorem decodeNode_beside (h : Beside buf buf' drift s s') (i : Nat) (node : DbNode) :
    BothBeside buf buf' drift (decodeNode db buf s i node) (decodeNode db buf' s' i node) := by
  have hs := h.modifyArgument i fun a =>
    { a with type := .none, attributes := { isRepresentable := true }, printer := {} }
  unfold decodeNode
  dsimp only
  cases node with
  | reg node => exact decodeArgReg_beside db hs i node
  | vreg node => exact decodeArgVreg_beside db hs i node
  | preg node => exact decodeArgPreg_beside db hs i node
  | mem node => exact decodeArgMem_beside db hs i node
  | agen node => exact decodeArgAddress_beside db hs i node
  | mib node => exact decodeArgAddress_beside db hs i node
  | imm node => exact decodeArgImm_beside db hs i node
  | rel node => exact decodeArgRel_beside db hs i node
  | moffs node => exact decodeArgMoffs_beside db hs i node
  | ptr node => exact decodeArgPtr_beside hs i
  | shift node => exact decodeArgImmShift_beside db hs i node
  | rotate node => exact decodeArgImmRotate_beside db hs i node
  | cc node => exact decodeArgCc_beside db hs i node
  | bcst => exact decodeNodeBcst_beside hs
  | sbcst node => exact decodeNodeSbcst_beside hs node
  | swz node => exact decodeNodeSwz_beside db hs node
  | other => exact ⟨rfl, hs⟩
  | _ =>
      obtain ⟨hbytes, hnb, log, rfl⟩ := h
      exact ⟨rfl, hbytes, hnb, log, rfl⟩

/-- All nodes of the argument list. -/
theorem decodeNodes_beside (h : Beside buf buf' drift s s') (nodes : List DbNode) (i : Nat) :
    BothBeside buf buf' drift (decodeNodes db buf nodes i s) (decodeNodes db buf' nodes i s') := by
  induction nodes generalizing i s s' with
  | nil =>
      obtain ⟨hbytes, hnb, log, rfl⟩ := h
      exact ⟨rfl, hbytes, hnb, log, rfl⟩
  | cons node nodes ih =>
      have hnode := decodeNode_beside db h i node
      unfold decodeNodes
      generalize decodeNode db buf s i node = r at hnode ⊢
      generalize decodeNode db buf' s' i node = r' at hnode ⊢
      obtain ⟨ok, t⟩ := r
      obtain ⟨ok', t'⟩ := r'
      obtain ⟨rfl, ht⟩ : ok' = ok ∧ Beside buf buf' drift t t' := hnode
      cases ok' with
      | false => exact ⟨rfl, ht⟩
      | true =>
          have htype : (t'.insn.arguments i).type = (t.insn.arguments i).type := by
            obtain ⟨-, -, log, rfl⟩ := ht
            rfl
          dsimp only
          rw [htype]
          exact ih ht _

/-! ## The ModRM byte and the opcode -/

theorem setDisp_beside (h : Beside buf buf' drift s s') (disp : Int) (n : Nat) :
    (setDisp db s disp n).Rel (Beside buf buf' drift) (setDisp db s' disp n) := by
  obtain ⟨hbytes, hnb, log, rfl⟩ := h
  unfold setDisp
  split
  · exact .some ⟨hbytes, hnb, log, rfl⟩
  · exact .some ⟨hbytes, hnb, log, rfl⟩
  · exact .some ⟨hbytes, hnb, log, rfl⟩
  · exact .none

theorem readDisp_beside (h : Beside buf buf' drift s s') (n : Nat) :
    BothBeside buf buf' drift (readDisp db buf s n) (readDisp db buf' s' n) := by
  unfold readDisp
  split
  · exact h.both true
  unfold decodeDisp
  obtain ⟨hnone, hnone'⟩ | ⟨bs, t, t', hsome, hsome', ht⟩ := h.takeBytes .disp n
  · rw [hnone, hnone']
    exact h.both false
  · rw [hsome, hsome']
    dsimp only
    have hset := setDisp_beside db ht (toSigned (8 * n) (leNat bs)) n
    generalize setDisp db t _ n = o at hset ⊢
    generalize setDisp db t' _ n = o' at hset ⊢
    cases hset with
    | none => exact h.both false
    | some hu => exact hu.both true

theorem decodeSib_beside (h : Beside buf buf' drift s s') :
    BothBeside buf buf' drift (decodeSib db buf s) (decodeSib db buf' s') := by
  unfold decodeSib
  obtain ⟨hnone, hnone'⟩ | ⟨bs, t, t', hsome, hsome', ht⟩ := h.takeBytes .sib 1
  · rw [hnone, hnone']
    exact h.both false
  · obtain ⟨sib, rfl⟩ := List.length_eq_one_iff.mp (takeBytes_length hsome)
    rw [hsome, hsome']
    obtain ⟨hbytes, hnb, log, rfl⟩ := ht
    dsimp only
    refine readDisp_beside db ?_ _
    exact ⟨hbytes, hnb, log, rfl⟩

theorem beginModrm_beside (h : Beside buf buf' drift s s')
    (hfit : s.pc + 1 + drift.ahead < 256) :
    Beside buf buf' drift (beginModrm s) (beginModrm s') := by
  have hstep := h.advance hfit
  have hdiagram : s'.diagram = s.diagram.drifted drift := by
    obtain ⟨-, -, log, rfl⟩ := h
    rfl
  unfold beginModrm
  rw [hdiagram]
  obtain ⟨hbytes, hnb, log, hlog⟩ := hstep
  rw [hlog]
  exact ⟨hbytes, hnb, _, rfl⟩

/-- The ModRM byte, with what follows it, is read alike on both sides. -/
theorem decodeModrm_beside (h : Beside buf buf' drift s s')
    (hfit : s.pc + 1 + drift.ahead < 256) :
    BothBeside buf buf' drift (decodeModrm db buf s) (decodeModrm db buf' s') := by
  have hbegin := beginModrm_beside h hfit
  obtain ⟨hmod, hrm⟩ : s'.diagram.mod = s.diagram.mod ∧ s'.diagram.rm = s.diagram.rm := by
    obtain ⟨-, -, log, rfl⟩ := h
    exact ⟨rfl, rfl⟩
  have hsib : BothBeside buf buf' drift
      (if s.diagram.mod ≠ 3 ∧ s.diagram.rm = 4 then decodeSib db buf (beginModrm s)
        else (true, beginModrm s))
      (if s.diagram.mod ≠ 3 ∧ s.diagram.rm = 4 then decodeSib db buf' (beginModrm s')
        else (true, beginModrm s')) := by
    split
    · exact decodeSib_beside db hbegin
    · exact hbegin.both true
  unfold decodeModrm
  dsimp only
  rw [hmod, hrm]
  generalize (if s.diagram.mod ≠ 3 ∧ s.diagram.rm = 4 then decodeSib db buf (beginModrm s)
    else (true, beginModrm s)) = r at hsib ⊢
  generalize (if s.diagram.mod ≠ 3 ∧ s.diagram.rm = 4 then decodeSib db buf' (beginModrm s')
    else (true, beginModrm s')) = r' at hsib ⊢
  obtain ⟨ok, t⟩ := r
  obtain ⟨ok', t'⟩ := r'
  obtain ⟨rfl, ht⟩ : ok' = ok ∧ Beside buf buf' drift t t' := hsib
  cases ok' with
  | false => exact ht.both false
  | true =>
      have hdisp := readDisp_beside db ht (modrmDispSize s.diagram.mod s.diagram.rm)
      dsimp only
      generalize readDisp db buf t _ = q at hdisp ⊢
      generalize readDisp db buf' t' _ = q' at hdisp ⊢
      obtain ⟨ok, u⟩ := q
      obtain ⟨ok', u'⟩ := q'
      obtain ⟨rfl, hu⟩ : ok' = ok ∧ Beside buf buf' drift u u' := hdisp
      cases ok' with
      | false => exact hu.both false
      | true =>
          obtain ⟨hbytes, hnb, log, rfl⟩ := hu
          exact ⟨rfl, hbytes, hnb, log, rfl⟩

theorem setModrmField_beside (h : Beside buf buf' drift s s') (modrm : UInt8) :
    Beside buf buf' drift (s.setModrmField modrm) (s'.setModrmField modrm) := by
  obtain ⟨hbytes, hnb, log, rfl⟩ := h
  exact ⟨hbytes, hnb, log, rfl⟩

theorem recordOpcode_beside (h : Beside buf buf' drift s s') (op : UInt8) :
    Beside buf buf' drift (recordOpcode s op) (recordOpcode s' op) := by
  obtain ⟨hbytes, hnb, log, rfl⟩ := h
  exact ⟨hbytes, hnb, _, rfl⟩

/-- A byte that both runs see does not take the second counter to its end. -/
theorem Beside.fits (h : Beside buf buf' drift s s') {b : UInt8}
    (hpeek : buf.peekByte s.pc = some b) : s.pc + 1 + drift.ahead < 256 := by
  obtain ⟨hin, -⟩ := peekByte_eq_some.mp hpeek
  have hnb := h.nb
  have hlt := buf'.nb_lt
  omega

/-- The opcode fetch, with its look at the ModRM byte. -/
theorem fetchOpcode_beside (h : Beside buf buf' drift s s') :
    BothBeside buf buf' drift (fetchOpcode db buf s) (fetchOpcode db buf' s') := by
  have hmap : s'.mapidx = s.mapidx := by
    obtain ⟨-, -, log, rfl⟩ := h
    rfl
  unfold fetchOpcode
  rw [hmap, h.peekByte_eq]
  split
  · cases hpeek : buf.peekByte s.pc with
    | none => exact h.both false
    | some modrm =>
        have hdecode := decodeModrm_beside db (setModrmField_beside h modrm) (h.fits hpeek)
        dsimp only
        generalize decodeModrm db buf (s.setModrmField modrm) = r at hdecode ⊢
        generalize decodeModrm db buf' (s'.setModrmField modrm) = r' at hdecode ⊢
        obtain ⟨ok, t⟩ := r
        obtain ⟨ok', t'⟩ := r'
        obtain ⟨rfl, ht⟩ : ok' = ok ∧ Beside buf buf' drift t t' := hdecode
        cases ok' with
        | false => exact ht.both false
        | true =>
            dsimp only
            rw [ht.peekByte_eq]
            cases hop : buf.peekByte t.pc with
            | none => exact ht.both false
            | some op => exact (recordOpcode_beside (ht.advance (ht.fits hop)) op).both true
  · cases hop : buf.peekByte s.pc with
    | none => exact h.both false
    | some op =>
        have hstep := h.advance (h.fits hop)
        dsimp only
        rw [hstep.peekByte_eq]
        exact (recordOpcode_beside (setModrmField_beside hstep _) op).both true

/-! ## The selected template -/

theorem Diagram.hashSizes_drifted (d : Diagram) :
    (d.drifted drift).hashSizes = d.hashSizes.drifted drift := by
  unfold Diagram.hashSizes
  change (if d.enc = encodingNone then _ else _) = _
  dsimp only
  split <;> rfl

theorem Diagram.overrideSize_drifted (d : Diagram) (t : DbTemplate) :
    (d.drifted drift).overrideSize t = (d.overrideSize t).drifted drift := by
  unfold Diagram.overrideSize
  change (if (d.longMode && d.osz ≠ 2) = true then _ else _) = _
  split
  · split
    · rfl
    · split <;> rfl
  · rfl

/-- The answer of the lookup in a state whose opcode is fetched. -/
def lookupIndex (db : Db) (s : Internal) : Nat :=
  db.lookup (s.mapidx + s.diagram.hashSizes.opcode.toNat) s.diagram.hashSizes.hashcode

theorem selectTemplate_lookupIndex (s : Internal) :
    selectTemplate db s = { s with
      encoding := lookupIndex db s / 2 ^ 16
      ptemplate := lookupIndex db s % 2 ^ 16
      diagram := s.diagram.hashSizes.overrideSize (db.templates (lookupIndex db s % 2 ^ 16))
      insn.attributes.isUndefined := s.insn.attributes.isUndefined ||
        (s.diagram.hashSizes.enc ≠ encodingNone && s.vfpc ≠ 0) ||
          lookupIndex db s / 2 ^ 16 = 0 } := rfl

theorem Diagram.hashSizes_enc (d : Diagram) : d.hashSizes.enc = d.enc := by
  unfold Diagram.hashSizes
  dsimp only
  split <;> rfl

/-- The same index of the lookup selects the same template, with the sizes of either side. -/
theorem selectTemplate_beside (h : Beside buf buf' drift s s')
    (hlookup : lookupIndex db s' = lookupIndex db s)
    (hvfpc : s.diagram.enc ≠ encodingNone → (drift.vfpc = 0 ↔ s.vfpc = 0)) :
    Beside buf buf' drift (selectTemplate db s) (selectTemplate db s') := by
  rw [selectTemplate_lookupIndex, selectTemplate_lookupIndex, hlookup]
  obtain ⟨hbytes, hnb, log, rfl⟩ := h
  have hsizes : (s.drifted drift log).diagram.hashSizes = s.diagram.hashSizes.drifted drift :=
    s.diagram.hashSizes_drifted
  have hundefined : (decide (s.diagram.hashSizes.enc ≠ encodingNone) && decide (s.vfpc ≠ 0)) =
      (decide (s.diagram.hashSizes.enc ≠ encodingNone) && decide (drift.vfpc ≠ 0)) := by
    rw [Diagram.hashSizes_enc]
    by_cases hnone : s.diagram.enc = encodingNone
    · simp [hnone]
    · simp [hvfpc hnone]
  rw [hsizes, Diagram.overrideSize_drifted, hundefined]
  exact ⟨hbytes, hnb, log, rfl⟩

theorem decodeRealModrm_beside (h : Beside buf buf' drift s s')
    (hfit : ReadsModrm db s → s.pc + 1 + drift.ahead < 256) :
    Beside buf buf' drift (decodeRealModrm db buf s) (decodeRealModrm db buf' s') := by
  obtain ⟨hencoding, hmap⟩ : s'.encoding = s.encoding ∧ s'.mapidx = s.mapidx := by
    obtain ⟨-, -, log, rfl⟩ := h
    exact ⟨rfl, rfl⟩
  unfold decodeRealModrm
  rw [hencoding, hmap]
  split
  · rename_i hmodrm
    split
    · exact h
    · rename_i hnow
      exact (decodeModrm_beside db h (hfit ⟨hmodrm, hnow⟩)).2
  · obtain ⟨hbytes, hnb, log, rfl⟩ := h
    exact ⟨hbytes, hnb, log, rfl⟩

theorem beginTemplate_beside (h : Beside buf buf' drift s s') :
    Beside buf buf' drift (beginTemplate db s) (beginTemplate db s') := by
  obtain ⟨hbytes, hnb, log, rfl⟩ := h
  exact ⟨hbytes, hnb, log, rfl⟩

/-- Both runs decode the arguments alike; then both stop, or both finish the template. -/
theorem decodeSelected_beside (h : Beside buf buf' drift s s')
    (hfit : ReadsModrm db s → s.pc + 1 + drift.ahead < 256) :
    ∃ t t', Beside buf buf' drift t t' ∧
      (decodeSelected db buf s = t ∧ decodeSelected db buf' s' = t' ∨
        decodeSelected db buf s = finishTemplate db t ∧
          decodeSelected db buf' s' = finishTemplate db t') := by
  have hbegin := beginTemplate_beside db (decodeRealModrm_beside db h hfit)
  have htemplate : (beginTemplate db (decodeRealModrm db buf' s')).ptemplate =
      (beginTemplate db (decodeRealModrm db buf s)).ptemplate := by
    obtain ⟨-, -, log, hlog⟩ := hbegin
    rw [hlog]
    rfl
  have hnodes := decodeNodes_beside db hbegin (db.arguments
    (db.templates (beginTemplate db (decodeRealModrm db buf s)).ptemplate).arguments) 0
  unfold decodeSelected decodeTemplate
  dsimp only
  rw [htemplate]
  generalize decodeNodes db buf _ 0 _ = r at hnodes ⊢
  generalize decodeNodes db buf' _ 0 _ = r' at hnodes ⊢
  obtain ⟨ok, t⟩ := r
  obtain ⟨ok', t'⟩ := r'
  obtain ⟨rfl, ht⟩ : ok' = ok ∧ Beside buf buf' drift t t' := hnodes
  cases ok' with
  | false => exact ⟨t, t', ht, Or.inl ⟨rfl, rfl⟩⟩
  | true => exact ⟨t, t', ht, Or.inr ⟨rfl, rfl⟩⟩

/-! ## The escape behind the prefixes -/

theorem Diagram.setPpField_drifted (d : Diagram) (value : Nat) :
    (d.drifted drift).setPpField value = (d.setPpField value).drifted drift := by
  unfold Diagram.setPpField
  split <;> rfl

variable (drift) in
theorem Diagram.setLlField_drifted (d : Diagram) (value : Nat) :
    (d.drifted drift).setLlField value = (d.setLlField value).drifted drift := by
  unfold Diagram.setLlField
  split <;> rfl

theorem Diagram.setWField_drifted (d : Diagram) (value : Bool) :
    (d.drifted drift).setWField value = (d.setWField value).drifted drift := rfl

theorem Beside.mapidx (h : Beside buf buf' drift s s') (map : Nat) :
    Beside buf buf' drift { s with mapidx := map } { s' with mapidx := map } := by
  obtain ⟨hbytes, hnb, log, rfl⟩ := h
  exact ⟨hbytes, hnb, log, rfl⟩

/-- The escape byte of a map leads to the same map on both sides. -/
theorem decodeMap_beside (h : Beside buf buf' drift s s') {op : UInt8}
    (hop : buf.peekByte s.pc = some op) :
    Beside buf buf' drift (decodeMap buf s) (decodeMap buf' s') := by
  have hstep := (h.mapidx mapIdx0F).advance (h.fits hop)
  unfold decodeMap
  dsimp only
  rw [hstep.peekByte_eq]
  split
  · rename_i map word hsecond
    cases hpeek : buf.peekByte ({ s with mapidx := mapIdx0F }.advance 1).pc with
    | none => simp [hpeek] at hsecond
    | some op₂ =>
        exact ((hstep.mapidx map).advance (hstep.fits hpeek)).addBytecode _ _ _ _
  · exact hstep.addBytecode _ _ _ _

theorem decodeVex2_beside (h : Beside buf buf' drift s s') :
    (decodeVex2 buf s).Rel (Beside buf buf' drift) (decodeVex2 buf' s') := by
  unfold decodeVex2
  obtain ⟨hnone, hnone'⟩ | ⟨bs, t, t', hsome, hsome', ht⟩ := h.takeBytes .vex2 2
  · rw [hnone, hnone']
    exact .none
  · obtain ⟨byte0, byte1, rfl⟩ := List.length_eq_two.mp (takeBytes_length hsome)
    obtain ⟨hbytes, hnb, log, rfl⟩ := ht
    have hdiagram : (t.drifted drift log).diagram = t.diagram.drifted drift := rfl
    rw [hsome, hsome']
    dsimp only
    rw [hdiagram, Diagram.setPpField_drifted, Diagram.setLlField_drifted]
    change Option.Rel _ _ (if (!t.diagram.longMode && !bit byte1 7) = true then _ else _)
    split
    · exact .none
    · exact .some ⟨hbytes, hnb, log, rfl⟩

theorem decodeVex3_beside (h : Beside buf buf' drift s s') :
    (decodeVex3 buf s).Rel (Beside buf buf' drift) (decodeVex3 buf' s') := by
  unfold decodeVex3
  obtain ⟨hnone, hnone'⟩ | ⟨bs, t, t', hsome, hsome', ht⟩ := h.takeBytes .vex3 3
  · rw [hnone, hnone']
    exact .none
  · obtain ⟨byte0, byte1, byte2, rfl⟩ := List.length_eq_three.mp (takeBytes_length hsome)
    obtain ⟨hbytes, hnb, log, rfl⟩ := ht
    have hdiagram : (t.drifted drift log).diagram = t.diagram.drifted drift := rfl
    rw [hsome, hsome']
    dsimp only
    rw [hdiagram, Diagram.setWField_drifted, Diagram.setPpField_drifted,
      Diagram.setLlField_drifted]
    change Option.Rel _ _
      (if (!t.diagram.longMode && !(bit byte1 7 && bit byte1 6 && bit byte1 5)) = true then _
        else _)
    split
    · exact .none
    · split
      · exact .none
      · exact .some ⟨hbytes, hnb, log, rfl⟩

theorem decodeXop_beside (h : Beside buf buf' drift s s') :
    (decodeXop buf s).Rel (Beside buf buf' drift) (decodeXop buf' s') := by
  unfold decodeXop
  obtain ⟨hnone, hnone'⟩ | ⟨bs, t, t', hsome, hsome', ht⟩ := h.takeBytes .vex3 3
  · rw [hnone, hnone']
    exact .none
  · obtain ⟨byte0, byte1, byte2, rfl⟩ := List.length_eq_three.mp (takeBytes_length hsome)
    obtain ⟨hbytes, hnb, log, rfl⟩ := ht
    rw [hsome, hsome']
    dsimp only
    change Option.Rel _ _
      (if (!t.diagram.longMode && !(bit byte1 7 && bit byte1 6 && bit byte1 5)) = true then _
        else _)
    split
    · exact .none
    · split
      · exact .none
      · rename_i map _
        have hll := Diagram.setLlField_drifted drift
          (Diagram.setWField { t.diagram with
            enc := encodingXop, hasRex := true
            r := !bit byte1 7, x := !bit byte1 6, b := !bit byte1 5
            vvvv := 15 - bits byte2 3 4 } (bit byte2 7)) (bits byte2 2 1)
        exact .some ⟨hbytes, hnb, log, congrArg
          (fun d => { t.drifted drift log with mapidx := map, diagram := d }) hll⟩

theorem decodeMvex_beside (h : Beside buf buf' drift s s') (byte1 byte2 byte3 : UInt8) :
    (decodeMvex s byte1 byte2 byte3).Rel (Beside buf buf' drift)
      (decodeMvex s' byte1 byte2 byte3) := by
  obtain ⟨hbytes, hnb, log, rfl⟩ := h
  have hdiagram : (s.drifted drift log).diagram = s.diagram.drifted drift := rfl
  unfold decodeMvex
  split
  · exact .none
  · rw [hdiagram, Diagram.setPpField_drifted, Diagram.setWField_drifted]
    exact .some ⟨hbytes, hnb, log, rfl⟩

theorem decodeEvex_beside (h : Beside buf buf' drift s s') (byte1 byte2 byte3 : UInt8) :
    (decodeEvex s byte1 byte2 byte3).Rel (Beside buf buf' drift)
      (decodeEvex s' byte1 byte2 byte3) := by
  obtain ⟨hbytes, hnb, log, rfl⟩ := h
  have hdiagram : (s.drifted drift log).diagram = s.diagram.drifted drift := rfl
  unfold decodeEvex
  change Option.Rel _ _
    (if (!s.diagram.longMode && !(bit byte1 7 && bit byte1 6 && bit byte1 5)) = true then _
      else _)
  split
  · exact .none
  · split
    · exact .none
    · rw [hdiagram, Diagram.setPpField_drifted, Diagram.setWField_drifted,
        Diagram.setLlField_drifted]
      exact .some ⟨hbytes, hnb, log, rfl⟩

theorem decodeMevex_beside (h : Beside buf buf' drift s s') :
    (decodeMevex buf s).Rel (Beside buf buf' drift) (decodeMevex buf' s') := by
  have hlong : s'.diagram.longMode = s.diagram.longMode := by
    obtain ⟨-, -, log, rfl⟩ := h
    rfl
  unfold decodeMevex
  rw [h.peekBytes_eq]
  split
  · rename_i byte0 byte1 byte2 byte3 hpeek
    have hfit : s.pc + 4 + drift.ahead < 256 := by
      obtain ⟨hin, -⟩ := peekBytes_eq_some.mp hpeek
      have hnb := h.nb
      have hlt := buf'.nb_lt
      omega
    have hstep := h.advance hfit
    rw [hlong]
    split
    · split
      · exact decodeMvex_beside (hstep.addBytecode _ _ _ _) _ _ _
      · exact .none
    · exact decodeEvex_beside (hstep.addBytecode _ _ _ _) _ _ _
  · exact .none

theorem Beside.getD (h : Beside buf buf' drift s s') {o o' : Option Internal}
    (ho : o.Rel (Beside buf buf' drift) o') : Beside buf buf' drift (o.getD s) (o'.getD s') := by
  cases ho with
  | none => exact h
  | some ht => exact ht

/-- Both runs leave the prefix loop alike. -/
theorem leaveLoop_beside (h : Beside buf buf' drift s s') :
    Beside buf buf' drift (leaveLoop buf s) (leaveLoop buf' s') := by
  unfold leaveLoop
  rw [h.peekByte_eq]
  cases hop : buf.peekByte s.pc with
  | none => exact h
  | some op =>
      dsimp only
      unfold decodeEscape
      split
      · exact decodeMap_beside h hop
      · exact h.getD (decodeXop_beside h)
      · exact h.getD (decodeMevex_beside h)
      · exact h.getD (decodeVex3_beside h)
      · exact h.getD (decodeVex2_beside h)
      · exact h

end Beside

end Amed.X86

import Amed.X86.Frame
import Amed.X86.Lookahead

/-!
# Argument decoding in two buffers

The arguments of an instruction that ends inside a stretch on which two buffers agree.
The second run may start from a state in which the byte behind the opcode has left other
ModRM bits of the hashcode; no argument looks at these.

## Implementation notes

The bytes an argument calls for are those the walk reads when its window has no end. A
walk that ends inside the buffer without that end is the walk of the buffer.
-/

namespace Amed.X86

open Bytes

/-! ## A window without end -/

namespace Walk

variable {buf : Buffer} {w : Walk}

theorem read_unbounded (w : Walk) (type : BytecodeType) (n : Nat) :
    w.read buf.unbounded type n = some { w with
      pc := w.pc + n
      fields := w.fields ++ [⟨type, slice buf.address w.pc n⟩] } :=
  if_pos (buf.unbounded_holds _)

theorem read_window {type : BytecodeType} {n : Nat} (h : w.pc + n ≤ buf.nb) :
    w.read buf.window type n = w.read buf.unbounded type n := by
  rw [read_unbounded]
  exact if_pos ((buf.window_holds _).mpr h)

theorem is4_unbounded_pc (w : Walk) :
    (w.is4 buf.unbounded).pc = if w.hasIs4 then w.pc else w.pc + 1 := by
  unfold is4
  rw [read_unbounded]
  split <;> rfl

theorem is4_window (h : (w.is4 buf.unbounded).pc ≤ buf.nb) :
    w.is4 buf.window = w.is4 buf.unbounded := by
  rw [is4_unbounded_pc] at h
  unfold is4
  split
  · rfl
  · rename_i hnew
    rw [if_neg hnew] at h
    rw [read_window h]

theorem register_window {node : DbReg} (h : (w.register buf.unbounded node).pc ≤ buf.nb) :
    w.register buf.window node = w.register buf.unbounded node := by
  unfold register at h ⊢
  split
  · rename_i his4
    rw [if_pos his4] at h
    exact is4_window h
  · rfl

theorem optionalRegister_window {node : Option DbReg}
    (h : (w.optionalRegister buf.unbounded node).pc ≤ buf.nb) :
    w.optionalRegister buf.window node = w.optionalRegister buf.unbounded node := by
  cases node with
  | none => rfl
  | some node => exact register_window h

theorem memory_window {i : Nat} {node : DbMem} (h : (w.memory buf.unbounded i node).pc ≤ buf.nb) :
    w.memory buf.window i node = w.memory buf.unbounded i node := by
  unfold memory at h ⊢
  dsimp only at h ⊢
  split
  · rfl
  · rename_i henc
    rw [if_neg henc] at h
    have hseg : (w.optionalRegister buf.unbounded node.seg).pc ≤ buf.nb :=
      (optionalRegister_grows _ _ _).pc_le.trans h
    rw [optionalRegister_window hseg, optionalRegister_window h]

theorem imm_window {db : Db} {node : DbAny} (h : (w.imm db buf.unbounded node).2.pc ≤ buf.nb) :
    w.imm db buf.window node = w.imm db buf.unbounded node := by
  unfold imm at h ⊢
  split
  · rfl
  · rename_i henc
    rw [if_neg henc] at h
    split
    · rename_i his4
      rw [if_pos his4] at h
      rw [is4_window h]
    · rename_i his4
      rw [if_neg his4, read_unbounded] at h
      rw [read_window h]

theorem moffs_window (h : (w.moffs buf.unbounded).2.pc ≤ buf.nb) :
    w.moffs buf.window = w.moffs buf.unbounded := by
  unfold moffs at h ⊢
  split
  · rfl
  · rename_i hwidth
    simp only [hwidth, read_unbounded] at h
    rw [read_window h]

theorem ptr_window (h : (w.ptr buf.unbounded).2.pc ≤ buf.nb) :
    w.ptr buf.window = w.ptr buf.unbounded := by
  have hseg : w.pc + 2 ≤ buf.nb := by
    refine le_trans ?_ h
    unfold ptr
    rw [read_unbounded]
    dsimp only
    split
    · exact le_rfl
    · rw [read_unbounded]
      exact Nat.le_add_right _ _
  unfold ptr at h ⊢
  rw [read_window hseg]
  rw [read_unbounded] at h ⊢
  dsimp only at h ⊢
  split
  · rfl
  · rename_i hwidth
    simp only [hwidth, read_unbounded] at h
    rw [read_window h]

/-- A node whose reads end inside the buffer does not notice the buffer's end. -/
theorem node_window {db : Db} {i : Nat} {node : DbNode}
    (h : (w.node db buf.unbounded i node).2.pc ≤ buf.nb) :
    w.node db buf.window i node = w.node db buf.unbounded i node := by
  cases node with
  | reg node => exact congrArg (Prod.mk true) (register_window h)
  | preg node => exact congrArg (Prod.mk true) (register_window h)
  | vreg node =>
      exact congrArg (fun v : Walk => (true, { v with vreg := some i })) (register_window h)
  | mem node => exact congrArg (Prod.mk true) (memory_window h)
  | agen node => exact congrArg (Prod.mk true) (memory_window h)
  | mib node => exact congrArg (Prod.mk true) (memory_window h)
  | imm node => exact imm_window h
  | rel node => exact imm_window h
  | shift node => exact imm_window h
  | rotate node => exact imm_window h
  | cc node => exact imm_window h
  | moffs node => exact moffs_window h
  | ptr node => exact ptr_window h
  | _ => rfl

/-- The first node ends before the walk does. -/
theorem node_pc_le_nodes (db : Db) (win : Window) (node : DbNode) (nodes : List DbNode) (i : Nat)
    (w : Walk) : (w.node db win i node).2.pc ≤ (Walk.nodes db win (node :: nodes) i w).2.pc := by
  unfold Walk.nodes
  generalize w.node db win i node = q
  obtain ⟨ok, w'⟩ := q
  cases ok with
  | false => exact le_rfl
  | true => exact (nodes_grows db win nodes _ w').pc_le

/-- A walk whose reads end inside the buffer does not notice the buffer's end. -/
theorem nodes_window {db : Db} {nodes : List DbNode} {i : Nat}
    (h : (Walk.nodes db buf.unbounded nodes i w).2.pc ≤ buf.nb) :
    Walk.nodes db buf.window nodes i w = Walk.nodes db buf.unbounded nodes i w := by
  induction nodes generalizing i w with
  | nil => rfl
  | cons node nodes ih =>
      have hnode := (node_pc_le_nodes db buf.unbounded node nodes i w).trans h
      unfold Walk.nodes at h ⊢
      rw [node_window hnode]
      generalize w.node db buf.unbounded i node = q at h
      obtain ⟨ok, w'⟩ := q
      cases ok with
      | false => rfl
      | true => exact ih h

end Walk

/-! ## The second run -/

/-- The state with the ModRM bits of the hashcode that another byte has left. -/
def Internal.withPeek (s : Internal) (modreg cr : Bool) : Internal :=
  { s with diagram := { s.diagram with modreg := modreg, cr := cr } }

/-- The outcome with these bits. -/
def echo (modreg cr : Bool) (r : Bool × Internal) : Bool × Internal := (r.1, r.2.withPeek modreg cr)

/-- The members of the state that decide which bytes an argument calls for. -/
structure Seen (s : Internal) (w : Walk) : Prop where
  pc : s.pc = w.pc
  hasIs4 : s.diagram.hasIs4 = w.hasIs4
  asz : s.diagram.asz = w.asz
  osz : s.diagram.osz = w.osz

theorem Seen.of_view {s : Internal} {w : Walk} (h : s.view = w.toView) : Seen s w :=
  ⟨congrArg View.pc h, congrArg View.hasIs4 h, congrArg View.asz h, congrArg View.osz h⟩

section Echo

variable (db : Db) {buf buf' : Buffer} {n : Nat} (m c : Bool) {s : Internal} {w : Walk}

theorem modifyArgument_echo (i : Nat) (f : Argument → Argument) :
    (s.withPeek m c).modifyArgument i f = (s.modifyArgument i f).withPeek m c := rfl

theorem withPeek_osz : (s.withPeek m c).diagram.osz = s.diagram.osz := rfl

theorem withPeek_sss : (s.withPeek m c).diagram.sss = s.diagram.sss := rfl

theorem withPeek_asz : (s.withPeek m c).diagram.asz = s.diagram.asz := rfl

theorem withPeek_vmem : (s.withPeek m c).vmem = s.vmem := rfl

theorem withPeek_vreg : (s.withPeek m c).vreg = s.vreg := rfl

theorem withPeek_srcReg : (s.withPeek m c).srcReg = s.srcReg := rfl

theorem takeBytes_echo (h : Agree buf buf' n) (type : BytecodeType) {k : Nat} (hk : s.pc + k ≤ n) :
    let bs := slice buf.address s.pc k
    s.takeBytes buf type k = some (bs, (s.advance k).addBytecode type bs) ∧
      (s.withPeek m c).takeBytes buf' type k =
        some (bs, ((s.advance k).addBytecode type bs).withPeek m c) := by
  have hle := h.le
  refine ⟨takeBytes_eq_some.mpr ⟨by omega, rfl, rfl⟩, ?_⟩
  rw [h.takeBytes_eq (s := s.withPeek m c) hk]
  exact takeBytes_eq_some.mpr ⟨by change s.pc + k ≤ buf.nb; omega, rfl, rfl⟩

theorem getIs4Value_echo (h : Agree buf buf' n) (hs : Seen s w)
    (hin : (w.is4 buf.unbounded).pc ≤ n) :
    getIs4Value buf' (s.withPeek m c) =
        ((getIs4Value buf s).1, (getIs4Value buf s).2.withPeek m c) ∧
      Seen (getIs4Value buf s).2 (w.is4 buf.unbounded) := by
  rw [Walk.is4_unbounded_pc, ← hs.hasIs4, ← hs.pc] at hin
  unfold getIs4Value Walk.is4
  rw [Walk.read_unbounded, ← hs.hasIs4]
  by_cases hknown : s.diagram.hasIs4 = true
  · rw [if_pos hknown, if_pos (show (s.withPeek m c).diagram.hasIs4 = true from hknown)]
    exact ⟨rfl, by simpa only [hknown, if_true] using hs⟩
  · rw [if_neg hknown] at hin
    rw [if_neg hknown, if_neg (show ¬(s.withPeek m c).diagram.hasIs4 = true from hknown)]
    obtain ⟨htake, htake'⟩ := takeBytes_echo m c h .imm hin
    rw [htake, htake', if_neg hknown, slice_one]
    have hpc : (s.advance 1).pc = s.pc + 1 := advance_pc (hin.trans h.le)
    exact ⟨rfl, hpc.trans (congrArg (· + 1) hs.pc), rfl, hs.asz, hs.osz⟩

theorem decodeNodeRegisterValue_echo (h : Agree buf buf' n) (hs : Seen s w)
    {node : DbReg} (hin : (w.register buf.unbounded node).pc ≤ n) :
    decodeNodeRegisterValue buf' (s.withPeek m c) node =
        ((decodeNodeRegisterValue buf s node).1,
          (decodeNodeRegisterValue buf s node).2.withPeek m c) ∧
      Seen (decodeNodeRegisterValue buf s node).2 (w.register buf.unbounded node) := by
  unfold decodeNodeRegisterValue
  unfold Walk.register at hin ⊢
  by_cases henc : node.hasEncodedin = true
  · simp only [henc, Bool.not_true, Bool.false_eq_true, if_false, Bool.true_and] at hin ⊢
    cases hplace : node.encodedin with
    | is4 =>
        simp only [hplace, decide_true, if_true] at hin
        obtain ⟨hecho, hseen⟩ := getIs4Value_echo m c h hs hin
        simp only [hecho]
        exact ⟨rfl, hseen⟩
    | _ => exact ⟨rfl, hs⟩
  · simp only [henc, Bool.not_false, if_true]
    exact ⟨trivial, hs⟩

theorem decodeArgReg_echo (h : Agree buf buf' n) (hs : Seen s w) {i : Nat} {node : DbReg}
    (hin : (w.register buf.unbounded node).pc ≤ n) :
    decodeArgReg db buf' (s.withPeek m c) i node = echo m c (decodeArgReg db buf s i node) := by
  have hs' : Seen (s.modifyArgument i fun a => { a with type := .register }) w :=
    ⟨hs.pc, hs.hasIs4, hs.asz, hs.osz⟩
  obtain ⟨hecho, -⟩ := decodeNodeRegisterValue_echo m c h hs' hin
  unfold decodeArgReg
  dsimp only
  rw [modifyArgument_echo, hecho]
  rfl

theorem decodeArgPreg_echo (h : Agree buf buf' n) (hs : Seen s w) {i : Nat} {node : DbReg}
    (hin : (w.register buf.unbounded node).pc ≤ n) :
    decodeArgPreg db buf' (s.withPeek m c) i node = echo m c (decodeArgPreg db buf s i node) := by
  unfold decodeArgPreg
  rw [decodeArgReg_echo db m c h hs hin]
  generalize decodeArgReg db buf s i node = r
  obtain ⟨ok, s'⟩ := r
  change (if (s'.insn.arguments i).get Cell.regValue = Register.k0 then _ else _) = echo m c
    (if (s'.insn.arguments i).get Cell.regValue = Register.k0 then _ else _)
  split <;> rfl

theorem decodeArgVreg_echo (h : Agree buf buf' n) (hs : Seen s w) {i : Nat} {node : DbReg}
    (hin : (w.register buf.unbounded node).pc ≤ n) :
    decodeArgVreg db buf' (s.withPeek m c) i node = echo m c (decodeArgVreg db buf s i node) := by
  unfold decodeArgVreg
  rw [decodeArgReg_echo db m c h hs hin]
  rfl

theorem decodeOptionalRegister_echo (h : Agree buf buf' n) (hs : Seen s w)
    {node : Option DbReg} (hin : (w.optionalRegister buf.unbounded node).pc ≤ n) :
    decodeOptionalRegister buf' (s.withPeek m c) node =
        ((decodeOptionalRegister buf s node).1,
          (decodeOptionalRegister buf s node).2.withPeek m c) ∧
      Seen (decodeOptionalRegister buf s node).2 (w.optionalRegister buf.unbounded node) := by
  cases node with
  | none => exact ⟨rfl, hs⟩
  | some node => exact decodeNodeRegisterValue_echo m c h hs hin

theorem decodeImplicitMem_echo (h : Agree buf buf' n) (hs : Seen s w) {i : Nat} {node : DbMem}
    (hin : ((w.optionalRegister buf.unbounded node.seg).optionalRegister buf.unbounded
      node.base).pc ≤ n) :
    decodeImplicitMem buf' (s.withPeek m c) i node =
      (decodeImplicitMem buf s i node).withPeek m c := by
  have hseg : (w.optionalRegister buf.unbounded node.seg).pc ≤ n :=
    (Walk.optionalRegister_grows _ _ _).pc_le.trans hin
  obtain ⟨hecho, hs₁⟩ := decodeOptionalRegister_echo m c h hs hseg
  unfold decodeImplicitMem
  rw [hecho]
  generalize decodeOptionalRegister buf s node.seg = p at hs₁
  obtain ⟨seg, s₁⟩ := p
  have hs₂ : Seen (s₁.modifyArgument i fun a => a.put Cell.memSegment seg)
      (w.optionalRegister buf.unbounded node.seg) := ⟨hs₁.pc, hs₁.hasIs4, hs₁.asz, hs₁.osz⟩
  obtain ⟨hecho', -⟩ := decodeOptionalRegister_echo m c h hs₂ hin
  dsimp only
  rw [modifyArgument_echo, hecho']
  rfl

theorem decodeArgMem_echo (h : Agree buf buf' n) (hs : Seen s w) {i : Nat} {node : DbMem}
    (hin : (w.memory buf.unbounded i node).pc ≤ n) :
    decodeArgMem db buf' (s.withPeek m c) i node = echo m c (decodeArgMem db buf s i node) := by
  unfold decodeArgMem
  unfold Walk.memory at hin
  dsimp only at hin
  by_cases henc : node.hasEncodedin = true
  · simp only [henc, if_true]
    rfl
  · rw [if_neg henc] at hin
    simp only [henc, Bool.false_eq_true, if_false]
    rw [modifyArgument_echo, decodeImplicitMem_echo m c h
      (⟨hs.pc, hs.hasIs4, hs.asz, hs.osz⟩ : Seen (s.modifyArgument i _) w) hin]
    rfl

theorem decodeArgAddress_echo (h : Agree buf buf' n) (hs : Seen s w) {i : Nat} {node : DbMem}
    (hin : (w.memory buf.unbounded i node).pc ≤ n) :
    decodeArgAddress db buf' (s.withPeek m c) i node =
      echo m c (decodeArgAddress db buf s i node) := by
  unfold decodeArgAddress
  rw [decodeArgMem_echo db m c h hs hin]
  rfl

theorem decodeArgImm_echo (h : Agree buf buf' n) (hs : Seen s w) {i : Nat} {node : DbAny}
    (hin : (w.imm db buf.unbounded node).2.pc ≤ n) :
    decodeArgImm db buf' (s.withPeek m c) i node = echo m c (decodeArgImm db buf s i node) := by
  unfold Walk.imm at hin
  have hs' : ∀ f, Seen (s.modifyArgument i f) w := fun _ => ⟨hs.pc, hs.hasIs4, hs.asz, hs.osz⟩
  unfold decodeArgImm
  dsimp only
  rw [modifyArgument_echo, withPeek_osz]
  by_cases henc : node.hasEncodedin = true
  · simp only [henc, Bool.not_true, Bool.false_eq_true, if_false] at hin ⊢
    cases hplace : node.encodedin with
    | is4 =>
        simp only [hplace, if_true] at hin
        rw [(getIs4Value_echo m c h (hs' _) hin).1]
        rfl
    | _ =>
        simp only [hplace, reduceCtorEq, if_false, Walk.read_unbounded] at hin
        rw [← hs.pc, ← hs.osz] at hin
        unfold Walk.immBytes at hin
        have htake := fun f => takeBytes_echo m c h .imm (s := s.modifyArgument i f) hin
        dsimp only
        rw [(htake _).1, (htake _).2]
        rfl
  · simp only [henc, Bool.not_false, if_true]
    rfl

theorem checkCount_echo (i low : Nat) :
    (s.withPeek m c).checkCount i low = (s.checkCount i low).withPeek m c := by
  unfold Internal.checkCount
  rw [withPeek_srcReg]
  cases hsrc : s.srcReg with
  | none => rfl
  | some srcReg =>
      dsimp only
      change (if s.insn.attributes.isUgly = true then _ else _) =
        Internal.withPeek (if s.insn.attributes.isUgly = true then _ else _) m c
      split
      · rfl
      · rw [← hsrc]
        rfl

theorem decodeArgImmShift_echo (h : Agree buf buf' n) (hs : Seen s w) {i : Nat} {node : DbAny}
    (hin : (w.imm db buf.unbounded node).2.pc ≤ n) :
    decodeArgImmShift db buf' (s.withPeek m c) i node =
      echo m c (decodeArgImmShift db buf s i node) := by
  unfold decodeArgImmShift
  rw [decodeArgImm_echo db m c h hs hin]
  generalize decodeArgImm db buf s i node = r
  obtain ⟨ok, s'⟩ := r
  cases ok with
  | false => rfl
  | true =>
      simp only [echo]
      cases node.symbol <;> simp only [checkCount_echo]

theorem decodeArgImmRotate_echo (h : Agree buf buf' n) (hs : Seen s w) {i : Nat} {node : DbAny}
    (hin : (w.imm db buf.unbounded node).2.pc ≤ n) :
    decodeArgImmRotate db buf' (s.withPeek m c) i node =
      echo m c (decodeArgImmRotate db buf s i node) := by
  unfold decodeArgImmRotate
  rw [decodeArgImm_echo db m c h hs hin]
  generalize decodeArgImm db buf s i node = r
  obtain ⟨ok, s'⟩ := r
  cases ok with
  | false => rfl
  | true => simp only [echo, checkCount_echo]

theorem decodeArgCc_echo (h : Agree buf buf' n) (hs : Seen s w) {i : Nat} {node : DbAny}
    (hin : (w.imm db buf.unbounded node).2.pc ≤ n) :
    decodeArgCc db buf' (s.withPeek m c) i node = echo m c (decodeArgCc db buf s i node) := by
  unfold decodeArgCc
  rw [decodeArgImm_echo db m c h hs hin]
  generalize decodeArgImm db buf s i node = r
  obtain ⟨ok, s'⟩ := r
  cases ok <;> rfl

theorem decodeArgRel_echo (h : Agree buf buf' n) (hs : Seen s w) {i : Nat} {node : DbAny}
    (hin : (w.imm db buf.unbounded node).2.pc ≤ n) :
    decodeArgRel db buf' (s.withPeek m c) i node = echo m c (decodeArgRel db buf s i node) := by
  unfold decodeArgRel
  rw [decodeArgImm_echo db m c h hs hin]
  generalize decodeArgImm db buf s i node = r
  obtain ⟨ok, s'⟩ := r
  cases ok <;> rfl

theorem decodeArgMoffs_echo (h : Agree buf buf' n) (hs : Seen s w) {i : Nat} {node : DbAny}
    (hin : (w.moffs buf.unbounded).2.pc ≤ n) :
    decodeArgMoffs db buf' (s.withPeek m c) i node = echo m c (decodeArgMoffs db buf s i node) := by
  unfold Walk.moffs at hin
  rw [← hs.asz] at hin
  unfold decodeArgMoffs
  dsimp only
  rw [withPeek_asz]
  cases hwidth : moffsWidth s.diagram.asz with
  | none => rfl
  | some p =>
      obtain ⟨offsetDt, nbytes⟩ := p
      simp only [hwidth, Walk.read_unbounded] at hin
      rw [← hs.pc] at hin
      obtain ⟨htake, htake'⟩ := takeBytes_echo m c h .disp hin
      dsimp only
      rw [htake, htake']
      rfl

theorem decodeArgPtr_echo (h : Agree buf buf' n) (hs : Seen s w) {i : Nat}
    (hin : (w.ptr buf.unbounded).2.pc ≤ n) :
    decodeArgPtr buf' (s.withPeek m c) i = echo m c (decodeArgPtr buf s i) := by
  have hseg : s.pc + 2 ≤ n := by
    rw [hs.pc]
    refine le_trans ?_ hin
    unfold Walk.ptr
    rw [Walk.read_unbounded]
    dsimp only
    split
    · exact le_rfl
    · rw [Walk.read_unbounded]
      exact Nat.le_add_right _ _
  unfold Walk.ptr at hin
  rw [Walk.read_unbounded] at hin
  obtain ⟨htake, htake'⟩ := takeBytes_echo m c h .absSeg hseg
  unfold decodeArgPtr
  rw [htake, htake']
  have hosz : ((s.advance 2).addBytecode .absSeg (slice buf.address s.pc 2)).diagram.osz =
      s.diagram.osz := rfl
  dsimp only at hin ⊢
  rw [withPeek_osz, hosz]
  rw [← hs.osz] at hin
  cases hwidth : ptrWidth s.diagram.osz with
  | none => rfl
  | some p =>
      obtain ⟨offsetDt, nbytes⟩ := p
      simp only [hwidth, Walk.read_unbounded] at hin
      have hpc : (s.advance 2).pc = s.pc + 2 := advance_pc (hseg.trans h.le)
      have hoff : ((s.advance 2).addBytecode .absSeg (slice buf.address s.pc 2)).pc + nbytes ≤ n := by
        change (s.advance 2).pc + nbytes ≤ n
        rw [hpc, hs.pc]
        exact hin
      obtain ⟨htake₂, htake₂'⟩ := takeBytes_echo m c h .disp hoff
      dsimp only
      rw [htake₂, htake₂']
      rfl

theorem decodeNodeBcst_echo :
    decodeNodeBcst (s.withPeek m c) = echo m c (decodeNodeBcst s) := by
  unfold decodeNodeBcst
  rw [withPeek_vmem]
  cases hv : s.vmem with
  | none => rfl
  | some vmem =>
      dsimp only
      change (if s.diagram.bp = true then _ else _) = echo m c (if s.diagram.bp = true then _ else _)
      split <;> rfl

theorem decodeNodeSbcst_echo (node : DbSbcst) :
    decodeNodeSbcst (s.withPeek m c) node = echo m c (decodeNodeSbcst s node) := by
  unfold decodeNodeSbcst
  rw [withPeek_vmem]
  cases hv : s.vmem <;> rfl

theorem decodeNodeSwzMem_echo (node : DbSwz) :
    decodeNodeSwzMem db (s.withPeek m c) node = echo m c (decodeNodeSwzMem db s node) := by
  unfold decodeNodeSwzMem
  rw [withPeek_vmem]
  cases hv : s.vmem with
  | none => rfl
  | some vmem =>
      dsimp only
      rw [withPeek_sss]
      generalize node.row s.diagram.sss = row
      by_cases hres : row.reserved = true
      · rw [if_pos hres, if_pos hres]
        rw [← hv]
        rfl
      rw [if_neg hres, if_neg hres]
      by_cases hm : getDatatypeSize row.mdt = 0
      · rw [if_pos hm, if_pos hm]
        rfl
      rw [if_neg hm, if_neg hm]
      by_cases hb : row.broadcasting = true
      · rw [if_pos hb, if_pos hb]
        split <;> rfl
      rw [if_neg hb, if_neg hb]
      split <;> rfl

theorem decodeNodeSwz_echo (node : DbSwz) :
    decodeNodeSwz db (s.withPeek m c) node = echo m c (decodeNodeSwz db s node) := by
  unfold decodeNodeSwz
  split
  · unfold decodeNodeSwzReg
    rw [withPeek_vreg]
    cases hv : s.vreg <;> rfl
  · exact decodeNodeSwzMem_echo db m c node

/-- A node in the second run, when the bytes it calls for lie inside the stretch. -/
theorem decodeNode_echo (h : Agree buf buf' n) (hs : Seen s w) (i : Nat) {node : DbNode}
    (hin : (w.node db buf.unbounded i node).2.pc ≤ n) :
    decodeNode db buf' (s.withPeek m c) i node = echo m c (decodeNode db buf s i node) := by
  have hs' : ∀ f, Seen (s.modifyArgument i f) (w.touch i) :=
    fun _ => ⟨hs.pc, hs.hasIs4, hs.asz, hs.osz⟩
  unfold decodeNode
  dsimp only
  rw [modifyArgument_echo]
  cases node with
  | reg node => exact decodeArgReg_echo db m c h (hs' _) hin
  | vreg node => exact decodeArgVreg_echo db m c h (hs' _) hin
  | preg node => exact decodeArgPreg_echo db m c h (hs' _) hin
  | mem node => exact decodeArgMem_echo db m c h (hs' _) hin
  | agen node => exact decodeArgAddress_echo db m c h (hs' _) hin
  | mib node => exact decodeArgAddress_echo db m c h (hs' _) hin
  | imm node => exact decodeArgImm_echo db m c h (hs' _) hin
  | rel node => exact decodeArgRel_echo db m c h (hs' _) hin
  | moffs node => exact decodeArgMoffs_echo db m c h (hs' _) hin
  | ptr node => exact decodeArgPtr_echo m c h (hs' _) hin
  | shift node => exact decodeArgImmShift_echo db m c h (hs' _) hin
  | rotate node => exact decodeArgImmRotate_echo db m c h (hs' _) hin
  | cc node => exact decodeArgCc_echo db m c h (hs' _) hin
  | bcst => exact decodeNodeBcst_echo m c
  | sbcst node => exact decodeNodeSbcst_echo m c node
  | swz node => exact decodeNodeSwz_echo db m c node
  | sae => rfl
  | evh => rfl
  | rc node => rfl
  | other => rfl

/-- The nodes of a template in the second run. -/
theorem decodeNodes_echo {c₀ : Cursor} (h : Agree buf buf' n) (nodes : List DbNode) (i : Nat)
    (ht : Tracks buf c₀ s w) (hin : (Walk.nodes db buf.unbounded nodes i w).2.pc ≤ n) :
    decodeNodes db buf' nodes i (s.withPeek m c) = echo m c (decodeNodes db buf nodes i s) := by
  induction nodes generalizing i s w with
  | nil => rfl
  | cons node nodes ih =>
      have hnode := (Walk.node_pc_le_nodes db buf.unbounded node nodes i w).trans hin
      obtain ⟨hok, htracks⟩ := decodeNode_tracks db ht i node
      rw [Walk.node_window (hnode.trans h.le)] at hok htracks
      unfold decodeNodes
      unfold Walk.nodes at hin
      rw [decodeNode_echo db m c h (Seen.of_view ht.view) i hnode]
      have htype := @decodeNode_type db buf s i node
      generalize decodeNode db buf s i node = r at hok htracks htype ⊢
      generalize w.node db buf.unbounded i node = q at hok htracks hin
      obtain ⟨ok, s'⟩ := r
      obtain ⟨ok', w'⟩ := q
      obtain rfl : ok = ok' := hok
      cases ok with
      | false => rfl
      | true =>
          have hslot : (if (s'.insn.arguments i).type = .none then i else i + 1) =
              if node.takesSlot then i + 1 else i := by
            have hiff : (s'.insn.arguments i).type = .none ↔ node.takesSlot = false := htype rfl
            cases hs : node.takesSlot <;> simp [hiff, hs]
          dsimp only at hin
          change decodeNodes db buf' nodes (if (s'.insn.arguments i).type = .none then i else i + 1)
            (s'.withPeek m c) = echo m c (decodeNodes db buf nodes
              (if (s'.insn.arguments i).type = .none then i else i + 1) s')
          rw [hslot]
          exact ih _ htracks hin

end Echo

/-! ## What no argument changes -/

/-- The ModRM bits of the hashcode, the selected template, and what an address is put
together from. -/
structure Selection where
  modreg : Bool
  reg : Nat
  cr : Bool
  rm : Nat
  ptemplate : Nat
  longMode : Bool
  asz : Nat
  b : Bool
  hasSib : Bool
  hasBase : Bool
  hasIndex : Bool
  baseIp : Nat

def Internal.selection (s : Internal) : Selection :=
  ⟨s.diagram.modreg, s.diagram.reg, s.diagram.cr, s.diagram.rm, s.ptemplate, s.diagram.longMode,
    s.diagram.asz, s.diagram.b, s.diagram.hasSib, s.hasBase, s.hasIndex, s.baseIp⟩

/-- No argument changes the selection. -/
theorem decodeNodes_selection (db : Db) (buf : Buffer) (nodes : List DbNode) (i : Nat)
    (s : Internal) : (decodeNodes db buf nodes i s).2.selection = s.selection := by
  have houtline := congrArg Internal.selection (decodeNodes_outline db buf nodes i s)
  exact houtline

end Amed.X86

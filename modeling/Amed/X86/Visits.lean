import Amed.X86.Frame
import Amed.X86.Slots

/-!
# One argument behind the other

`Visits` follows the loop of `decode_nodes` to one node, with the slot and the state it is decoded
in. What the node leaves in a cell of its slot stays there until a later node decorates that cell.
-/

namespace Amed.X86

open Bytes

/-- The loop over nodes comes to `node` with the slot `j` and the state `t`, and `rest` lies behind
it. -/
inductive Visits (db : Db) (buf : Buffer) :
    List DbNode → Nat → Internal → DbNode → List DbNode → Nat → Internal → Prop
  | here (node : DbNode) (rest : List DbNode) (i : Nat) (s : Internal) :
      Visits db buf (node :: rest) i s node rest i s
  | later {first node : DbNode} {nodes rest : List DbNode} {i j : Nat} {s s' t : Internal}
      (h : decodeNode db buf s i first = (true, s'))
      (hv : Visits db buf nodes (if (s'.insn.arguments i).type = .none then i else i + 1) s'
        node rest j t) :
      Visits db buf (first :: nodes) i s node rest j t

/-- The node behind one that is decoded. -/
theorem Visits.next {db : Db} {buf : Buffer} {first node : DbNode} {nodes rest : List DbNode}
    {i j k : Nat} {s t : Internal} (hok : (decodeNode db buf s i first).1 = true)
    (hslot : (if ((decodeNode db buf s i first).2.insn.arguments i).type = .none then i
      else i + 1) = k)
    (hv : Visits db buf nodes k (decodeNode db buf s i first).2 node rest j t) :
    Visits db buf (first :: nodes) i s node rest j t := by
  subst hslot
  exact .later (Prod.ext hok rfl) hv

/-- Up to the node that is visited nothing but arguments has changed. -/
theorem Visits.outline {db : Db} {buf : Buffer} {nodes rest : List DbNode} {i j : Nat}
    {s t : Internal} {node : DbNode} (h : Visits db buf nodes i s node rest j t) :
    t.outline = s.outline := by
  induction h with
  | here => rfl
  | @later first _ _ _ i _ s _ _ hnode _ ih =>
      have hstep := decodeNode_outline db buf s i first
      rw [hnode] at hstep
      exact ih.trans hstep

/-! ## Slots of other arguments -/

variable (db : Db) (buf : Buffer) (s : Internal) {i k : Nat}

theorem modifyArgument_other (f : Argument → Argument) (h : k ≠ i) :
    (s.modifyArgument i f).insn.arguments k = s.insn.arguments k :=
  Insn.setArgument_other _ _ h

theorem takeBytes_arguments {buf : Buffer} {s s' : Internal} {type : BytecodeType} {n : Nat}
    {bs : List UInt8} (h : s.takeBytes buf type n = some (bs, s')) :
    s'.insn.arguments = s.insn.arguments := by
  obtain ⟨-, -, rfl⟩ := takeBytes_eq_some.mp h
  rfl

theorem getIs4Value_arguments : (getIs4Value buf s).2.insn.arguments = s.insn.arguments := by
  unfold getIs4Value
  split
  · rfl
  · split
    · rename_i htake
      exact (takeBytes_arguments htake :)
    · rfl

theorem decodeNodeRegisterValue_arguments (node : DbReg) :
    (decodeNodeRegisterValue buf s node).2.insn.arguments = s.insn.arguments := by
  unfold decodeNodeRegisterValue
  split
  · rfl
  · split
    · exact getIs4Value_arguments buf s
    · rfl

theorem decodeOptionalRegister_arguments (node : Option DbReg) :
    (decodeOptionalRegister buf s node).2.insn.arguments = s.insn.arguments := by
  cases node with
  | none => rfl
  | some node => exact decodeNodeRegisterValue_arguments buf s node

/-- A register is written to its own slot, like the other operands below. -/
theorem decodeArgReg_other (node : DbReg) (h : k ≠ i) :
    (decodeArgReg db buf s i node).2.insn.arguments k = s.insn.arguments k := by
  unfold decodeArgReg
  dsimp only
  rw [modifyArgument_other _ _ h, decodeNodeRegisterValue_arguments, modifyArgument_other _ _ h]

theorem decodeArgPreg_other (node : DbReg) (h : k ≠ i) :
    (decodeArgPreg db buf s i node).2.insn.arguments k = s.insn.arguments k := by
  rw [← decodeArgReg_other db buf s node h]
  unfold decodeArgPreg
  generalize decodeArgReg db buf s i node = r
  obtain ⟨ok, s'⟩ := r
  dsimp only
  split <;> dsimp only <;> rw [modifyArgument_other _ _ h]

theorem decodeArgVreg_other (node : DbReg) (h : k ≠ i) :
    (decodeArgVreg db buf s i node).2.insn.arguments k = s.insn.arguments k := by
  unfold decodeArgVreg
  dsimp only
  rw [modifyArgument_other _ _ h, decodeArgReg_other db buf s node h]

theorem decodeArgMem_other (node : DbMem) (h : k ≠ i) :
    (decodeArgMem db buf s i node).2.insn.arguments k = s.insn.arguments k := by
  unfold decodeArgMem
  dsimp only
  rw [modifyArgument_other _ _ h]
  split
  · unfold decodeModrmMem
    dsimp only
    rw [modifyArgument_other _ _ h, modifyArgument_other _ _ h]
  · unfold decodeImplicitMem
    dsimp only
    rw [modifyArgument_other _ _ h, decodeOptionalRegister_arguments, modifyArgument_other _ _ h,
      decodeOptionalRegister_arguments, modifyArgument_other _ _ h]

theorem decodeArgAddress_other (node : DbMem) (h : k ≠ i) :
    (decodeArgAddress db buf s i node).2.insn.arguments k = s.insn.arguments k := by
  unfold decodeArgAddress
  dsimp only
  rw [modifyArgument_other _ _ h, decodeArgMem_other db buf s node h]

theorem decodeArgImm_other (node : DbAny) (h : k ≠ i) :
    (decodeArgImm db buf s i node).2.insn.arguments k = s.insn.arguments k := by
  unfold decodeArgImm
  dsimp only
  split
  · rw [modifyArgument_other _ _ h, modifyArgument_other _ _ h]
  · split
    · rw [modifyArgument_other _ _ h, getIs4Value_arguments, modifyArgument_other _ _ h]
    · split
      · exact modifyArgument_other _ _ h
      · rename_i htake
        rw [modifyArgument_other _ _ h, takeBytes_arguments htake, modifyArgument_other _ _ h]

theorem checkCount_other (low : Nat) :
    (s.checkCount i low).insn.arguments = s.insn.arguments := by
  unfold Internal.checkCount
  split
  · rfl
  · split <;> rfl

theorem decodeArgImmShift_other (node : DbAny) (h : k ≠ i) :
    (decodeArgImmShift db buf s i node).2.insn.arguments k = s.insn.arguments k := by
  have himm := decodeArgImm_other db buf s node h
  unfold decodeArgImmShift
  generalize decodeArgImm db buf s i node = r at himm
  obtain ⟨ok, s'⟩ := r
  cases ok with
  | false => exact himm
  | true =>
      dsimp only
      split
      · rw [checkCount_other, himm]
      · rw [checkCount_other, himm]
      · exact himm

theorem decodeArgImmRotate_other (node : DbAny) (h : k ≠ i) :
    (decodeArgImmRotate db buf s i node).2.insn.arguments k = s.insn.arguments k := by
  have himm := decodeArgImm_other db buf s node h
  unfold decodeArgImmRotate
  generalize decodeArgImm db buf s i node = r at himm
  obtain ⟨ok, s'⟩ := r
  cases ok with
  | false => exact himm
  | true =>
      dsimp only
      rw [checkCount_other, himm]

theorem decodeArgRel_other (node : DbAny) (h : k ≠ i) :
    (decodeArgRel db buf s i node).2.insn.arguments k = s.insn.arguments k := by
  have himm := decodeArgImm_other db buf s node h
  unfold decodeArgRel
  generalize decodeArgImm db buf s i node = r at himm
  obtain ⟨ok, s'⟩ := r
  cases ok with
  | false => exact himm
  | true => exact (modifyArgument_other s' _ h).trans himm

theorem decodeArgCc_other (node : DbAny) (h : k ≠ i) :
    (decodeArgCc db buf s i node).2.insn.arguments k = s.insn.arguments k := by
  have himm := decodeArgImm_other db buf s node h
  unfold decodeArgCc
  generalize decodeArgImm db buf s i node = r at himm
  obtain ⟨ok, s'⟩ := r
  cases ok with
  | false => exact himm
  | true => exact (modifyArgument_other s' _ h).trans himm

theorem decodeArgMoffs_other (node : DbAny) (h : k ≠ i) :
    (decodeArgMoffs db buf s i node).2.insn.arguments k = s.insn.arguments k := by
  unfold decodeArgMoffs
  dsimp only
  split
  · rfl
  · split
    · rfl
    · rename_i htake
      dsimp only
      rw [modifyArgument_other _ _ h, takeBytes_arguments htake]

theorem decodeArgPtr_other (h : k ≠ i) :
    (decodeArgPtr buf s i).2.insn.arguments k = s.insn.arguments k := by
  unfold decodeArgPtr
  split
  · rfl
  · rename_i hseg
    have harguments := takeBytes_arguments hseg
    split
    · rw [harguments]
    · split
      · rw [harguments]
      · rename_i hoff
        dsimp only
        rw [modifyArgument_other _ _ h, takeBytes_arguments hoff, harguments]

/-! ## Cells -/

/-- A member of the argument in a slot. -/
def Internal.cellAt (s : Internal) (k : Nat) (c : Cell) : Nat := (s.insn.arguments k).get c

/-- The cells of an earlier argument that a node writes. -/
def DbNode.decorates : DbNode → List Cell
  | .bcst | .sbcst _ => [Cell.memBroadcastingTo, Cell.memBroadcastingFrom]
  | .swz _ =>
      [Cell.regIndex, Cell.memVdatatype, Cell.memImmoffDatatype, Cell.memImmoffValue,
        Cell.memBroadcastingTo, Cell.memBroadcastingFrom]
  | _ => []

theorem cellAt_of_arguments {s' : Internal} (c : Cell)
    (h : s'.insn.arguments k = s.insn.arguments k) : s'.cellAt k c = s.cellAt k c := by
  unfold Internal.cellAt
  rw [h]

/-- A change of an argument that leaves a cell alone leaves it alone in every slot. -/
theorem cellAt_modifyArgument {c : Cell} (v : Nat) {f : Argument → Argument}
    (hf : ∀ a, (f a).get c = a.get c) : (s.modifyArgument v f).cellAt k c = s.cellAt k c := by
  by_cases h : k = v
  · subst h
    unfold Internal.cellAt Internal.modifyArgument
    rw [Insn.setArgument_same, hf]
  · exact cellAt_of_arguments s c (modifyArgument_other s f h)

section Decorators

variable {c : Cell}

/-- A broadcast writes to two cells of the slot in front of it. -/
theorem decodeNodeBcst_cellAt (hto : c.Apart Cell.memBroadcastingTo)
    (hfrom : c.Apart Cell.memBroadcastingFrom) :
    (decodeNodeBcst s).2.cellAt k c = s.cellAt k c := by
  unfold decodeNodeBcst
  split
  · rfl
  · split
    · apply cellAt_modifyArgument
      intro a
      change ((a.put _ _).put _ _).get c = a.get c
      rw [Argument.get_put_apart _ _ hfrom, Argument.get_put_apart _ _ hto]
    · rfl

theorem decodeNodeSbcst_cellAt (node : DbSbcst) (hto : c.Apart Cell.memBroadcastingTo)
    (hfrom : c.Apart Cell.memBroadcastingFrom) :
    (decodeNodeSbcst s node).2.cellAt k c = s.cellAt k c := by
  unfold decodeNodeSbcst
  split
  · rfl
  · apply cellAt_modifyArgument
    intro a
    change ((a.put _ _).put _ _).get c = a.get c
    rw [Argument.get_put_apart _ _ hto, Argument.get_put_apart _ _ hfrom]

/-- A swizzle writes to the cells that it decorates. -/
theorem decodeNodeSwz_cellAt (node : DbSwz) (h : ∀ d ∈ (DbNode.swz node).decorates, c.Apart d) :
    (decodeNodeSwz db s node).2.cellAt k c = s.cellAt k c := by
  simp only [DbNode.decorates, List.forall_mem_cons] at h
  obtain ⟨hindex, hvdatatype, hdatatype, hvalue, hto, hfrom, -⟩ := h
  have hconvert : ∀ (a : Argument) (row : DbSwizzleTv), (swzConvert a row).get c = a.get c :=
    fun a row => Argument.get_put_apart a _ hvdatatype
  have hscale : ∀ (a : Argument) (egran : Bool), (swzScaleDisp a egran).get c = a.get c := by
    intro a egran
    unfold swzScaleDisp
    rw [Argument.get_put_apart _ _ hvalue, Argument.get_put_apart _ _ hdatatype]
  unfold decodeNodeSwz
  split
  · unfold decodeNodeSwzReg
    split
    · rfl
    · apply cellAt_modifyArgument
      exact fun a => Argument.get_put_apart a _ hindex
  · unfold decodeNodeSwzMem
    split
    · rfl
    · rename_i vmem _
      have hconverted : ∀ row, (s.modifyArgument vmem fun a => swzConvert a row).cellAt k c =
          s.cellAt k c := fun row => cellAt_modifyArgument s vmem fun a => hconvert a row
      have hscaled : ∀ (row : DbSwizzleTv) (p egran : Bool), ((s.modifyArgument vmem fun a =>
          swzConvert a row).modifyArgument vmem fun a =>
            if p then swzScaleDisp a egran else a).cellAt k c = s.cellAt k c := by
        intro row p egran
        rw [cellAt_modifyArgument, hconverted]
        intro a
        cases p with
        | false => rfl
        | true => exact hscale a egran
      dsimp only
      split
      · rfl
      · split
        · exact hconverted _
        · split
          · split
            · exact hscaled _ _ _
            · refine (cellAt_modifyArgument _ vmem ?_).trans (hscaled _ _ _)
              intro a
              change ((a.put _ _).put _ _).get c = a.get c
              rw [Argument.get_put_apart _ _ hto, Argument.get_put_apart _ _ hfrom]
          · split
            · refine (cellAt_modifyArgument _ vmem ?_).trans (hscaled _ _ _)
              exact fun a => Argument.get_put_apart a _ hvdatatype
            · exact hscaled _ _ _

/-- A node leaves the cells of earlier arguments alone that it does not decorate. -/
theorem decodeNode_cellAt (node : DbNode) (hk : k ≠ i) (hd : ∀ d ∈ node.decorates, c.Apart d) :
    (decodeNode db buf s i node).2.cellAt k c = s.cellAt k c := by
  have hhead : (s.modifyArgument i fun a =>
      { a with type := .none, attributes := { isRepresentable := true }, printer := {} }).cellAt k c =
      s.cellAt k c := cellAt_modifyArgument s i fun a => rfl
  refine Eq.trans ?_ hhead
  unfold decodeNode
  generalize (s.modifyArgument i fun a =>
    { a with type := .none, attributes := { isRepresentable := true }, printer := {} }) = u
  cases node with
  | reg node => exact cellAt_of_arguments u c (decodeArgReg_other db buf u node hk)
  | vreg node => exact cellAt_of_arguments u c (decodeArgVreg_other db buf u node hk)
  | preg node => exact cellAt_of_arguments u c (decodeArgPreg_other db buf u node hk)
  | mem node => exact cellAt_of_arguments u c (decodeArgMem_other db buf u node hk)
  | agen node => exact cellAt_of_arguments u c (decodeArgAddress_other db buf u node hk)
  | mib node => exact cellAt_of_arguments u c (decodeArgAddress_other db buf u node hk)
  | imm node => exact cellAt_of_arguments u c (decodeArgImm_other db buf u node hk)
  | rel node => exact cellAt_of_arguments u c (decodeArgRel_other db buf u node hk)
  | moffs node => exact cellAt_of_arguments u c (decodeArgMoffs_other db buf u node hk)
  | ptr node => exact cellAt_of_arguments u c (decodeArgPtr_other buf u hk)
  | shift node => exact cellAt_of_arguments u c (decodeArgImmShift_other db buf u node hk)
  | rotate node => exact cellAt_of_arguments u c (decodeArgImmRotate_other db buf u node hk)
  | cc node => exact cellAt_of_arguments u c (decodeArgCc_other db buf u node hk)
  | sae => exact cellAt_of_arguments u c (modifyArgument_other _ _ hk)
  | evh => exact cellAt_of_arguments u c (modifyArgument_other _ _ hk)
  | rc node =>
      refine cellAt_of_arguments u c ?_
      change (decodeNodeRc u i node).2.insn.arguments k = u.insn.arguments k
      unfold decodeNodeRc
      dsimp only
      rw [modifyArgument_other _ _ hk]
  | bcst =>
      simp only [DbNode.decorates, List.forall_mem_cons] at hd
      exact decodeNodeBcst_cellAt u hd.1 hd.2.1
  | sbcst node =>
      simp only [DbNode.decorates, List.forall_mem_cons] at hd
      exact decodeNodeSbcst_cellAt u node hd.1 hd.2.1
  | swz node => exact decodeNodeSwz_cellAt db u node hd
  | other => rfl

/-- The nodes behind a slot leave its cells alone, but for those they decorate. -/
theorem decodeNodes_cellAt (nodes : List DbNode) (hk : k < i)
    (hd : ∀ node ∈ nodes, ∀ d ∈ node.decorates, c.Apart d) :
    (decodeNodes db buf nodes i s).2.cellAt k c = s.cellAt k c := by
  induction nodes generalizing i s with
  | nil => rfl
  | cons node nodes ih =>
      obtain ⟨hnode, hnodes⟩ := List.forall_mem_cons.mp hd
      have hcell := decodeNode_cellAt db buf s node (Nat.ne_of_lt hk) hnode
      unfold decodeNodes
      generalize decodeNode db buf s i node = r at hcell
      obtain ⟨ok, s'⟩ := r
      cases ok with
      | false => exact hcell
      | true =>
          refine (ih s' ?_ hnodes).trans hcell
          split
          · exact hk
          · exact Nat.lt_succ_of_lt hk

end Decorators

/-- What a node that takes its slot leaves in a cell is there when all nodes are decoded, where no
node behind it decorates the cell. -/
theorem Visits.cellAt {db : Db} {buf : Buffer} {nodes rest : List DbNode} {i j : Nat}
    {s t : Internal} {node : DbNode} {c : Cell} (h : Visits db buf nodes i s node rest j t)
    (hslot : node.takesSlot = true) (hd : ∀ node ∈ rest, ∀ d ∈ node.decorates, c.Apart d) :
    (decodeNodes db buf nodes i s).2.cellAt j c = (decodeNode db buf t j node).2.cellAt j c := by
  induction h with
  | here node rest j t =>
      have htype := @decodeNode_type db buf t j node
      unfold decodeNodes
      generalize decodeNode db buf t j node = r at htype
      obtain ⟨ok, t'⟩ := r
      cases ok with
      | false => rfl
      | true =>
          have hne : ¬(t'.insn.arguments j).type = .none := by
            intro hnone
            rw [(htype rfl).mp hnone] at hslot
            cases hslot
          dsimp only
          rw [if_neg hne]
          exact decodeNodes_cellAt db buf t' rest (Nat.lt_succ_self j) hd
  | later hnode _ ih =>
      rw [decodeNodes, hnode]
      exact ih hslot hd

end Amed.X86

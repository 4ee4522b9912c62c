import Amed.X86.Trace

/-!
# What the later phases leave alone

`Internal.carried` is what the prefixes settle: reading the opcode, the ModRM byte and what
follows it, and choosing the template leave it alone. `Internal.outline` is what decoding the
arguments leaves alone, which is all but the instruction, the vector slots, the counter and the
is4 byte.
-/

namespace Amed.X86

open Bytes

/-- The diagram less the opcode, the ModRM fields, the sizes and what follows from them. -/
def Diagram.prefixed (d : Diagram) : Diagram :=
  { d with
    modreg := false, reg := 0, cr := false, rm := 0, len := 0, yosz := false, zosz := false
    yasz := false, disp := 0, scale := 0, base := 0, index := 0, is4 := 0, mod := 0, osz := 0
    opcode := 0, hasModrm := false, hasSib := false, hasDisp := false, hasIs4 := false }

/-- What the prefixes settle. -/
structure Carried where
  diagram : Diagram
  vfpc : Nat
  mapidx : Nat
  segment : Nat
  lastFPrefix : Nat

def Internal.carried (s : Internal) : Carried :=
  ⟨s.diagram.prefixed, s.vfpc, s.mapidx, s.segment, s.lastFPrefix⟩

/-- The state less what decoding an argument may write. -/
def Internal.outline (s : Internal) : Internal :=
  { s with
    insn := { (default : Insn) with mnemonic := s.insn.mnemonic }
    vreg := none, vmem := none, srcReg := none, pc := 0
    diagram := { s.diagram with is4 := 0, hasIs4 := false } }

/-! ## Up to the choice of a template -/

/-- Reading bytes moves the counter and the record. -/
theorem takeBytes_carried {buf : Buffer} {s s' : Internal} {type : BytecodeType} {n : Nat}
    {bs : List UInt8} (h : s.takeBytes buf type n = some (bs, s')) : s'.carried = s.carried := by
  obtain ⟨-, -, rfl⟩ := takeBytes_eq_some.mp h
  rfl

/-- A displacement settles nothing that the prefixes settle. -/
theorem setDisp_carried {db : Db} {s s' : Internal} {disp : Int} {n : Nat}
    (h : setDisp db s disp n = some s') : s'.carried = s.carried := by
  unfold setDisp at h
  split at h <;> cases h <;> rfl

theorem readDisp_carried (db : Db) (buf : Buffer) (s : Internal) (n : Nat) :
    (readDisp db buf s n).2.carried = s.carried := by
  unfold readDisp
  split
  · rfl
  · cases hdisp : decodeDisp db buf s n with
    | none => rfl
    | some s' =>
        unfold decodeDisp at hdisp
        split at hdisp
        · cases hdisp
        · rename_i htake
          exact (setDisp_carried hdisp).trans (takeBytes_carried htake)

/-- The SIB byte and its displacement leave what the prefixes settle alone. -/
theorem decodeSib_carried (db : Db) (buf : Buffer) (s : Internal) :
    (decodeSib db buf s).2.carried = s.carried := by
  unfold decodeSib
  split
  · rename_i htake
    exact (readDisp_carried db buf _ _).trans (takeBytes_carried htake :)
  · rfl

/-- The ModRM byte leaves what the prefixes settle alone, even where it cannot be read. -/
theorem decodeModrm_carried (db : Db) (buf : Buffer) (s : Internal) :
    (decodeModrm db buf s).2.carried = s.carried := by
  have hbegin : (beginModrm s).carried = s.carried := rfl
  have hsib : (if s.diagram.mod ≠ 3 ∧ s.diagram.rm = 4 then decodeSib db buf (beginModrm s)
      else (true, beginModrm s)).2.carried = s.carried := by
    split
    · exact (decodeSib_carried db buf _).trans hbegin
    · exact hbegin
  unfold decodeModrm
  dsimp only
  generalize (if s.diagram.mod ≠ 3 ∧ s.diagram.rm = 4 then decodeSib db buf (beginModrm s)
    else (true, beginModrm s)) = r at hsib
  obtain ⟨ok, t⟩ := r
  cases ok with
  | false => exact hsib
  | true =>
      have hdisp := readDisp_carried db buf t (modrmDispSize s.diagram.mod s.diagram.rm)
      dsimp only
      generalize readDisp db buf t (modrmDispSize s.diagram.mod s.diagram.rm) = r at hdisp
      obtain ⟨ok, u⟩ := r
      cases ok with
      | false => exact hdisp.trans hsib
      | true => exact hdisp.trans hsib

/-- The opcode and the byte behind it leave what the prefixes settle alone. -/
theorem fetchOpcode_carried (db : Db) (buf : Buffer) (s : Internal) :
    (fetchOpcode db buf s).2.carried = s.carried := by
  unfold fetchOpcode
  split
  · split
    · rfl
    · rename_i modrm hmodrm
      have hdecode := decodeModrm_carried db buf (s.setModrmField modrm)
      generalize decodeModrm db buf (s.setModrmField modrm) = r at hdecode
      obtain ⟨ok, t⟩ := r
      cases ok with
      | false => exact hdecode
      | true =>
          dsimp only
          split <;> exact hdecode
  · split <;> rfl

/-- The size bits of the hashcode are computed, not settled by the prefixes. -/
theorem Diagram.hashSizes_prefixed (d : Diagram) : d.hashSizes.prefixed = d.prefixed := by
  unfold Diagram.hashSizes
  dsimp only
  split <;> rfl

theorem Diagram.overrideSize_prefixed (d : Diagram) (t : DbTemplate) :
    (d.overrideSize t).prefixed = d.prefixed := by
  unfold Diagram.overrideSize
  split
  · split
    · rfl
    · split <;> rfl
  · rfl

/-- The lookup leaves what the prefixes settle alone. -/
theorem selectTemplate_carried (db : Db) (s : Internal) :
    (selectTemplate db s).carried = s.carried := by
  have hdiagram : (selectTemplate db s).diagram.prefixed = s.diagram.prefixed :=
    (Diagram.overrideSize_prefixed _ _).trans (Diagram.hashSizes_prefixed _)
  exact congrArg (Carried.mk · s.vfpc s.mapidx s.segment s.lastFPrefix) hdiagram

theorem decodeRealModrm_carried (db : Db) (buf : Buffer) (s : Internal) :
    (decodeRealModrm db buf s).carried = s.carried := by
  unfold decodeRealModrm
  split
  · split
    · rfl
    · exact decodeModrm_carried db buf s
  · rfl

/-! ## The arguments -/

theorem takeBytes_outline {buf : Buffer} {s s' : Internal} {type : BytecodeType} {n : Nat}
    {bs : List UInt8} (h : s.takeBytes buf type n = some (bs, s')) : s'.outline = s.outline := by
  obtain ⟨-, -, rfl⟩ := takeBytes_eq_some.mp h
  rfl

/-- Writing to a slot is a change of the arguments. -/
theorem modifyArgument_outline (s : Internal) (i : Nat) (f : Argument → Argument) :
    (s.modifyArgument i f).outline = s.outline := rfl

/-- The is4 byte is read once and kept in the diagram. -/
theorem getIs4Value_outline (buf : Buffer) (s : Internal) :
    (getIs4Value buf s).2.outline = s.outline := by
  unfold getIs4Value
  split
  · rfl
  · split
    · rename_i htake
      exact (takeBytes_outline htake :)
    · rfl

theorem decodeNodeRegisterValue_outline (buf : Buffer) (s : Internal) (node : DbReg) :
    (decodeNodeRegisterValue buf s node).2.outline = s.outline := by
  unfold decodeNodeRegisterValue
  split
  · rfl
  · split
    · exact getIs4Value_outline buf s
    · rfl

theorem decodeOptionalRegister_outline (buf : Buffer) (s : Internal) (node : Option DbReg) :
    (decodeOptionalRegister buf s node).2.outline = s.outline := by
  cases node with
  | none => rfl
  | some node => exact decodeNodeRegisterValue_outline buf s node

theorem decodeArgReg_outline (db : Db) (buf : Buffer) (s : Internal) (i : Nat) (node : DbReg) :
    (decodeArgReg db buf s i node).2.outline = s.outline :=
  decodeNodeRegisterValue_outline buf (s.modifyArgument i _) node

theorem decodeArgPreg_outline (db : Db) (buf : Buffer) (s : Internal) (i : Nat) (node : DbReg) :
    (decodeArgPreg db buf s i node).2.outline = s.outline := by
  rw [← decodeArgReg_outline db buf s i node]
  unfold decodeArgPreg
  generalize decodeArgReg db buf s i node = r
  obtain ⟨ok, s'⟩ := r
  dsimp only
  split <;> rfl

theorem decodeImplicitMem_outline (buf : Buffer) (s : Internal) (i : Nat) (node : DbMem) :
    (decodeImplicitMem buf s i node).outline = s.outline := by
  unfold decodeImplicitMem
  exact (decodeOptionalRegister_outline buf _ node.base).trans
    (decodeOptionalRegister_outline buf s node.seg)

/-- A memory operand notes its slot and the flags of loads and stores. -/
theorem decodeArgMem_outline (db : Db) (buf : Buffer) (s : Internal) (i : Nat) (node : DbMem) :
    (decodeArgMem db buf s i node).2.outline = s.outline := by
  unfold decodeArgMem
  extract_lets t u
  have haddress : u.outline = t.outline := by
    unfold u
    split
    · exact modifyArgument_outline t i _
    · exact decodeImplicitMem_outline buf t i node
  have hupdates (v : Internal) (f : Argument → Argument) (mayLoad mayStore : Bool) :
      ({ v.modifyArgument i f with
          vmem := some i, insn.attributes.mayLoad := mayLoad,
          insn.attributes.mayStore := mayStore } : Internal).outline = v.outline := rfl
  exact (hupdates u _ _ _).trans (haddress.trans (modifyArgument_outline s i _))

/-- An immediate is read into its slot. -/
theorem decodeArgImm_outline (db : Db) (buf : Buffer) (s : Internal) (i : Nat) (node : DbAny) :
    (decodeArgImm db buf s i node).2.outline = s.outline := by
  unfold decodeArgImm
  dsimp only
  split
  · rfl
  · split
    · exact getIs4Value_outline buf (s.modifyArgument i _)
    · split
      · rfl
      · rename_i htake
        exact (takeBytes_outline htake :)

theorem checkCount_outline (s : Internal) (i low : Nat) :
    (s.checkCount i low).outline = s.outline := by
  unfold Internal.checkCount
  split
  · rfl
  · split <;> rfl

theorem decodeArgImmShift_outline (db : Db) (buf : Buffer) (s : Internal) (i : Nat)
    (node : DbAny) : (decodeArgImmShift db buf s i node).2.outline = s.outline := by
  have himm := decodeArgImm_outline db buf s i node
  unfold decodeArgImmShift
  generalize decodeArgImm db buf s i node = r at himm
  obtain ⟨ok, s'⟩ := r
  cases ok with
  | false => exact himm
  | true =>
      dsimp only
      split
      · exact (checkCount_outline s' i 0).trans himm
      · exact (checkCount_outline s' i 1).trans himm
      · exact himm

theorem decodeArgImmRotate_outline (db : Db) (buf : Buffer) (s : Internal) (i : Nat)
    (node : DbAny) : (decodeArgImmRotate db buf s i node).2.outline = s.outline := by
  have himm := decodeArgImm_outline db buf s i node
  unfold decodeArgImmRotate
  generalize decodeArgImm db buf s i node = r at himm
  obtain ⟨ok, s'⟩ := r
  cases ok with
  | false => exact himm
  | true => exact (checkCount_outline s' i 0).trans himm

theorem decodeArgRel_outline (db : Db) (buf : Buffer) (s : Internal) (i : Nat) (node : DbAny) :
    (decodeArgRel db buf s i node).2.outline = s.outline := by
  have himm := decodeArgImm_outline db buf s i node
  unfold decodeArgRel
  generalize decodeArgImm db buf s i node = r at himm
  obtain ⟨ok, s'⟩ := r
  cases ok <;> exact himm

theorem decodeArgCc_outline (db : Db) (buf : Buffer) (s : Internal) (i : Nat) (node : DbAny) :
    (decodeArgCc db buf s i node).2.outline = s.outline := by
  have himm := decodeArgImm_outline db buf s i node
  unfold decodeArgCc
  generalize decodeArgImm db buf s i node = r at himm
  obtain ⟨ok, s'⟩ := r
  cases ok <;> exact himm

theorem decodeArgMoffs_outline (db : Db) (buf : Buffer) (s : Internal) (i : Nat)
    (node : DbAny) : (decodeArgMoffs db buf s i node).2.outline = s.outline := by
  unfold decodeArgMoffs
  dsimp only
  split
  · rfl
  · split
    · rfl
    · rename_i htake
      exact (takeBytes_outline htake :)

/-- A far pointer may stop between its two reads. -/
theorem decodeArgPtr_outline (buf : Buffer) (s : Internal) (i : Nat) :
    (decodeArgPtr buf s i).2.outline = s.outline := by
  unfold decodeArgPtr
  split
  · rfl
  · rename_i hseg
    split
    · exact (takeBytes_outline hseg :)
    · split
      · exact (takeBytes_outline hseg :)
      · rename_i hoff
        exact (takeBytes_outline hoff).trans (takeBytes_outline hseg)

/-- A swizzle rewrites the slot of the memory or vector operand in front of it. -/
theorem decodeNodeSwz_outline (db : Db) (s : Internal) (node : DbSwz) :
    (decodeNodeSwz db s node).2.outline = s.outline := by
  unfold decodeNodeSwz
  split
  · unfold decodeNodeSwzReg
    split
    · rfl
    · exact modifyArgument_outline s _ _
  · unfold decodeNodeSwzMem
    split
    · rfl
    · rename_i vmem _
      extract_lets row _ _ t u
      have hconvert : t.outline = s.outline := modifyArgument_outline s vmem _
      have hscale : u.outline = s.outline := (modifyArgument_outline t vmem _).trans hconvert
      clear_value u
      repeat' split
      · rfl
      · exact hconvert
      · exact hscale
      · exact (modifyArgument_outline u vmem _).trans hscale
      · exact (modifyArgument_outline u vmem _).trans hscale
      · exact hscale

/-- No argument changes the outline. -/
theorem decodeNode_outline (db : Db) (buf : Buffer) (s : Internal) (i : Nat) (node : DbNode) :
    (decodeNode db buf s i node).2.outline = s.outline := by
  unfold decodeNode
  extract_lets t
  have hclear : t.outline = s.outline := modifyArgument_outline s i _
  clear_value t
  rw [← hclear]
  cases node with
  | reg node => exact decodeArgReg_outline db buf t i node
  | vreg node => exact decodeArgReg_outline db buf t i node
  | preg node => exact decodeArgPreg_outline db buf t i node
  | mem node => exact decodeArgMem_outline db buf t i node
  | agen node => exact decodeArgMem_outline db buf t i node
  | mib node => exact decodeArgMem_outline db buf t i node
  | imm node => exact decodeArgImm_outline db buf t i node
  | rel node => exact decodeArgRel_outline db buf t i node
  | moffs node => exact decodeArgMoffs_outline db buf t i node
  | ptr node => exact decodeArgPtr_outline buf t i
  | shift node => exact decodeArgImmShift_outline db buf t i node
  | rotate node => exact decodeArgImmRotate_outline db buf t i node
  | cc node => exact decodeArgCc_outline db buf t i node
  | bcst =>
      dsimp only
      unfold decodeNodeBcst
      split
      · rfl
      · split
        · exact modifyArgument_outline t _ _
        · rfl
  | sbcst node =>
      dsimp only
      unfold decodeNodeSbcst
      split
      · rfl
      · exact modifyArgument_outline t _ _
  | swz node => exact decodeNodeSwz_outline db t node
  | sae => rfl
  | evh => rfl
  | rc node => rfl
  | other => rfl

/-- No argument list changes the outline, whether all of its nodes decode or not. -/
theorem decodeNodes_outline (db : Db) (buf : Buffer) (nodes : List DbNode) (i : Nat)
    (s : Internal) : (decodeNodes db buf nodes i s).2.outline = s.outline := by
  induction nodes generalizing i s with
  | nil => rfl
  | cons node nodes ih =>
      have hnode := decodeNode_outline db buf s i node
      unfold decodeNodes
      generalize decodeNode db buf s i node = r at hnode
      obtain ⟨ok, s'⟩ := r
      cases ok with
      | false => exact hnode
      | true => exact (ih _ s').trans hnode

end Amed.X86

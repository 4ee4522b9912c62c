import Amed.AArch32.Decoder

/-!
# What AArch32 operands need and leave behind

Whether an operand can be decoded depends on the opcode and the tables only. Decoding it, with
or without success, writes its argument, sets attribute bits and moves the decoder's own
registers; nothing else changes.
-/

namespace Amed.AArch32

/-! ## What decoding an operand changes -/

/-- The state without what decoding an operand writes. -/
def Internal.frame (s : Internal) : Internal :=
  { s with
    lsb := 0
    dstReg := 0
    insn := { s.insn with attributes := {
      isUndefined := s.insn.attributes.isUndefined
      isAlias := s.insn.attributes.isAlias
      isRunningConditionally := s.insn.attributes.isRunningConditionally } } }

/-- Only attribute bits and the decoder's own registers have changed, and no bit is lost. -/
structure Touches (s s' : Internal) : Prop where
  frame : s'.frame = s.frame
  keeps : s.insn.attributes.Keeps s'.insn.attributes

theorem Touches.refl (s : Internal) : Touches s s := ⟨rfl, .refl _⟩

theorem Touches.trans {s s' s'' : Internal} (h : Touches s s') (h' : Touches s' s'') :
    Touches s s'' :=
  ⟨h'.frame.trans h.frame, h.keeps.trans h'.keeps⟩

/-- Decoding an operand reads the word and never writes it. -/
theorem Touches.opcode {s s' : Internal} (h : Touches s s') : s'.opcode = s.opcode := by
  have hopcode : s'.frame.opcode = s.frame.opcode := by rw [h.frame]
  exact hopcode

/-- An operand is built in a place of its own; the arguments are written when it is stored. -/
theorem Touches.arguments {s s' : Internal} (h : Touches s s') :
    s'.insn.arguments = s.insn.arguments := by
  have harguments : s'.frame.insn.arguments = s.frame.insn.arguments := by rw [h.frame]
  exact harguments

/-- Setting attribute bits, apart from those that decoding an operand leaves alone. -/
structure Marks (f : InsnAttributes → InsnAttributes) : Prop where
  keeps : ∀ a : InsnAttributes, a.Keeps (f a)
  isUndefined : ∀ a, (f a).isUndefined = a.isUndefined
  isAlias : ∀ a, (f a).isAlias = a.isAlias
  isRunningConditionally : ∀ a, (f a).isRunningConditionally = a.isRunningConditionally

/-- Setting attributes that may be set is all that marking an operand does. -/
theorem Operand.mark_touches (o : Operand) {f : InsnAttributes → InsnAttributes} (h : Marks f) :
    Touches o.internal (o.mark f).internal := by
  constructor
  · simp only [mark, Internal.frame, h.isUndefined, h.isAlias, h.isRunningConditionally]
  · exact h.keeps _

theorem Touches.mark {s : Internal} {o : Operand} {f : InsnAttributes → InsnAttributes}
    (h : Touches s o.internal) (hf : Marks f) : Touches s (o.mark f).internal :=
  h.trans (o.mark_touches hf)

/-- A result is one of touching only. -/
def Operand.Touched (o : Operand) (r : Bool × Operand) : Prop := Touches o.internal r.2.internal

/-- Two decoders in a row touch no more than each of them. -/
theorem Operand.touched_andThen {o : Operand} {r : Bool × Operand}
    {next : Operand → Bool × Operand} (h : o.Touched r)
    (hnext : ∀ o : Operand, o.Touched (next o)) :
    o.Touched (andThen r next) := by
  unfold andThen
  split
  · exact Touches.trans h (hnext r.2)
  · exact h

/-- Two decoders in a row succeed where both do. -/
theorem Operand.andThen_fst (r : Bool × Operand) (next : Operand → Bool × Operand) :
    (andThen r next).1 = (r.1 && (next r.2).1) := by
  unfold andThen
  split
  · rename_i h
    rw [h, Bool.true_and]
  · rename_i h
    rw [Bool.not_eq_true] at h
    rw [h, Bool.false_and]

section Touched

variable (db : Db) (o : Operand)

theorem marks_unpredictable (b : Bool) :
    Marks fun a => { a with isUnpredictable := a.isUnpredictable || b } := by
  constructor <;> simp +contextual [InsnAttributes.Keeps, InsnAttributes.flags]

theorem marks_mayBranch (b : Bool) :
    Marks fun a => { a with mayBranch := a.mayBranch || b } := by
  constructor <;> simp +contextual [InsnAttributes.Keeps, InsnAttributes.flags]

theorem marks_isDestructive (b : Bool) :
    Marks fun a => { a with isDestructive := a.isDestructive || b } := by
  constructor <;> simp +contextual [InsnAttributes.Keeps, InsnAttributes.flags]

theorem marks_isVector : Marks fun a => { a with isVector := true } := by
  constructor <;> simp [InsnAttributes.Keeps, InsnAttributes.flags]

theorem marks_writeBack : Marks fun a => { a with mayBranch := true, isUnpredictable := true } := by
  constructor <;> simp [InsnAttributes.Keeps, InsnAttributes.flags]

theorem marks_iflags : Marks fun a => { a with isUnpredictable := true } := by
  constructor <;> simp [InsnAttributes.Keeps, InsnAttributes.flags]

/-- A register node may mark the instruction for its use of PC. -/
theorem marks_pc (node : DbAny) : Marks (markPc node) := by
  constructor
  · intro a
    unfold markPc
    dsimp only
    split
    · simp +contextual [InsnAttributes.Keeps, InsnAttributes.flags]
    · split <;> simp +contextual [InsnAttributes.Keeps, InsnAttributes.flags]
  all_goals
    intro a
    unfold markPc
    dsimp only
    split
    · rfl
    · split <;> rfl

/-- The access of a memory operand sets attributes only. -/
theorem marks_memAccess (access : MemAccess) : Marks (decodeMemAccess access) := by
  cases access <;>
    constructor <;>
      simp +contextual [decodeMemAccess, InsnAttributes.Keeps, InsnAttributes.flags]

theorem Marks.comp {f g : InsnAttributes → InsnAttributes} (hg : Marks g) (hf : Marks f) :
    Marks fun a => g (f a) where
  keeps a := (hf.keeps a).trans (hg.keeps (f a))
  isUndefined a := (hg.isUndefined (f a)).trans (hf.isUndefined a)
  isAlias a := (hg.isAlias (f a)).trans (hf.isAlias a)
  isRunningConditionally a :=
    (hg.isRunningConditionally (f a)).trans (hf.isRunningConditionally a)

/-- The end of a register operand remembers a destination and may mark a destructive
instruction. -/
theorem finishReg_touches {s : Internal} {o : Operand} (h : Touches s o.internal) (node : DbAny) :
    Touches s (finishReg o node).internal := by
  have hmark := Operand.mark_touches
    { o with internal := { o.internal with
      dstReg := if node.write then o.argument.get Cell.regValue else o.internal.dstReg } }
    (marks_isDestructive (node.read &&
      (if node.write then o.argument.get Cell.regValue else o.internal.dstReg) =
        o.argument.get Cell.regValue))
  exact h.trans ⟨hmark.frame, hmark.keeps⟩

/-- A register operand sets attributes and may become the remembered destination. -/
theorem decodeArgReg_touched (node : DbAny) : o.Touched (decodeArgReg db o node) := by
  have hmark := Operand.mark_touches o
    (marks_unpredictable (registerOf db o.internal.opcode node).2.2)
  unfold decodeArgReg
  dsimp only
  split
  · split
    · exact hmark
    · refine finishReg_touches (Touches.mark ?_ (marks_pc node)) node
      exact hmark
  · split
    · exact hmark
    · refine finishReg_touches ?_ node
      exact hmark

theorem decodeArgVreg_touched (node : DbAny) : o.Touched (decodeArgVreg db o node) :=
  Operand.touched_andThen (decodeArgReg_touched db o node)
    fun o => Operand.mark_touches o marks_isVector

/-- A register with an element index touches no more than the register. -/
theorem decodeArgEreg_touched (node : DbEreg) : o.Touched (decodeArgEreg db o node) := by
  refine Operand.touched_andThen (decodeArgReg_touched db o node.reg) fun o => ?_
  split <;> exact Touches.refl _

theorem decodeArgWreg_touched (node : DbWreg) : o.Touched (decodeArgWreg db o node) := by
  refine Operand.touched_andThen (decodeArgReg_touched db o node.reg) fun o => ?_
  dsimp only
  split
  · exact Operand.mark_touches ⟨o.internal, _⟩ marks_writeBack
  · exact Touches.refl _

/-- A shifter writes to the operand only. -/
theorem decodeArgShifter_internal (node : DbShifter) :
    (decodeArgShifter db o node).2.internal = o.internal := by
  unfold decodeArgShifter
  dsimp only
  split <;> rfl

theorem decodeArgShifter_touched (node : DbShifter) : o.Touched (decodeArgShifter db o node) := by
  rw [Operand.Touched, decodeArgShifter_internal]
  exact .refl _

theorem decodeArgRegsh_touched (node : DbOpsh) : o.Touched (decodeArgRegsh db o node) :=
  Operand.touched_andThen (decodeArgReg_touched db o node.op)
    fun o => decodeArgShifter_touched db o node.shifter

/-- Of the encodings of an immediate only that of a bit field is remembered, by its `lsb`. -/
theorem decodeEncodedImm_touches (s : Internal) (a : Argument) (node : DbAny) (value : BitVec 32)
    (nb : Nat) : Touches s (decodeEncodedImm ⟨s, a⟩ node value nb).2.internal := by
  unfold decodeEncodedImm
  dsimp only
  split
  case h_2 => exact ⟨rfl, .refl _⟩
  all_goals exact .refl _

/-- An immediate leaves the attributes alone. -/
theorem decodeArgImm_touched (node : DbAny) : o.Touched (decodeArgImm db o node) := by
  unfold decodeArgImm
  dsimp only
  split
  · rename_i value nb _
    exact decodeEncodedImm_touches o.internal _ node value nb
  · exact Touches.refl _
  · exact Touches.refl _

theorem decodeArgImmsh_touched (node : DbOpsh) : o.Touched (decodeArgImmsh db o node) :=
  Operand.touched_andThen (decodeArgImm_touched db o node.op)
    fun o => decodeArgShifter_touched db o node.shifter

/-- A label writes to its argument only. -/
theorem decodeArgLabel_touched (node : DbAny) : o.Touched (decodeArgLabel db o node) := by
  unfold decodeArgLabel
  dsimp only
  split <;> exact Touches.refl _

theorem decodeAnynymousImmreg_touched (node : DbImmReg) :
    o.Touched (decodeAnynymousImmreg db o node) := by
  cases node with
  | base node => exact decodeArgReg_touched db o node
  | vbase node => exact decodeArgVreg_touched db o node
  | ebase node => exact decodeArgEreg_touched db o node
  | regoff node => exact decodeArgReg_touched db o node
  | regoffsh node => exact decodeArgRegsh_touched db o node
  | immoff node => exact decodeArgImm_touched db o node
  | immoffsh node => exact decodeArgImmsh_touched db o node

/-- The offset of a memory operand is an immediate or a register, with the marks of either. -/
theorem decodeOffset_touches (node : DbMem) :
    Touches o.internal (decodeOffset db o node).2.1.internal := by
  unfold decodeOffset
  split
  · exact .refl _
  · split
    · exact .refl _
    · dsimp only
      split <;> exact decodeAnynymousImmreg_touched db o _

/-- A memory operand sets the flags of loads and stores. -/
theorem marks_mem (node : DbMem) : Marks fun a =>
    decodeMemAccess node.stacc (decodeMemAccess node.ldacc { a with
      mayLoad := a.mayLoad || node.read
      mayStore := a.mayStore || node.write }) := by
  have hload : Marks fun a =>
      { a with mayLoad := a.mayLoad || node.read, mayStore := a.mayStore || node.write } := by
    constructor <;> simp +contextual [InsnAttributes.Keeps, InsnAttributes.flags]
  exact (marks_memAccess node.stacc).comp ((marks_memAccess node.ldacc).comp hload)

/-- A memory operand touches no more than its base and its offset do, and its own marks. -/
theorem decodeArgMem_touched (node : DbMem) : o.Touched (decodeArgMem db o node) := by
  unfold decodeArgMem
  dsimp only
  generalize o.argument.put Cell.memRegoff Register.none = a
  generalize ((((a.put _ _).put _ _).put _ _).put _ _) = a
  have hbase : o.Touched (decodeAnynymousImmreg db ⟨o.internal, a⟩ node.base) :=
    decodeAnynymousImmreg_touched db ⟨o.internal, a⟩ node.base
  refine Operand.touched_andThen hbase fun o => ?_
  generalize o.argument.put Cell.memBase (o.argument.get Cell.regValue) = a
  have hoffset : Touches o.internal (decodeOffset db ⟨o.internal, a⟩ node).2.1.internal :=
    decodeOffset_touches db ⟨o.internal, a⟩ node
  split
  · split
    · exact hoffset
    · refine Touches.mark ?_ (marks_mem node)
      exact hoffset
  · exact hoffset

/-- The interrupt flags are unpredictable where none of them is named. -/
theorem decodeArgIflags_touched (node : DbAny) : o.Touched (decodeArgIflags db o node) := by
  unfold decodeArgIflags
  split
  · exact Touches.refl _
  · dsimp only
    split
    · exact Operand.mark_touches ⟨o.internal, _⟩ marks_iflags
    · exact Touches.refl _

theorem decodeArgSysreg_touched (type : EnumType) (node : DbAny) :
    o.Touched (decodeArgSysreg db o type node) :=
  Operand.touched_andThen (Touches.refl o.internal) fun _ => Touches.refl _

theorem decodeArgSlist_touched (node : DbAny) : o.Touched (decodeArgSlist db o node) :=
  Operand.mark_touches ⟨o.internal, _⟩ (marks_mayBranch _)

theorem decodeArgGlist_touched (node : DbAny) : o.Touched (decodeArgGlist db o node) :=
  Operand.mark_touches ⟨o.internal, _⟩ (marks_mayBranch _)

/-- A list of floating-point registers touches no more than its base register and its marks. -/
theorem decodeArgFlist_touched (boundary : Nat) (f : Nat → Nat) (node : DbFlist) :
    o.Touched (decodeArgFlist db boundary f o node) := by
  refine Operand.touched_andThen (decodeArgReg_touched db o node.base) fun o => ?_
  split
  · exact Touches.refl _
  · rename_i decoded _
    dsimp only
    have hmarks (b c : Bool) : Marks fun a =>
        { a with isUnpredictable := a.isUnpredictable || b || c } := by
      constructor <;> simp +contextual [InsnAttributes.Keeps, InsnAttributes.flags]
    exact Operand.mark_touches ⟨o.internal, _⟩ (hmarks _ _)

/-- A list of vector registers touches no more than its base register and its marks. -/
theorem decodeArgVlist_touched (node : DbVlist) : o.Touched (decodeArgVlist db o node) := by
  refine Operand.touched_andThen (decodeAnynymousImmreg_touched db o node.base) fun o => ?_
  split
  · exact Touches.refl _
  · split
    · exact Touches.refl _
    · exact Operand.mark_touches ⟨o.internal, _⟩ (marks_unpredictable _)

/-- Decoding a node only touches the state. -/
theorem decodeNode_touched (node : DbNode) : o.Touched (decodeNode db o node) := by
  unfold decodeNode
  generalize hclear : ({ o with argument := clearArgument o.argument } : Operand) = o'
  have hsame : o.internal = o'.internal := by
    rw [← hclear]
  rw [Operand.Touched, hsame]
  cases node with
  | xyz => exact .refl _
  | enum type node => exact .refl _
  | sysreg type node => exact decodeArgSysreg_touched db o' type node
  | reg node => exact decodeArgReg_touched db o' node
  | vreg node => exact decodeArgVreg_touched db o' node
  | ereg node => exact decodeArgEreg_touched db o' node
  | wreg node => exact decodeArgWreg_touched db o' node
  | regsh node => exact decodeArgRegsh_touched db o' node
  | glist node => exact decodeArgGlist_touched db o' node
  | slist node => exact decodeArgSlist_touched db o' node
  | fslist node => exact decodeArgFlist_touched db o' _ _ node
  | fdlist node => exact decodeArgFlist_touched db o' _ _ node
  | vlist node => exact decodeArgVlist_touched db o' node
  | imm node => exact decodeArgImm_touched db o' node
  | label node => exact decodeArgLabel_touched db o' node
  | mem node => exact decodeArgMem_touched db o' node
  | iflags node => exact decodeArgIflags_touched db o' node
  | other => exact .refl _

end Touched

/-! ## What an operand needs -/

section Decodes

variable (db : Db) (opcode : BitVec 32)

/-- The register of a node is not one that it excludes. -/
def decodesReg (node : DbAny) : Bool :=
  let value := (registerOf db opcode node).1
  if value = Register.pc then !node.nopc else !(value = Register.sp && node.nosp)

/-- The value of a node is in its table. -/
def decodesAny (node : DbAny) : Bool := (decodeAny db opcode node).isSome

/-- A floating-point immediate fits into its byte. -/
def decodesImm (node : DbAny) : Bool :=
  match decodeAny db opcode node with
  | some ⟨.encodedin, value, _⟩ => node.symbol ≠ .vfpimm || (decodeVfpImm value).1
  | _ => true

def decodesOpsh (op : DbAny → Bool) (node : DbOpsh) : Bool :=
  op node.op && decodesAny db opcode node.shifter.shift

def decodesImmReg : DbImmReg → Bool
  | .base node | .vbase node | .regoff node => decodesReg db opcode node
  | .ebase node => decodesReg db opcode node.reg && decodesAny db opcode node.idx
  | .regoffsh node => decodesOpsh db opcode (decodesReg db opcode) node
  | .immoff node => decodesImm db opcode node
  | .immoffsh node => decodesOpsh db opcode (decodesImm db opcode) node

def decodesOffset (node : DbMem) : Bool :=
  node.regoff.all fun regoff =>
    node.add.all (decodesAny db opcode) && decodesImmReg db opcode regoff

/-- A node can be decoded. -/
def decodes : DbNode → Bool
  | .reg node | .vreg node => decodesReg db opcode node
  | .ereg node => decodesReg db opcode node.reg && decodesAny db opcode node.idx
  | .wreg node => decodesReg db opcode node.reg
  | .regsh node => decodesOpsh db opcode (decodesReg db opcode) node
  | .fslist node | .fdlist node => decodesReg db opcode node.base && decodesAny db opcode node.count
  | .vlist node =>
      decodesImmReg db opcode node.base &&
        (decodesAny db opcode node.count && decodesAny db opcode node.inc)
  | .imm node => decodesImm db opcode node
  | .label node =>
      let raw := readEncodedinValue (db.encodedins node.encodedin) opcode
      (labelOffset node raw.1 raw.2).isSome
  | .mem node =>
      decodesImmReg db opcode node.base &&
        (decodesOffset db opcode node && node.align.all (decodesAny db opcode))
  | .iflags node => decodesAny db opcode node
  | .other => false
  | _ => true

variable {opcode} {o : Operand} (h : o.internal.opcode = opcode)
include h

/-- A register decodes unless it is one that the node excludes. -/
theorem decodeArgReg_fst (node : DbAny) : (decodeArgReg db o node).1 = decodesReg db opcode node := by
  subst h
  unfold decodeArgReg decodesReg
  dsimp only
  split
  · cases node.nopc <;> rfl
  · cases node.nosp <;> by_cases hsp : (registerOf db o.internal.opcode node).1 = Register.sp <;>
      simp [hsp]

theorem decodeArgVreg_fst (node : DbAny) :
    (decodeArgVreg db o node).1 = decodesReg db opcode node := by
  rw [decodeArgVreg, Operand.andThen_fst, decodeArgReg_fst db h]
  exact Bool.and_true _

/-- The index of an element decodes as any value does. -/
theorem decodeArgEreg_fst (node : DbEreg) :
    (decodeArgEreg db o node).1 =
      (decodesReg db opcode node.reg && decodesAny db opcode node.idx) := by
  have hopcode := (decodeArgReg_touched db o node.reg).opcode.trans h
  rw [decodeArgEreg, Operand.andThen_fst, decodeArgReg_fst db h, hopcode, decodesAny]
  cases decodeAny db opcode node.idx <;> rfl

theorem decodeArgWreg_fst (node : DbWreg) :
    (decodeArgWreg db o node).1 = decodesReg db opcode node.reg := by
  rw [decodeArgWreg, Operand.andThen_fst, decodeArgReg_fst db h]
  dsimp only
  split <;> exact Bool.and_true _

/-- A shifter decodes where its amount does. -/
theorem decodeArgShifter_fst (node : DbShifter) :
    (decodeArgShifter db o node).1 = decodesAny db opcode node.shift := by
  subst h
  unfold decodeArgShifter decodesAny
  dsimp only
  cases decodeAny db o.internal.opcode node.shift <;> rfl

/-- A shifted register decodes where the register and the shifter do. -/
theorem decodeArgRegsh_fst (node : DbOpsh) :
    (decodeArgRegsh db o node).1 = decodesOpsh db opcode (decodesReg db opcode) node := by
  rw [decodeArgRegsh, Operand.andThen_fst, decodeArgReg_fst db h,
    decodeArgShifter_fst db ((decodeArgReg_touched db o node.op).opcode.trans h), decodesOpsh]

omit h in
/-- Of the encoded immediates only the floating-point constants can fail. -/
theorem decodeEncodedImm_fst (o : Operand) (node : DbAny) (value : BitVec 32) (nb : Nat) :
    (decodeEncodedImm o node value nb).1 = (node.symbol ≠ .vfpimm || (decodeVfpImm value).1) := by
  unfold decodeEncodedImm
  dsimp only
  split <;> simp_all

/-- An immediate decodes where its value does and its encoding allows it. -/
theorem decodeArgImm_fst (node : DbAny) : (decodeArgImm db o node).1 = decodesImm db opcode node := by
  subst h
  unfold decodeArgImm decodesImm
  dsimp only
  cases decodeAny db o.internal.opcode node with
  | none => rfl
  | some decoded =>
      obtain ⟨definition, value, nb⟩ := decoded
      cases definition with
      | encodedin => exact decodeEncodedImm_fst _ node value nb
      | value => rfl
      | table => rfl

theorem decodeArgImmsh_fst (node : DbOpsh) :
    (decodeArgImmsh db o node).1 = decodesOpsh db opcode (decodesImm db opcode) node := by
  rw [decodeArgImmsh, Operand.andThen_fst, decodeArgImm_fst db h,
    decodeArgShifter_fst db ((decodeArgImm_touched db o node.op).opcode.trans h), decodesOpsh]

/-- A label decodes where its symbol is one that has an offset. -/
theorem decodeArgLabel_fst (node : DbAny) :
    (decodeArgLabel db o node).1 = decodes db opcode (.label node) := by
  subst h
  unfold decodeArgLabel decodes
  dsimp only
  cases labelOffset node _ _ <;> rfl

/-- The base of a memory operand decodes as the register or immediate it is. -/
theorem decodeAnynymousImmreg_fst (node : DbImmReg) :
    (decodeAnynymousImmreg db o node).1 = decodesImmReg db opcode node := by
  cases node with
  | base node => exact decodeArgReg_fst db h node
  | vbase node => exact decodeArgVreg_fst db h node
  | ebase node => exact decodeArgEreg_fst db h node
  | regoff node => exact decodeArgReg_fst db h node
  | regoffsh node => exact decodeArgRegsh_fst db h node
  | immoff node => exact decodeArgImm_fst db h node
  | immoffsh node => exact decodeArgImmsh_fst db h node

/-- An absent node has its default; one that is there has to decode. -/
theorem decodeOptional_isSome (node : Option DbAny) (absent : BitVec 32) :
    (decodeOptional db o.internal.opcode node absent).isSome =
      node.all (decodesAny db opcode) := by
  subst h
  cases node with
  | none => rfl
  | some node => exact Option.isSome_map

/-- The offset decodes where its sign and its register or value do. -/
theorem decodeOffset_fst (node : DbMem) :
    (decodeOffset db o node).1 = decodesOffset db opcode node := by
  have hadd := decodeOptional_isSome db h node.add 1
  unfold decodeOffset decodesOffset
  split
  · rename_i hnone
    rw [hnone]
    rfl
  · rename_i regoff hsome
    rw [hsome, Option.all_some, ← hadd, ← decodeAnynymousImmreg_fst db h regoff]
    cases decodeOptional db o.internal.opcode node.add 1 with
    | none => rfl
    | some add => cases hr : (decodeAnynymousImmreg db o regoff).1 <;> simp [hr]

/-- The interrupt flags decode as any value does. -/
theorem decodeArgIflags_fst (node : DbAny) :
    (decodeArgIflags db o node).1 = decodesAny db opcode node := by
  subst h
  unfold decodeArgIflags decodesAny
  split
  · rename_i hnone
    rw [hnone]
    rfl
  · rename_i decoded hsome
    rw [hsome]
    dsimp only
    split <;> rfl

/-- A list of floating-point registers needs its base and its count. -/
theorem decodeArgFlist_fst (boundary : Nat) (f : Nat → Nat) (node : DbFlist) :
    (decodeArgFlist db boundary f o node).1 =
      (decodesReg db opcode node.base && decodesAny db opcode node.count) := by
  have hopcode := (decodeArgReg_touched db o node.base).opcode.trans h
  rw [decodeArgFlist, Operand.andThen_fst, decodeArgReg_fst db h, hopcode, decodesAny]
  cases decodeAny db opcode node.count <;> rfl

/-- A list of vector registers needs its base, its count and its step. -/
theorem decodeArgVlist_fst (node : DbVlist) :
    (decodeArgVlist db o node).1 = decodes db opcode (.vlist node) := by
  have hopcode := (decodeAnynymousImmreg_touched db o node.base).opcode.trans h
  rw [decodeArgVlist, Operand.andThen_fst, decodeAnynymousImmreg_fst db h, hopcode, decodes,
    decodesAny, decodesAny]
  cases decodeAny db opcode node.count with
  | none => rfl
  | some count => cases decodeAny db opcode node.inc <;> rfl

/-- A memory operand decodes where its base, its offset and its alignment do. -/
theorem decodeArgMem_fst (node : DbMem) :
    (decodeArgMem db o node).1 = decodes db opcode (.mem node) := by
  unfold decodeArgMem
  dsimp only
  generalize o.argument.put Cell.memRegoff Register.none = a
  generalize ((((a.put _ _).put _ _).put _ _).put _ _) = a
  have hbase := decodeAnynymousImmreg_fst db (o := ⟨o.internal, a⟩) h node.base
  have hopcode := (decodeAnynymousImmreg_touched db ⟨o.internal, a⟩ node.base).opcode.trans h
  rw [Operand.andThen_fst, hbase, decodes]
  congr 1
  generalize (decodeAnynymousImmreg db ⟨o.internal, a⟩ node.base).2 = o' at hopcode
  generalize o'.argument.put Cell.memBase (o'.argument.get Cell.regValue) = a
  have hoffset := decodeOffset_fst db (o := ⟨o'.internal, a⟩) hopcode node
  have halign := decodeOptional_isSome db
    ((decodeOffset_touches db ⟨o'.internal, a⟩ node).opcode.trans hopcode) node.align 0
  rw [← hoffset, ← halign]
  split
  · rename_i hok
    rw [hok, Bool.true_and]
    cases decodeOptional db _ node.align 0 <;> rfl
  · rename_i hfail
    rw [Bool.not_eq_true] at hfail
    rw [hfail]
    rfl

/-- Whether a node is decoded depends on the opcode and the tables only. -/
theorem decodeNode_fst (node : DbNode) : (decodeNode db o node).1 = decodes db opcode node := by
  unfold decodeNode
  generalize hclear : ({ o with argument := clearArgument o.argument } : Operand) = o'
  have h' : o'.internal.opcode = opcode := by
    rw [← hclear]
    exact h
  cases node with
  | xyz => rfl
  | enum type node => rfl
  | sysreg type node => rfl
  | reg node => exact decodeArgReg_fst db h' node
  | vreg node => exact decodeArgVreg_fst db h' node
  | ereg node => exact decodeArgEreg_fst db h' node
  | wreg node => exact decodeArgWreg_fst db h' node
  | regsh node => exact decodeArgRegsh_fst db h' node
  | glist node => rfl
  | slist node => rfl
  | fslist node => exact decodeArgFlist_fst db h' _ _ node
  | fdlist node => exact decodeArgFlist_fst db h' _ _ node
  | vlist node => exact decodeArgVlist_fst db h' node
  | imm node => exact decodeArgImm_fst db h' node
  | label node => exact decodeArgLabel_fst db h' node
  | mem node => exact decodeArgMem_fst db h' node
  | iflags node => exact decodeArgIflags_fst db h' node
  | other => rfl

end Decodes

end Amed.AArch32

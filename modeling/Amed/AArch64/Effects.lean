import Amed.AArch64.Decoder

/-!
# What AArch64 operands need and leave behind

Whether an operand can be decoded depends on the opcode and the tables only. Decoding it, with
or without success, writes its argument, sets attribute bits and moves the decoder's own
registers; nothing else changes.
-/

namespace Amed.AArch64

/-! ## What decoding an operand changes -/

/-- The part of the state that decoding an operand leaves alone. -/
def Internal.frame (s : Internal) : BitVec 32 × Context × Nat × Nat × Nat × Insn :=
  (s.opcode, s.context, s.encoding, s.ptemplate, s.datasize,
    { s.insn with attributes := {
        isUndefined := s.insn.attributes.isUndefined
        isAlias := s.insn.attributes.isAlias
        isRunningConditionally := s.insn.attributes.isRunningConditionally } })

/-- Only attribute bits and the decoder's own registers have changed, and no bit is lost. -/
structure Touches (s s' : Internal) : Prop where
  frame : s'.frame = s.frame
  keeps : s.insn.attributes.Keeps s'.insn.attributes

theorem Touches.refl (s : Internal) : Touches s s := ⟨rfl, .refl _⟩

theorem Touches.trans {s s' s'' : Internal} (h : Touches s s') (h' : Touches s' s'') :
    Touches s s'' :=
  ⟨h'.frame.trans h.frame, h.keeps.trans h'.keeps⟩

/-- Decoding an operand reads the word and never writes it. -/
theorem Touches.opcode {s s' : Internal} (h : Touches s s') : s'.opcode = s.opcode :=
  congrArg Prod.fst h.frame

/-- An operand is built in a place of its own; the arguments are written when it is stored. -/
theorem Touches.arguments {s s' : Internal} (h : Touches s s') :
    s'.insn.arguments = s.insn.arguments :=
  congrArg (fun f => f.2.2.2.2.2.arguments) h.frame

/-- A result is one of touching only. -/
def Operand.Touched (o : Operand) (r : Bool × Operand) : Prop :=
  Touches o.internal r.2.internal

/-- Two decoders in a row touch no more than each of them. -/
theorem Operand.touched_andThen {o : Operand} {r : Bool × Operand}
    {next : Operand → Bool × Operand} (h : o.Touched r)
    (hnext : ∀ o : Operand, o.Touched (next o)) :
    o.Touched (andThen r next) := by
  unfold andThen
  split
  · exact Touches.trans h (hnext r.2)
  · exact h

/-- Two decoders in a row succeed where both do. -/
theorem Operand.andThen_fst (r : Bool × Operand) (next : Operand → Bool × Operand) :
    (andThen r next).1 = (r.1 && (next r.2).1) := by
  unfold andThen
  split
  · rename_i h
    rw [h, Bool.true_and]
  · rename_i h
    rw [Bool.not_eq_true] at h
    rw [h, Bool.false_and]

section Touched

variable (db : Db) (o : Operand)

/-- A register operand touches attributes at most. -/
theorem decodeArgReg_touched (node : DbAny) : o.Touched (decodeArgReg db o node) := by
  refine ⟨rfl, ?_⟩
  simp +contextual [decodeArgReg, InsnAttributes.Keeps, InsnAttributes.flags]

/-- A shifter writes to the operand only. -/
theorem decodeArgShifter_internal (node : DbShifter) :
    (decodeArgShifter db o node).2.internal = o.internal := by
  unfold decodeArgShifter
  dsimp only
  split
  · split <;> rfl
  · split
    · rfl
    · split
      · rfl
      · split <;> rfl

theorem decodeArgShifter_touched (node : DbShifter) : o.Touched (decodeArgShifter db o node) := by
  rw [Operand.Touched, decodeArgShifter_internal]
  exact .refl _

theorem decodeArgRegsh_touched (node : DbOpsh DbAny) : o.Touched (decodeArgRegsh db o node) :=
  Operand.touched_andThen (decodeArgReg_touched db o node.op)
    fun o => decodeArgShifter_touched db o node.shifter

theorem decodeArgVreg_touched (node : DbEreg) : o.Touched (decodeArgVreg db o node) := by
  refine Operand.touched_andThen (decodeArgReg_touched db o node.reg) fun o => ⟨rfl, ?_⟩
  simp [InsnAttributes.Keeps, InsnAttributes.flags]

theorem decodeArgVregsh_touched (node : DbOpsh DbEreg) : o.Touched (decodeArgVregsh db o node) :=
  Operand.touched_andThen (decodeArgVreg_touched db o node.op)
    fun o => decodeArgShifter_touched db o node.shifter

theorem decodeArgEreg_touched (node : DbEreg) : o.Touched (decodeArgEreg db o node) := by
  refine Operand.touched_andThen (decodeArgReg_touched db o node.reg) fun o => ?_
  split <;> exact Touches.refl _

theorem decodeArgPreg_touched (node : DbAny) : o.Touched (decodeArgPreg db o node) := by
  refine Operand.touched_andThen (decodeArgReg_touched db o node) fun o => ⟨rfl, ?_⟩
  simp [InsnAttributes.Keeps, InsnAttributes.flags]

/-- An encoded immediate touches attributes at most. -/
theorem decodeEncodedImm_touches (s : Internal) (a : Argument) (node : DbAny) (value : BitVec 32)
    (nb : Nat) : Touches s (decodeEncodedImm ⟨s, a⟩ node value nb).internal := by
  unfold decodeEncodedImm
  dsimp only
  split
  case h_5 => split <;> exact .refl _
  case h_9 => exact ⟨rfl, .refl _⟩
  all_goals exact .refl _

theorem decodeArgImm_touched (node : DbAny) : o.Touched (decodeArgImm db o node) := by
  unfold decodeArgImm
  dsimp only
  split
  · rename_i value nb _
    exact decodeEncodedImm_touches o.internal _ node value nb
  · exact Touches.refl _
  · exact Touches.refl _

theorem decodeArgImmsh_touched (node : DbOpsh DbAny) : o.Touched (decodeArgImmsh db o node) :=
  Operand.touched_andThen (decodeArgImm_touched db o node.op)
    fun o => decodeArgShifter_touched db o node.shifter

theorem decodeArgLabel_touched (node : DbAny) : o.Touched (decodeArgLabel db o node) :=
  Operand.touched_andThen (decodeArgImm_touched db o node) fun _ => Touches.refl _

theorem decodeAnynymousImmreg_touched (node : DbImmReg) :
    o.Touched (decodeAnynymousImmreg db o node) := by
  unfold decodeAnynymousImmreg
  split
  · exact decodeArgReg_touched db o _
  · exact decodeArgReg_touched db o _
  · exact decodeArgEreg_touched db o _
  · exact decodeArgVreg_touched db o _
  · exact decodeArgVreg_touched db o _
  · exact decodeArgRegsh_touched db o _
  · exact decodeArgVregsh_touched db o _
  · exact decodeArgImm_touched db o _
  · exact decodeArgImmsh_touched db o _

/-- The end of a memory operand sets the flags of loads and stores. -/
theorem finishMem_touches (node : DbMem) : Touches o.internal (finishMem o node).internal := by
  refine ⟨rfl, ?_⟩
  simp +contextual [finishMem, InsnAttributes.Keeps, InsnAttributes.flags]

/-- A memory operand touches no more than its base and its offset do, and its own flags. -/
theorem decodeArgMem_touched (stale : Argument) (node : DbMem) :
    o.Touched (decodeArgMem db stale o node) := by
  unfold decodeArgMem
  dsimp only
  have hbase := decodeAnynymousImmreg_touched db ⟨o.internal, localArgument stale⟩ (.base node.base)
  split
  · exact hbase
  · split
    · exact Touches.trans hbase (finishMem_touches ⟨_, _⟩ node)
    · rename_i regoff _
      have hoffset := Touches.trans hbase (decodeAnynymousImmreg_touched db _ (.offset regoff))
      split
      · exact hoffset
      · exact hoffset.trans (finishMem_touches ⟨_, _⟩ node)

theorem decodeArgVlist_touched (node : DbList) : o.Touched (decodeArgVlist db o node) := by
  refine Operand.touched_andThen (decodeAnynymousImmreg_touched db o _) fun o => ?_
  dsimp only
  split <;> exact Touches.refl _

theorem decodeArgElist_touched (node : DbList) : o.Touched (decodeArgElist db o node) :=
  Operand.touched_andThen (decodeArgVlist_touched db o node) fun _ => Touches.refl _

/-- An enumeration writes to the operand only. -/
theorem decodeArgEnum_internal (type : EnumType) (node : DbAny) :
    (decodeArgEnum db o type node).2.internal = o.internal := by
  unfold decodeArgEnum
  dsimp only
  split <;> rfl

theorem decodeArgPatternsh_touched (node : DbOpsh DbAny) :
    o.Touched (decodeArgPatternsh db o node) := by
  refine Operand.touched_andThen ?_ fun o => decodeArgShifter_touched db o node.shifter
  rw [Operand.Touched, decodeArgEnum_internal]
  exact .refl _

/-- Decoding a node only touches the state. -/
theorem decodeNode_touched (stale : Argument) (node : DbNode) :
    o.Touched (decodeNode db stale o node) := by
  unfold decodeNode
  generalize hclear : ({ o with argument := clearArgument o.argument } : Operand) = o'
  have hsame : o.internal = o'.internal := by
    rw [← hclear]
  rw [Operand.Touched, hsame]
  cases node with
  | enum type node =>
      rw [decodeArgEnum_internal]
      exact .refl _
  | invcond node => exact .refl _
  | sysreg node => exact .refl _
  | reg node => exact decodeArgReg_touched db o' node
  | regsh node => exact decodeArgRegsh_touched db o' node
  | vreg node => exact decodeArgVreg_touched db o' node
  | ereg node => exact decodeArgEreg_touched db o' node
  | preg node => exact decodeArgPreg_touched db o' node
  | vlist node => exact decodeArgVlist_touched db o' node
  | elist node => exact decodeArgElist_touched db o' node
  | patternsh node => exact decodeArgPatternsh_touched db o' node
  | fpimm node => exact decodeArgImm_touched db o' node
  | imm node => exact decodeArgImm_touched db o' node
  | immsh node => exact decodeArgImmsh_touched db o' node
  | label node => exact decodeArgLabel_touched db o' node
  | mem node => exact decodeArgMem_touched db o' stale node
  | other => exact .refl _

end Touched

/-! ## What an operand needs -/

section Decodes

variable (db : Db) (opcode : BitVec 32)

/-- The values of a shifter are in its tables. -/
def decodesShifter (node : DbShifter) : Bool :=
  if node.hasEncodedin then
    (lookupTv node.table (readEncodedinValue (db.encodedins node.encodedin) opcode).1).isSome
  else
    (decodeAny db opcode node.shift).isSome &&
      node.amount.all fun amount => (decodeAny db opcode amount).isSome

/-- The value of an enumeration is in its table. -/
def decodesEnum (type : EnumType) (node : DbAny) : Bool :=
  (enumValue type node (readEncodedinValue (db.encodedins node.encodedin) opcode).1).isSome

/-- The register node of a base. -/
def DbBase.reg : DbBase → DbAny
  | .base node => node
  | .vbase node | .ebase node => node.reg

def decodesImmReg : DbImmReg → Bool
  | .base (.ebase node) => (decodeAny db opcode node.idx).isSome
  | .offset (.regoffsh node) => decodesShifter db opcode node.shifter
  | .offset (.vregoffsh node) => decodesShifter db opcode node.shifter
  | .offset (.immoffsh node) => decodesShifter db opcode node.shifter
  | _ => true

/-- The base of a list is of a class that lists are made of. -/
def decodesList (node : DbList) : Bool :=
  decodesImmReg db opcode (.base node.base) &&
    (listBoundary (db.reginfo ((registerOf db opcode node.base.reg).1 % 256 ^ 2)).symbol).isSome

/-- A node can be decoded. -/
def decodes : DbNode → Bool
  | .enum type node => decodesEnum db opcode type node
  | .regsh node => decodesShifter db opcode node.shifter
  | .ereg node => (decodeAny db opcode node.idx).isSome
  | .vlist node | .elist node => decodesList db opcode node
  | .patternsh node => decodesEnum db opcode .pattern node.op && decodesShifter db opcode node.shifter
  | .immsh node => decodesShifter db opcode node.shifter
  | .mem node =>
      decodesImmReg db opcode (.base node.base) &&
        node.regoff.all fun regoff => decodesImmReg db opcode (.offset regoff)
  | .other => false
  | _ => true

/-- An immediate always decodes. -/
theorem decodeArgImm_fst (o : Operand) (node : DbAny) : (decodeArgImm db o node).1 = true := by
  unfold decodeArgImm
  dsimp only
  split <;> rfl

/-- The cell of a register operand holds the register of the table. -/
theorem get_decodeArgReg (o : Operand) (node : DbAny) :
    (decodeArgReg db o node).2.argument.get Cell.regValue =
      (registerOf db o.internal.opcode node).1 % 256 ^ 2 :=
  Argument.get_put o.argument Cell.regValue _

/-- The register of a base. -/
theorem get_base (o : Operand) (node : DbBase) :
    (decodeAnynymousImmreg db o (.base node)).2.argument.get Cell.regValue =
      (registerOf db o.internal.opcode node.reg).1 % 256 ^ 2 := by
  cases node with
  | base node => exact get_decodeArgReg db o node
  | vbase node => exact get_decodeArgReg db o node.reg
  | ebase node =>
      have hreg := get_decodeArgReg db o node.reg
      have hok : (decodeArgReg db o node.reg).1 = true := rfl
      rw [decodeAnynymousImmreg, decodeArgEreg, Operand.andThen, if_pos hok]
      split
      · exact hreg
      · exact (Argument.get_put_apart _ _ (by decide)).trans hreg

variable {opcode} {o : Operand} (h : o.internal.opcode = opcode)
include h

/-- A shifter decodes where its values are in their tables. -/
theorem decodeArgShifter_fst (node : DbShifter) :
    (decodeArgShifter db o node).1 = decodesShifter db opcode node := by
  subst h
  unfold decodeArgShifter decodesShifter
  dsimp only
  split
  · cases lookupTv node.table _ <;> rfl
  · cases decodeAny db o.internal.opcode node.shift with
    | none => rfl
    | some shift =>
        cases node.amount with
        | none => rfl
        | some amount => cases hamount : decodeAny db o.internal.opcode amount <;> simp [hamount]

/-- A register with an element index decodes where the index does. -/
theorem decodeArgEreg_fst (node : DbEreg) :
    (decodeArgEreg db o node).1 = (decodeAny db opcode node.idx).isSome := by
  subst h
  rw [decodeArgEreg, Operand.andThen_fst]
  cases hidx : decodeAny db o.internal.opcode node.idx <;> simp [decodeArgReg, hidx]

theorem decodeArgRegsh_fst (node : DbOpsh DbAny) :
    (decodeArgRegsh db o node).1 = decodesShifter db opcode node.shifter := by
  rw [decodeArgRegsh, Operand.andThen_fst,
    decodeArgShifter_fst db ((decodeArgReg_touched db o node.op).opcode.trans h)]
  exact Bool.true_and _

theorem decodeArgVregsh_fst (node : DbOpsh DbEreg) :
    (decodeArgVregsh db o node).1 = decodesShifter db opcode node.shifter := by
  rw [decodeArgVregsh, Operand.andThen_fst,
    decodeArgShifter_fst db ((decodeArgVreg_touched db o node.op).opcode.trans h)]
  exact Bool.true_and _

theorem decodeArgImmsh_fst (node : DbOpsh DbAny) :
    (decodeArgImmsh db o node).1 = decodesShifter db opcode node.shifter := by
  rw [decodeArgImmsh, Operand.andThen_fst, decodeArgImm_fst db o,
    decodeArgShifter_fst db ((decodeArgImm_touched db o node.op).opcode.trans h)]
  exact Bool.true_and _

/-- The base of a memory operand decodes as the register or immediate it is. -/
theorem decodeAnynymousImmreg_fst (node : DbImmReg) :
    (decodeAnynymousImmreg db o node).1 = decodesImmReg db opcode node := by
  cases node with
  | base node =>
      cases node with
      | base node => rfl
      | vbase node => rfl
      | ebase node => exact decodeArgEreg_fst db h node
  | offset node =>
      cases node with
      | regoff node => rfl
      | vregoff node => rfl
      | regoffsh node => exact decodeArgRegsh_fst db h node
      | vregoffsh node => exact decodeArgVregsh_fst db h node
      | immoff node => exact decodeArgImm_fst db o node
      | immoffsh node => exact decodeArgImmsh_fst db h node

/-- A memory operand decodes where its base and its offset do. -/
theorem decodeArgMem_fst (stale : Argument) (node : DbMem) :
    (decodeArgMem db stale o node).1 = decodes db opcode (.mem node) := by
  have hbase := decodeAnynymousImmreg_touched db ⟨o.internal, localArgument stale⟩ (.base node.base)
  have hbasefst := decodeAnynymousImmreg_fst db (o := ⟨o.internal, localArgument stale⟩) h
    (.base node.base)
  unfold decodeArgMem decodes
  dsimp only
  rw [← hbasefst]
  split
  · rename_i hfail
    rw [Bool.not_eq_true'] at hfail
    rw [hfail]
    rfl
  · rename_i hok
    rw [Bool.not_eq_true', Bool.not_eq_false] at hok
    rw [hok, Bool.true_and]
    cases node.regoff with
    | none => rfl
    | some regoff =>
        have hfst := decodeAnynymousImmreg_fst db (hbase.opcode.trans h) (.offset regoff)
        dsimp only [Option.all_some]
        rw [← hfst]
        split
        · rename_i hfail
          rw [Bool.not_eq_true'] at hfail
          exact hfail.symm
        · rename_i hok
          rw [Bool.not_eq_true', Bool.not_eq_false] at hok
          exact hok.symm

/-- A register list decodes where its base does and is of a class that lists are made of. -/
theorem decodeArgVlist_fst (node : DbList) :
    (decodeArgVlist db o node).1 = decodesList db opcode node := by
  rw [decodeArgVlist, Operand.andThen_fst, decodeAnynymousImmreg_fst db h, decodesList]
  congr 1
  dsimp only
  rw [get_base, h]
  cases listBoundary _ <;> rfl

/-- An enumeration decodes where its value is one of its own. -/
theorem decodeArgEnum_fst (type : EnumType) (node : DbAny) :
    (decodeArgEnum db o type node).1 = decodesEnum db opcode type node := by
  subst h
  unfold decodeArgEnum decodesEnum
  dsimp only
  cases enumValue type node _ <;> rfl

/-- Whether a node is decoded depends on the opcode and the tables only. -/
theorem decodeNode_fst (stale : Argument) (node : DbNode) :
    (decodeNode db stale o node).1 = decodes db opcode node := by
  unfold decodeNode
  generalize hclear : ({ o with argument := clearArgument o.argument } : Operand) = o'
  have h' : o'.internal.opcode = opcode := by
    rw [← hclear]
    exact h
  cases node with
  | enum type node => exact decodeArgEnum_fst db h' type node
  | invcond node => rfl
  | sysreg node => rfl
  | reg node => rfl
  | regsh node => exact decodeArgRegsh_fst db h' node
  | vreg node => rfl
  | ereg node => exact decodeArgEreg_fst db h' node
  | preg node => rfl
  | vlist node => exact decodeArgVlist_fst db h' node
  | elist node =>
      exact (Operand.andThen_fst _ _).trans ((Bool.and_true _).trans (decodeArgVlist_fst db h' node))
  | patternsh node =>
      have hinternal : (decodeArgEnum db o' .pattern node.op).2.internal.opcode = opcode := by
        rw [decodeArgEnum_internal]
        exact h'
      change (decodeArgPatternsh db o' node).1 = _
      rw [decodeArgPatternsh, Operand.andThen_fst, decodeArgEnum_fst db h',
        decodeArgShifter_fst db hinternal]
      rfl
  | fpimm node => exact decodeArgImm_fst db o' node
  | imm node => exact decodeArgImm_fst db o' node
  | immsh node => exact decodeArgImmsh_fst db h' node
  | label node => exact (Operand.andThen_fst _ _).trans (by rw [decodeArgImm_fst]; rfl)
  | mem node => exact decodeArgMem_fst db h' stale node
  | other => rfl

end Decodes

/-! ## The nodes of a template -/

/-- The part of the state that decoding the nodes of a template leaves alone. -/
def Internal.outline (s : Internal) : BitVec 32 × Context × Nat × Nat × Nat × Insn :=
  (s.opcode, s.context, s.encoding, s.ptemplate, s.datasize,
    { s.frame.2.2.2.2.2 with
      argumentCount := 0
      arguments := fun _ => default
      overrun := false })

/-- Arguments, attribute bits and the decoder's own registers have changed, and no bit is lost. -/
structure Fills (s s' : Internal) : Prop where
  outline : s'.outline = s.outline
  keeps : s.insn.attributes.Keeps s'.insn.attributes

theorem Fills.trans {s s' s'' : Internal} (h : Fills s s') (h' : Fills s' s'') : Fills s s'' :=
  ⟨h'.outline.trans h.outline, h.keeps.trans h'.keeps⟩

/-- The word stays the same over all nodes. -/
theorem Fills.opcode {s s' : Internal} (h : Fills s s') : s'.opcode = s.opcode :=
  congrArg Prod.fst h.outline

theorem Fills.insn {s s' : Internal} (h : Fills s s') :
    s'.outline.2.2.2.2.2 = s.outline.2.2.2.2.2 :=
  congrArg (fun f => f.2.2.2.2.2) h.outline

/-- Store the argument that was decoded. -/
def Operand.store (o : Operand) (i : Nat) : Internal :=
  { o.internal with insn := o.internal.insn.setArgument i o.argument }

theorem Touches.fills {s : Internal} {o : Operand} (h : Touches s o.internal) (i : Nat) :
    Fills s (o.store i) := by
  refine ⟨?_, h.keeps⟩
  exact congrArg (fun f : BitVec 32 × Context × Nat × Nat × Nat × Insn =>
    (f.1, f.2.1, f.2.2.1, f.2.2.2.1, f.2.2.2.2.1, { f.2.2.2.2.2 with
      argumentCount := 0
      arguments := fun _ => default
      overrun := false })) h.frame

section Nodes

variable (db : Db) (stale : Argument)

/-- The state behind the first of several nodes. -/
def afterNode (s : Internal) (i : Nat) (node : DbNode) : Internal :=
  (decodeNode db stale ⟨s, s.insn.arguments i⟩ node).2.store i

theorem decodeNodesFrom_cons (node : DbNode) (nodes : List DbNode) (i : Nat) (s : Internal) :
    decodeNodesFrom db stale (node :: nodes) i s =
      if decodes db s.opcode node then
        decodeNodesFrom db stale nodes (i + 1) (afterNode db stale s i node)
      else (false, afterNode db stale s i node) := by
  rw [← decodeNode_fst db (o := ⟨s, s.insn.arguments i⟩) rfl stale node]
  rfl

theorem afterNode_fills (s : Internal) (i : Nat) (node : DbNode) :
    Fills s (afterNode db stale s i node) :=
  Touches.fills (decodeNode_touched db ⟨s, s.insn.arguments i⟩ stale node) i

/-- The nodes of a template fill slots and set attributes, and nothing else. -/
theorem decodeNodesFrom_fills (nodes : List DbNode) (i : Nat) (s : Internal) :
    Fills s (decodeNodesFrom db stale nodes i s).2 := by
  induction nodes generalizing i s with
  | nil => exact ⟨rfl, .refl _⟩
  | cons node nodes ih =>
      have hnode := afterNode_fills db stale s i node
      rw [decodeNodesFrom_cons]
      split
      · exact hnode.trans (ih (i + 1) _)
      · exact hnode

/-- A template decodes where each of its nodes does, whatever the slots hold. -/
theorem decodeNodesFrom_fst (nodes : List DbNode) (i : Nat) (s : Internal) :
    (decodeNodesFrom db stale nodes i s).1 = nodes.all (decodes db s.opcode) := by
  induction nodes generalizing i s with
  | nil => rfl
  | cons node nodes ih =>
      rw [decodeNodesFrom_cons, List.all_cons]
      split
      · rename_i hok
        rw [ih, (afterNode_fills db stale s i node).opcode, hok, Bool.true_and]
      · rename_i hfail
        rw [Bool.not_eq_true] at hfail
        rw [hfail, Bool.false_and]

/-- A node writes to its own slot only. -/
theorem afterNode_arguments (s : Internal) (i : Nat) (node : DbNode) {j : Nat} (hj : j ≠ i) :
    (afterNode db stale s i node).insn.arguments j = s.insn.arguments j := by
  have htouched := decodeNode_touched db ⟨s, s.insn.arguments i⟩ stale node
  exact (Insn.setArgument_other _ _ hj).trans (congrFun (Touches.arguments htouched) j)

/-- The slots below the first one stay as they are. -/
theorem decodeNodesFrom_below (nodes : List DbNode) (i : Nat) (s : Internal) {j : Nat}
    (hj : j < i) :
    (decodeNodesFrom db stale nodes i s).2.insn.arguments j = s.insn.arguments j := by
  induction nodes generalizing i s with
  | nil => exact Insn.setArgument_other s.insn _ (Nat.ne_of_lt hj)
  | cons node nodes ih =>
      have hnode := afterNode_arguments db stale s i node (Nat.ne_of_lt hj)
      rw [decodeNodesFrom_cons]
      split
      · rw [ih (i + 1) _ (by omega), hnode]
      · exact hnode

/-- The slots from `i` on hold what the nodes were decoded to. -/
def HoldsNodes (opcode : BitVec 32) (nodes : List DbNode) (i : Nat)
    (arguments : Nat → Argument) : Prop :=
  ∀ k node, nodes[k]? = some node → ∃ o : Operand, o.internal.opcode = opcode ∧
    (decodeNode db stale o node).1 = true ∧
      arguments (i + k) = (decodeNode db stale o node).2.argument

/-- Where all nodes decode, the slots from the first one on hold their operands. -/
theorem decodeNodesFrom_holds {nodes : List DbNode} {i : Nat} {s : Internal}
    (h : nodes.all (decodes db s.opcode) = true) :
    HoldsNodes db stale s.opcode nodes i (decodeNodesFrom db stale nodes i s).2.insn.arguments ∧
      (decodeNodesFrom db stale nodes i s).2.insn.argumentCount = i + nodes.length := by
  induction nodes generalizing i s with
  | nil => exact ⟨fun k node hk => by simp at hk, rfl⟩
  | cons node nodes ih =>
      rw [List.all_cons, Bool.and_eq_true] at h
      have hopcode := (afterNode_fills db stale s i node).opcode
      have hrest := ih (i := i + 1) (s := afterNode db stale s i node) (by rw [hopcode]; exact h.2)
      rw [decodeNodesFrom_cons, if_pos h.1]
      refine ⟨fun k node' hk => ?_, by rw [hrest.2, List.length_cons]; omega⟩
      cases k with
      | zero =>
          cases hk
          refine ⟨⟨s, s.insn.arguments i⟩, rfl, ?_, ?_⟩
          · rw [decodeNode_fst db (o := ⟨s, s.insn.arguments i⟩) rfl]
            exact h.1
          · exact (decodeNodesFrom_below db stale nodes (i + 1) _ (Nat.lt_succ_self i)).trans
              (Insn.setArgument_same _ _ _)
      | succ k =>
          obtain ⟨o, ho, hdecoded, hslot⟩ := hrest.1 k node' hk
          refine ⟨o, ho.trans hopcode, hdecoded, ?_⟩
          rw [← hslot]
          congr 1
          omega

end Nodes

end Amed.AArch64

import Amed.AArch64.Destructive
import Amed.Arm.RegisterSlots

/-!
# The register arguments that are stored

Which register arguments an instruction ends with follows from the opcode and the tables, template
by template: a node stores its argument whether or not it can be decoded, and a template that is
given up leaves what its nodes have stored.

## Implementation notes

A node that fails before it has stored a type leaves an argument of the old type, without its
attributes. So a register that is neither read nor written stands for any such register.
-/

namespace Amed.AArch64

open Arm LastWrite Search

/-! ## Nodes -/

variable (db : Db) (opcode : BitVec 32)

/-- The register argument that `decode_arg_reg` stores. -/
def regArgument (node : DbAny) : Option (Access Nat) :=
  some (effective ⟨(registerOf db opcode node).1 % 2 ^ 16, node.read, node.write⟩)

/-- The register of a slot that a node has stored its argument in. -/
def nodeRegister (old : Option (Access Nat)) : DbNode → Option (Access Nat)
  | .reg node | .preg node => regArgument db opcode node
  | .regsh node => regArgument db opcode node.op
  | .vreg node | .ereg node => regArgument db opcode node.reg
  | .vlist node | .elist node =>
      if decodesList db opcode node then none else regArgument db opcode node.base.reg
  | .enum type node =>
      if decodesEnum db opcode type node then none else old.map fun _ => ⟨0, false, false⟩
  | .patternsh node =>
      if decodesEnum db opcode .pattern node.op then none
      else old.map fun _ => ⟨0, false, false⟩
  | .mem node =>
      if decodes db opcode (.mem node) then none else old.map fun _ => ⟨0, false, false⟩
  | .other => old.map fun _ => ⟨0, false, false⟩
  | .invcond _ | .sysreg _ | .fpimm _ | .imm _ | .immsh _ | .label _ => none

/-- Decoding an operand stores a register. -/
def Stores (r : Bool × Operand) (register : Option (Access Nat)) : Prop :=
  argumentRegister r.2.argument = register

section Operands

variable (o : Operand)

/-- A decoder that follows another one and leaves its register alone stores what that one
does. -/
theorem Stores.andThen {r : Bool × Operand} {next : Operand → Bool × Operand}
    {register : Option (Access Nat)} (h : Stores r register)
    (hnext : ∀ o : Operand, argumentRegister (next o).2.argument = argumentRegister o.argument) :
    Stores (Operand.andThen r next) register := by
  unfold Operand.andThen
  split
  · exact (hnext r.2).trans h
  · exact h

/-- A register node stores the register it names, with the accesses of the node. -/
theorem decodeArgReg_stores (node : DbAny) :
    Stores (decodeArgReg db o node) (regArgument db o.internal.opcode node) := by
  have hvalue : (decodeArgReg db o node).2.argument.get Cell.regValue =
      (registerOf db o.internal.opcode node).1 % 2 ^ 16 := get_decodeArgReg db o node
  rw [Stores, argumentRegister, hvalue]
  rfl

/-- The end of a shifter is written to cells of its own. -/
theorem finishShifter_register (a : Argument) :
    argumentRegister (finishShifter a) = argumentRegister a := by
  unfold finishShifter
  dsimp only
  split <;> rfl

/-- A shifter leaves the register it shifts alone, whether it decodes or not. -/
theorem decodeArgShifter_register (node : DbShifter) :
    argumentRegister (decodeArgShifter db o node).2.argument = argumentRegister o.argument := by
  unfold decodeArgShifter
  dsimp only
  split
  · split <;> rfl
  · split
    · rfl
    · split
      · exact finishShifter_register _
      · split
        · rfl
        · refine (finishShifter_register _).trans ?_
          split <;> split <;> rfl

theorem decodeArgVreg_stores (node : DbEreg) :
    Stores (decodeArgVreg db o node) (regArgument db o.internal.opcode node.reg) :=
  (decodeArgReg_stores db o node.reg).andThen fun _ => rfl

/-- A register with an element index stores its register before the index is decoded. -/
theorem decodeArgEreg_stores (node : DbEreg) :
    Stores (decodeArgEreg db o node) (regArgument db o.internal.opcode node.reg) := by
  refine (decodeArgReg_stores db o node.reg).andThen fun o => ?_
  dsimp only
  split
  · rfl
  · rename_i idx _
    have hvalue : (o.argument.put Cell.regIndex idx.value.toNat).get Cell.regValue =
        o.argument.get Cell.regValue := Argument.get_put_apart _ _ (by decide)
    exact congrArg (fun value =>
      if o.argument.type = .register then
        some (effective ⟨value, o.argument.attributes.read, o.argument.attributes.write⟩)
      else none) hvalue

/-- The base of a memory operand is stored as a register until the operand replaces it. -/
theorem base_stores (node : DbBase) :
    Stores (decodeAnynymousImmreg db o (.base node))
      (regArgument db o.internal.opcode node.reg) := by
  cases node with
  | base node => exact decodeArgReg_stores db o node
  | vbase node => exact decodeArgVreg_stores db o node
  | ebase node => exact decodeArgEreg_stores db o node

theorem decodeEncodedImm_type (node : DbAny) (value : BitVec 32) (nb : Nat) :
    (decodeEncodedImm o node value nb).argument.type = o.argument.type := by
  unfold decodeEncodedImm
  cases node.symbol
  case aimm =>
    dsimp only
    split <;> rfl
  all_goals rfl

theorem decodeArgImm_type (node : DbAny) :
    (decodeArgImm db o node).2.argument.type = .immediate := by
  unfold decodeArgImm
  dsimp only
  split
  · exact decodeEncodedImm_type _ node _ _
  · rfl
  · rfl

/-- An immediate is no register. -/
theorem decodeArgImm_stores (node : DbAny) : Stores (decodeArgImm db o node) none :=
  argumentRegister_of_type (by rw [decodeArgImm_type]; decide)

/-- A register list replaces its base only where the base is of a class that lists are made
of. -/
theorem decodeArgVlist_stores (node : DbList) :
    Stores (decodeArgVlist db o node)
      (if decodesList db o.internal.opcode node then none
        else regArgument db o.internal.opcode node.base.reg) := by
  have hbase := base_stores db o node.base
  have hfst := decodeAnynymousImmreg_fst db (o := o) rfl (.base node.base)
  have hvalue := get_base db o node.base
  rw [decodesList, ← hfst, ← hvalue, decodeArgVlist, Operand.andThen]
  generalize decodeAnynymousImmreg db o (.base node.base) = r at hbase
  cases r.1 with
  | false => exact hbase
  | true =>
      rw [if_pos rfl, Bool.true_and]
      dsimp only
      cases listBoundary (db.reginfo (r.2.argument.get Cell.regValue)).symbol with
      | none => exact hbase
      | some boundary => exact argumentRegister_of_type fun h => ArgumentType.noConfusion h

/-- An enumeration that is not in its table leaves an argument of the old type without its
attributes; any other is no register. -/
theorem decodeArgEnum_stores (type : EnumType) (node : DbAny) :
    Stores (decodeArgEnum db { o with argument := clearArgument o.argument } type node)
      (if decodesEnum db o.internal.opcode type node then none
        else (argumentRegister o.argument).map fun _ => ⟨0, false, false⟩) := by
  unfold decodeArgEnum decodesEnum
  dsimp only
  cases enumValue type node (readEncodedinValue (db.encodedins node.encodedin)
      o.internal.opcode).1 with
  | none =>
      rw [Option.isSome_none, if_neg Bool.false_ne_true]
      dsimp only
      split <;> exact argumentRegister_cleared rfl rfl rfl
  | some value =>
      refine argumentRegister_of_type fun h => ?_
      cases type <;> exact ArgumentType.noConfusion h

/-- A memory operand that fails leaves an argument of the old type without its attributes: base
and offset are decoded in places of their own. -/
theorem decodeArgMem_stores (stale : Argument) (node : DbMem) :
    Stores (decodeArgMem db stale { o with argument := clearArgument o.argument } node)
      (if decodes db o.internal.opcode (.mem node) then none
        else (argumentRegister o.argument).map fun _ => ⟨0, false, false⟩) := by
  have hfst := decodeNode_fst db (o := o) rfl stale (.mem node)
  change (decodeArgMem db stale { o with argument := clearArgument o.argument } node).1 = _ at hfst
  rw [← hfst]
  unfold decodeArgMem
  dsimp only
  split
  · exact argumentRegister_cleared rfl rfl rfl
  · cases node.regoff with
    | none => exact argumentRegister_of_type fun h => ArgumentType.noConfusion h
    | some regoff =>
        dsimp only
        split
        · exact argumentRegister_cleared rfl rfl rfl
        · exact argumentRegister_of_type fun h => ArgumentType.noConfusion h

/-- What a node leaves in its slot, by its kind and the word. A kind without a decoder leaves an
argument of the old type without its attributes. -/
theorem decodeNode_stores (stale : Argument) (node : DbNode) :
    Stores (decodeNode db stale o node)
      (nodeRegister db o.internal.opcode (argumentRegister o.argument) node) := by
  let cleared : Operand := { o with argument := clearArgument o.argument }
  cases node with
  | enum type node => exact decodeArgEnum_stores db o type node
  | reg node => exact decodeArgReg_stores db cleared node
  | regsh node =>
      exact (decodeArgReg_stores db cleared node.op).andThen
        fun o => decodeArgShifter_register db o node.shifter
  | vreg node => exact decodeArgVreg_stores db cleared node
  | ereg node => exact decodeArgEreg_stores db cleared node
  | preg node => exact (decodeArgReg_stores db cleared node).andThen fun _ => rfl
  | vlist node => exact decodeArgVlist_stores db cleared node
  | elist node => exact (decodeArgVlist_stores db cleared node).andThen fun _ => rfl
  | patternsh node =>
      exact (decodeArgEnum_stores db o .pattern node.op).andThen
        fun o => decodeArgShifter_register db o node.shifter
  | fpimm node | imm node => exact decodeArgImm_stores db cleared node
  | immsh node =>
      exact (decodeArgImm_stores db cleared node.op).andThen
        fun o => decodeArgShifter_register db o node.shifter
  | label node =>
      have himm : (decodeArgImm db cleared node).1 = true := decodeArgImm_fst db cleared node
      change Stores (Operand.andThen (decodeArgImm db cleared node) _) none
      rw [Operand.andThen, if_pos himm]
      exact argumentRegister_of_type fun h => ArgumentType.noConfusion h
  | mem node => exact decodeArgMem_stores db o stale node
  | invcond _ | sysreg _ => exact argumentRegister_of_type fun h => ArgumentType.noConfusion h
  | other => exact argumentRegister_cleared rfl rfl rfl

end Operands

/-! ## Nodes, templates and encodings -/

/-- What the loop over the nodes leaves, from slot `i` on. -/
def nodesLeave : List DbNode → Nat → Slots → Bool × Slots
  | [], i, l => (true, { l.store i none with count := i })
  | node :: nodes, i, l =>
      let l := l.store i (nodeRegister db opcode (l.register i) node)
      if decodes db opcode node then nodesLeave nodes (i + 1) l else (false, l)

def templateLeaves (template : Nat) (l : Slots) : Bool × Slots :=
  if conditionsHold db opcode template then
    nodesLeave db opcode (db.arguments (db.templates template).arguments) 0 l
  else (false, l)

def encodingLeaves (encoding : Nat) (l : Slots) : Slots :=
  (tryEach (templateLeaves db opcode) (candidates db (db.encodings encoding)) l).2

/-- A node writes to its own slot. -/
theorem afterNode_slots (stale : Argument) (s : Internal) (i : Nat) (node : DbNode) :
    slotsOf (afterNode db stale s i node).insn =
      (slotsOf s.insn).store i
        (nodeRegister db s.opcode (argumentRegister (s.insn.arguments i)) node) := by
  have hstores := decodeNode_stores db ⟨s, s.insn.arguments i⟩ stale node
  have hframe := (decodeNode_touched db ⟨s, s.insn.arguments i⟩ stale node).frame
  have hslots : slotsOf (decodeNode db stale ⟨s, s.insn.arguments i⟩ node).2.internal.insn =
      slotsOf s.insn :=
    congrArg (fun f => slotsOf f.2.2.2.2.2) hframe
  rw [Stores] at hstores
  dsimp only at hstores
  rw [← hstores, ← hslots]
  exact slotsOf_setArgument _ i _

/-- Over the nodes of a template the slots follow the table, up to the node that fails. -/
theorem decodeNodesFrom_slots (stale : Argument) (nodes : List DbNode) (i : Nat) (s : Internal) :
    nodesLeave db s.opcode nodes i (slotsOf s.insn) =
      ((decodeNodesFrom db stale nodes i s).1,
        slotsOf (decodeNodesFrom db stale nodes i s).2.insn) := by
  induction nodes generalizing i s with
  | nil =>
      have hstore := slotsOf_setArgument s.insn i { s.insn.arguments i with type := .none }
      have hregister : argumentRegister { s.insn.arguments i with type := .none } = none :=
        argumentRegister_of_type fun h => ArgumentType.noConfusion h
      rw [hregister] at hstore
      exact congrArg (fun l : Slots => (true, { l with count := i })) hstore.symm
  | cons node nodes ih =>
      have hnode := afterNode_slots db stale s i node
      have hopcode := (afterNode_fills db stale s i node).opcode
      rw [decodeNodesFrom_cons, nodesLeave]
      change (if decodes db s.opcode node then nodesLeave db s.opcode nodes (i + 1)
        ((slotsOf s.insn).store i
          (nodeRegister db s.opcode (argumentRegister (s.insn.arguments i)) node)) else _) = _
      rw [← hnode]
      cases decodes db s.opcode node with
      | true =>
          rw [if_pos rfl, if_pos rfl, ← ih, hopcode]
      | false => exact congrArg (Prod.mk false) hnode.symm

/-- A template that is tried leaves its nodes' registers, even if it is given up. -/
theorem decodeTemplate_slots (stale : Argument) (template : Nat) (s : Internal) :
    templateLeaves db s.opcode template (slotsOf s.insn) =
      ((decodeTemplate db stale template s).1,
        slotsOf (decodeTemplate db stale template s).2.insn) := by
  have hopcode := (enterTemplate_fixed db template s).1
  have hslots : slotsOf (enterTemplate db template s).insn = slotsOf s.insn := by
    unfold enterTemplate beginTemplate decodeCondition
    split <;> rfl
  have hnodes := decodeNodesFrom_slots db stale
    (db.arguments (db.templates template).arguments) 0 (enterTemplate db template s)
  have hfst := decodeTemplate_fst db stale template s
  have hall := decodeNodesFrom_fst db stale
    (db.arguments (db.templates template).arguments) 0 (enterTemplate db template s)
  rw [hopcode, hslots, hall, hopcode] at hnodes
  rw [hfst, templateLeaves, decodeTemplate_eq, templateDecodes]
  cases conditionsHold db s.opcode template with
  | false => rfl
  | true =>
      rw [if_pos rfl, if_pos rfl, Bool.true_and, hnodes]
      refine congrArg (Prod.mk _) ?_
      split <;> rfl

/-- All templates that an encoding tries leave their registers in the slots. -/
theorem tryEncoding_slots (stale : Argument) (encoding : Nat) (s : Internal) :
    slotsOf (tryEncoding db stale encoding s).insn =
      encodingLeaves db s.opcode encoding (slotsOf s.insn) := by
  refine (congrArg Prod.snd (tryEach_view (fun s : Internal => slotsOf s.insn)
    (I := fun s' => s'.opcode = s.opcode) (fun t _ s' hs' => ?_) (fun t _ s' hs' _ => ?_)
    (s := enterEncoding db encoding s) rfl)).symm
  · rw [← hs']
    exact decodeTemplate_slots db stale t s'
  · exact (decodeTemplate_holds db stale t s').opcode.trans hs'

/-! ## Instructions -/

section Steps

variable (ctx : Context) (stale : Argument) (insn : Insn)

/-- The registers among the arguments of an accepted instruction. -/
def leftSlots : Slots :=
  let base := encodingLeaves db (fetchOpcode ctx) (lookedUp db ctx) (slotsOf insn)
  match chosenAlias db ctx stale insn with
  | none => base
  | some palias => encodingLeaves db (fetchOpcode ctx) palias base

/-- The slots behind the record of the lookup, before any alias is tried. -/
theorem baseState_slots (h : MatchesLookup db ctx) :
    slotsOf (baseState db ctx stale insn).insn =
      encodingLeaves db (fetchOpcode ctx) (lookedUp db ctx) (slotsOf insn) := by
  rw [baseState, decodeBase_of_match db ctx stale insn h]
  exact tryEncoding_slots db stale (lookedUp db ctx) (startState ctx insn)

/-- The opcode and the tables tell the register arguments of an accepted instruction. -/
theorem decodeInsn_slots (hok : (decodeInsn db ctx stale insn).1 = true) :
    slotsOf (decodeInsn db ctx stale insn).2 = leftSlots db ctx stale insn := by
  rw [decodeInsn_fst, decide_eq_true_eq] at hok
  obtain ⟨hlength, hmatch⟩ := hok
  have hslots := baseState_slots db ctx stale insn hmatch
  have hopcode := (baseState_holds db ctx stale insn hmatch).1
  rw [decodeInsn_of_match db ctx stale insn hlength hmatch, leftSlots]
  cases hchosen : chosenAlias db ctx stale insn with
  | none =>
      rw [aliasStep_of_none db ctx stale insn hmatch hchosen]
      exact hslots
  | some palias =>
      have hleft := tryEncoding_slots db stale palias (baseState db ctx stale insn)
      rw [hslots, hopcode] at hleft
      rw [aliasStep_of_some db ctx stale insn hmatch hchosen]
      exact hleft

end Steps

end Amed.AArch64

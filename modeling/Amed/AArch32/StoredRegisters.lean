import Amed.AArch32.Destructive
import Amed.Arm.RegisterSlots
import Amed.Library.Overlays

/-!
# The register arguments that AArch32 stores

Which register arguments an instruction ends with follows from the opcode and the tables, template
by template. A template that is given up leaves what its nodes have stored, also the node that
failed, which has stored a register where it failed behind one.

## Implementation notes

A banked register without a name keeps the number that was encoded, and so does an enumeration of
such registers: the two share the first bytes of the argument.
-/

namespace Amed.AArch32

open Arm Bytes LastWrite Search

/-! ## Nodes -/

variable (db : Db) (opcode : BitVec 32)

/-- The register argument that `decode_arg_reg` stores. -/
def regArgument (node : DbAny) : Option (Access Nat) :=
  some (effective ⟨(registerOf db opcode node).1 % 2 ^ 16, node.read, node.write⟩)

/-- What `decode_anynymous_immreg` stores. -/
def immRegArgument : DbImmReg → Option (Access Nat)
  | .base node | .vbase node | .regoff node => regArgument db opcode node
  | .ebase node => regArgument db opcode node.reg
  | .regoffsh node => regArgument db opcode node.op
  | .immoff _ | .immoffsh _ => none

/-- The register that an enumeration stores, as far as it is one of registers. -/
def enumArgument (type : EnumType) (node : DbAny) (read write : Bool) : Option (Access Nat) :=
  if type.argumentType = .register then
    some (effective
      ⟨if node.hasEncodedin then (rawValue db opcode node).toNat % 2 ^ 16 else 0, read, write⟩)
  else none

def sysregArgument (type : EnumType) (node : DbAny) : Option (Access Nat) :=
  let value := enumValue type node (rawValue db opcode node)
  if value.2 then some (effective ⟨value.1.toNat % 2 ^ 16, node.read, node.write⟩)
  else enumArgument db opcode type node node.read node.write

/-- The register in the offset of a memory operand, or the one before it. -/
def offsetArgument (old : Option (Access Nat)) (node : DbMem) : Option (Access Nat) :=
  match node.regoff with
  | none => old
  | some regoff =>
      if node.add.all (decodesAny db opcode) then immRegArgument db opcode regoff else old

/-- The register that a memory operand leaves where it fails. -/
def memArgument (node : DbMem) : Option (Access Nat) :=
  if decodesImmReg db opcode node.base then
    offsetArgument db opcode (immRegArgument db opcode node.base) node
  else immRegArgument db opcode node.base

/-- The register of a slot that a node has stored its argument in. -/
def nodeRegister (node : DbNode) : Option (Access Nat) :=
  match node with
  | .reg node | .vreg node => regArgument db opcode node
  | .ereg node => regArgument db opcode node.reg
  | .wreg node => regArgument db opcode node.reg
  | .regsh node => regArgument db opcode node.op
  | .fslist list | .fdlist list =>
      if decodes db opcode node then none else regArgument db opcode list.base
  | .vlist list => if decodes db opcode node then none else immRegArgument db opcode list.base
  | .mem mem => if decodes db opcode node then none else memArgument db opcode mem
  | .enum type node => enumArgument db opcode type node true false
  | .sysreg type node => sysregArgument db opcode type node
  | _ => none

/-- Decoding an operand stores a register. -/
def Stores (r : Bool × Operand) (register : Option (Access Nat)) : Prop :=
  argumentRegister r.2.argument = register

/-- What is stored apart from the number of a register leaves it. -/
theorem argumentRegister_put (a : Argument) {c : Cell} (v : Nat)
    (h : Cell.regValue.Apart c) : argumentRegister (a.put c v) = argumentRegister a := by
  unfold argumentRegister
  rw [Argument.get_put_apart a v h]
  rfl

section Operands

variable (o : Operand)

/-- A decoder that follows another one and leaves its register alone stores what that one
does. -/
theorem Stores.andThen {r : Bool × Operand} {next : Operand → Bool × Operand}
    {register : Option (Access Nat)} (h : Stores r register)
    (hnext : ∀ o : Operand, argumentRegister (next o).2.argument = argumentRegister o.argument) :
    Stores (Operand.andThen r next) register := by
  unfold Operand.andThen
  split
  · exact (hnext r.2).trans h
  · exact h

/-- A register node stores the register it names, with the accesses of the node. -/
theorem decodeArgReg_stores (node : DbAny) :
    Stores (decodeArgReg db o node) (regArgument db o.internal.opcode node) := by
  have hargument : (decodeArgReg db o node).2.argument = (storeReg db o node).argument := by
    rw [decodeArgReg_eq]
    split
    · split <;> rfl
    · split <;> rfl
  have hvalue := storeReg_regValue db o node
  rw [Stores, argumentRegister, hargument, hvalue]
  rfl

/-- A shifter leaves the register it shifts alone, whether it decodes or not. -/
theorem decodeArgShifter_register (node : DbShifter) :
    argumentRegister (decodeArgShifter db o node).2.argument = argumentRegister o.argument := by
  unfold decodeArgShifter
  dsimp only
  cases decodeAny db o.internal.opcode node.shift with
  | none => rfl
  | some decoded =>
      cases node.amount with
      | none => rfl
      | some amount => cases amount <;> rfl

theorem decodeArgVreg_stores (node : DbAny) :
    Stores (decodeArgVreg db o node) (regArgument db o.internal.opcode node) :=
  (decodeArgReg_stores db o node).andThen fun _ => rfl

/-- A register with an element index stores its register before the index is decoded. -/
theorem decodeArgEreg_stores (node : DbEreg) :
    Stores (decodeArgEreg db o node) (regArgument db o.internal.opcode node.reg) := by
  refine (decodeArgReg_stores db o node.reg).andThen fun o => ?_
  cases decodeAny db o.internal.opcode node.idx with
  | none => rfl
  | some idx => exact argumentRegister_put o.argument _ (by decide)

/-- A register with a write-back is stored as a register. -/
theorem decodeArgWreg_stores (node : DbWreg) :
    Stores (decodeArgWreg db o node) (regArgument db o.internal.opcode node.reg) := by
  refine (decodeArgReg_stores db o node.reg).andThen fun o => ?_
  dsimp only
  split <;> rfl

theorem decodeArgRegsh_stores (node : DbOpsh) :
    Stores (decodeArgRegsh db o node) (regArgument db o.internal.opcode node.op) :=
  (decodeArgReg_stores db o node.op).andThen fun o => decodeArgShifter_register db o node.shifter

theorem decodeEncodedImm_type (node : DbAny) (value : BitVec 32) (nb : Nat) :
    (decodeEncodedImm o node value nb).2.argument.type = o.argument.type := by
  unfold decodeEncodedImm
  cases node.symbol <;> rfl

/-- An immediate is no register. -/
theorem decodeArgImm_stores (node : DbAny) : Stores (decodeArgImm db o node) none := by
  have htype : (decodeArgImm db o node).2.argument.type = .immediate := by
    unfold decodeArgImm
    dsimp only
    split
    · exact decodeEncodedImm_type _ node _ _
    · rfl
    · rfl
  exact argumentRegister_of_type (by rw [htype]; decide)

/-- The base of an operand is a register or an immediate. -/
theorem immReg_stores (node : DbImmReg) :
    Stores (decodeAnynymousImmreg db o node) (immRegArgument db o.internal.opcode node) := by
  cases node with
  | base node | regoff node => exact decodeArgReg_stores db o node
  | vbase node => exact decodeArgVreg_stores db o node
  | ebase node => exact decodeArgEreg_stores db o node
  | regoffsh node => exact decodeArgRegsh_stores db o node
  | immoff node => exact decodeArgImm_stores db o node
  | immoffsh node =>
      exact (decodeArgImm_stores db o node.op).andThen
        fun o => decodeArgShifter_register db o node.shifter

/-- A list replaces the register it is decoded from, where it can be decoded. -/
theorem Stores.replaced {r : Bool × Operand} {next : Operand → Bool × Operand}
    {register : Option (Access Nat)} (h : Stores r register)
    (hnext : ∀ o : Operand, argumentRegister (next o).2.argument =
      if (next o).1 then none else argumentRegister o.argument) :
    Stores (Operand.andThen r next) (if (Operand.andThen r next).1 then none else register) := by
  have hboth := hnext r.2
  rw [Stores] at h ⊢
  rw [h] at hboth
  unfold Operand.andThen
  cases hr : r.1 with
  | true =>
      rw [if_pos rfl]
      exact hboth
  | false =>
      rw [if_neg Bool.false_ne_true, hr, if_neg Bool.false_ne_true]
      exact h

/-- A list of floating-point registers replaces its base only where the whole list decodes. -/
theorem decodeArgFlist_stores (boundary : Nat) (f : Nat → Nat) (node : DbFlist) :
    Stores (decodeArgFlist db boundary f o node)
      (if decodes db o.internal.opcode (.fslist node) then none
        else regArgument db o.internal.opcode node.base) := by
  have hfst : (decodeArgFlist db boundary f o node).1 = decodes db o.internal.opcode (.fslist node) :=
    decodeArgFlist_fst db rfl boundary f node
  rw [← hfst]
  refine (decodeArgReg_stores db o node.base).replaced fun o => ?_
  cases decodeAny db o.internal.opcode node.count with
  | none => rfl
  | some count => exact argumentRegister_of_type fun h => ArgumentType.noConfusion h

/-- A list of vector registers replaces its base only where the whole list decodes. -/
theorem decodeArgVlist_stores (node : DbVlist) :
    Stores (decodeArgVlist db o node)
      (if decodes db o.internal.opcode (.vlist node) then none
        else immRegArgument db o.internal.opcode node.base) := by
  rw [← decodeArgVlist_fst db (o := o) rfl node]
  refine (immReg_stores db o node.base).replaced fun o => ?_
  cases decodeAny db o.internal.opcode node.count with
  | none => rfl
  | some count =>
      cases decodeAny db o.internal.opcode node.inc with
      | none => rfl
      | some inc => exact argumentRegister_of_type fun h => ArgumentType.noConfusion h

/-! ### Memory operands -/

/-- The offset is written to cells of its own. -/
theorem takeOffset_register (a : Argument) :
    argumentRegister (takeOffset a) = argumentRegister a := by
  unfold takeOffset
  split
  · rw [argumentRegister_put _ _ (by decide), argumentRegister_put _ _ (by decide)]
  · exact argumentRegister_put _ _ (by decide)

/-- An offset register is decoded into the operand, over the base register. -/
theorem decodeOffset_stores (node : DbMem) :
    argumentRegister (decodeOffset db o node).2.1.argument =
      offsetArgument db o.internal.opcode (argumentRegister o.argument) node := by
  unfold decodeOffset offsetArgument
  cases node.regoff with
  | none => rfl
  | some regoff =>
      have hadd := decodeOptional_isSome db (o := o) rfl node.add 1
      have hregoff := immReg_stores db o regoff
      rw [Stores] at hregoff
      dsimp only
      rw [← hadd]
      cases decodeOptional db o.internal.opcode node.add 1 with
      | none => rfl
      | some add =>
          rw [Option.isSome_some, if_pos rfl]
          dsimp only
          split
          · exact (takeOffset_register _).trans hregoff
          · exact hregoff

/-- Behind the base a memory operand leaves no register, or what its offset has left when it
fails. -/
theorem decodeBehindBase_register (node : DbMem) :
    argumentRegister (decodeBehindBase db node o).2.argument =
      if (decodeBehindBase db node o).1 then none
      else offsetArgument db o.internal.opcode (argumentRegister o.argument) node := by
  have hoffset := decodeOffset_stores db o node
  unfold decodeBehindBase
  dsimp only
  generalize decodeOffset db o node = r at hoffset
  obtain ⟨ok, o', add⟩ := r
  cases ok with
  | false => exact hoffset
  | true =>
      rw [if_pos rfl]
      cases decodeOptional db o'.internal.opcode node.align 0 with
      | none => exact hoffset
      | some align => exact argumentRegister_of_type fun h => ArgumentType.noConfusion h

/-- A memory operand replaces its base and offset registers only where all of it decodes. -/
theorem decodeArgMem_stores (node : DbMem) :
    Stores (decodeArgMem db o node)
      (if decodes db o.internal.opcode (.mem node) then none
        else memArgument db o.internal.opcode node) := by
  let cleared : Operand := { o with
    argument := ((((o.argument.put Cell.memRegoff Register.none).put Cell.memImmoffDatatype
      Datatype.none.code).put Cell.memImmoffValue 0).put Cell.memBroadcastingFrom 0).put
        Cell.memBroadcastingTo 0 }
  let behind (o : Operand) : Bool × Operand := decodeBehindBase db node
    { o with argument := o.argument.put Cell.memBase (o.argument.get Cell.regValue) }
  have hmem : decodeArgMem db o node =
      Operand.andThen (decodeAnynymousImmreg db cleared node.base) behind := rfl
  have hbase : argumentRegister (decodeAnynymousImmreg db cleared node.base).2.argument =
      immRegArgument db o.internal.opcode node.base := immReg_stores db cleared node.base
  have hfst : (decodeAnynymousImmreg db cleared node.base).1 =
      decodesImmReg db o.internal.opcode node.base := decodeAnynymousImmreg_fst db rfl node.base
  have hopcode : (decodeAnynymousImmreg db cleared node.base).2.internal.opcode =
      o.internal.opcode := (decodeAnynymousImmreg_touched db cleared node.base).opcode
  have hbehind (o : Operand) : argumentRegister (behind o).2.argument =
      if (behind o).1 then none
      else offsetArgument db o.internal.opcode (argumentRegister o.argument) node := by
    have h := decodeBehindBase_register db
      { o with argument := o.argument.put Cell.memBase (o.argument.get Cell.regValue) } node
    dsimp only at h
    rwa [argumentRegister_put o.argument _ (by decide)] at h
  rw [← decodeArgMem_fst db (o := o) rfl node, hmem, memArgument, ← hfst, Stores]
  generalize decodeAnynymousImmreg db cleared node.base = base at hbase hopcode
  obtain ⟨ok, o'⟩ := base
  cases ok with
  | false => exact hbase
  | true =>
      have h := hbehind o'
      rw [hopcode, hbase] at h
      exact h

/-! ### Enumerations -/

/-- The number in the first bytes of an enumeration. -/
theorem decodeArgEnum_regValue (type : EnumType) (node : DbAny) :
    (decodeArgEnum db o type node).2.argument.get Cell.regValue =
      if node.hasEncodedin then (rawValue db o.internal.opcode node).toNat % 2 ^ 16 else 0 := by
  let a : Argument := { o.argument.put Cell.imm 0 with datatype := .u8 }
  have htoken (a : Argument) (v : Nat) : (a.put Cell.token v).get Cell.regValue =
      a.get Cell.regValue := Argument.get_put_apart a v (by decide)
  refine (htoken _ _).trans ?_
  cases node.hasEncodedin with
  | true =>
      have hword := a.get_put Cell.immWord (rawValue db o.internal.opcode node).toNat
      refine (Store.read_low _ 0 2 2).trans ((congrArg (· % 256 ^ 2) hword).trans ?_)
      exact Nat.mod_mod_of_dvd _ (by decide)
  | false =>
      have hzero : a.get Cell.imm = 0 := o.argument.get_put Cell.imm 0
      exact (Store.read_low _ 0 2 6).trans (congrArg (· % 256 ^ 2) hzero)

theorem decodeArgEnum_write (type : EnumType) (node : DbAny) :
    (decodeArgEnum db o type node).2.argument.attributes.write = o.argument.attributes.write := by
  unfold decodeArgEnum
  dsimp only
  split <;> rfl

theorem argumentRegister_enum {a : Argument} {type : EnumType} {node : DbAny}
    (htype : a.type = type.argumentType)
    (hvalue : a.get Cell.regValue =
      if node.hasEncodedin then (rawValue db o.internal.opcode node).toNat % 2 ^ 16 else 0) :
    argumentRegister a =
      enumArgument db o.internal.opcode type node a.attributes.read a.attributes.write := by
  rw [argumentRegister, enumArgument, htype, hvalue]

/-- A system register whose value is in its table is stored as a register. -/
theorem decodeArgSysreg_stores (type : EnumType) (node : DbAny) :
    Stores (decodeArgSysreg db o type node) (sysregArgument db o.internal.opcode type node) := by
  have hvalue := decodeArgEnum_regValue db o type node
  have htype : (decodeArgEnum db o type node).2.argument.type = type.argumentType := rfl
  have htoken : (decodeArgEnum db o type node).2.argument.get Cell.token =
      (enumValue type node (rawValue db o.internal.opcode node)).1.toNat :=
    (Argument.get_put _ _ _).trans
      (Nat.mod_eq_of_lt (enumValue type node (rawValue db o.internal.opcode node)).1.isLt)
  have hnamed : (decodeArgEnum db o type node).2.argument.attributes.isRepresentable =
      (enumValue type node (rawValue db o.internal.opcode node)).2 := rfl
  have hsysreg : (decodeArgSysreg db o type node).2.argument =
      (let a := (decodeArgEnum db o type node).2.argument
       let a :=
        if a.attributes.isRepresentable then
          { a.put Cell.regValue (a.get Cell.token) with type := .register }
        else a
       { a with attributes.read := node.read, attributes.write := node.write }) := rfl
  rw [Stores, hsysreg, sysregArgument]
  dsimp only
  rw [hnamed]
  generalize (decodeArgEnum db o type node).2.argument = a at hvalue htype htoken
  cases (enumValue type node (rawValue db o.internal.opcode node)).2 with
  | true =>
      have hput := a.get_put Cell.regValue (a.get Cell.token)
      rw [htoken] at hput
      rw [htoken]
      exact congrArg (fun v => some (effective ⟨v, node.read, node.write⟩)) hput
  | false => exact argumentRegister_enum db o htype hvalue

/-- What a node leaves in its slot, by its kind and the word. -/
theorem decodeNode_stores (node : DbNode) :
    Stores (decodeNode db o node) (nodeRegister db o.internal.opcode node) := by
  let cleared : Operand := { o with argument := clearArgument o.argument }
  cases node with
  | reg node => exact decodeArgReg_stores db cleared node
  | vreg node => exact decodeArgVreg_stores db cleared node
  | ereg node => exact decodeArgEreg_stores db cleared node
  | wreg node => exact decodeArgWreg_stores db cleared node
  | regsh node => exact decodeArgRegsh_stores db cleared node
  | fslist node => exact decodeArgFlist_stores db cleared Register.d0 id node
  | fdlist node => exact decodeArgFlist_stores db cleared Register.q0 (· / 2) node
  | vlist node => exact decodeArgVlist_stores db cleared node
  | imm node => exact decodeArgImm_stores db cleared node
  | mem node => exact decodeArgMem_stores db cleared node
  | enum type node =>
      have hregister := argumentRegister_enum db cleared rfl
        (decodeArgEnum_regValue db cleared type node)
      rw [decodeArgEnum_write] at hregister
      exact hregister
  | sysreg type node => exact decodeArgSysreg_stores db cleared type node
  | label node =>
      change Stores (decodeArgLabel db cleared node) none
      unfold decodeArgLabel
      dsimp only
      split <;> exact argumentRegister_of_type fun h => ArgumentType.noConfusion h
  | iflags node =>
      change Stores (decodeArgIflags db cleared node) none
      unfold decodeArgIflags
      split
      · exact argumentRegister_of_type fun h => ArgumentType.noConfusion h
      · dsimp only
        split <;> exact argumentRegister_of_type fun h => ArgumentType.noConfusion h
  | slist _ | glist _ | xyz | other =>
      exact argumentRegister_of_type fun h => ArgumentType.noConfusion h

end Operands

/-! ## Nodes, templates and encodings -/

/-- What the loop over the nodes leaves, from slot `i` on. -/
def nodesLeave : List DbNode → Nat → Slots → Bool × Slots
  | [], i, l => (true, { l.store i none with count := i })
  | node :: nodes, i, l =>
      let l := l.store i (nodeRegister db opcode node)
      if decodes db opcode node then nodesLeave nodes (i + 1) l else (false, l)

def templateLeaves (inItBlock : Bool) (template : Nat) (l : Slots) : Bool × Slots :=
  if conditionsHold db opcode inItBlock template then
    nodesLeave db opcode (db.arguments (db.templates template).arguments) 0 l
  else (false, l)

def encodingLeaves (inItBlock : Bool) (encoding : Nat) (l : Slots) : Slots :=
  if opcode &&& (db.encodings encoding).mask = (db.encodings encoding).opcode then
    (tryEach (templateLeaves db opcode inItBlock) (candidates db (db.encodings encoding)) l).2
  else l

/-- A node writes to its own slot. -/
theorem afterNode_slots (s : Internal) (i : Nat) (node : DbNode) :
    slotsOf (afterNode db s i node).insn =
      (slotsOf s.insn).store i (nodeRegister db s.opcode node) := by
  have hstores := decodeNode_stores db ⟨s, s.insn.arguments i⟩ node
  have hframe := (decodeNode_touched db ⟨s, s.insn.arguments i⟩ node).frame
  have hslots : slotsOf (decodeNode db ⟨s, s.insn.arguments i⟩ node).2.internal.insn =
      slotsOf s.insn := by
    have hslots := congrArg (fun f : Internal => slotsOf f.insn) hframe
    exact hslots
  rw [Stores] at hstores
  dsimp only at hstores
  rw [← hstores, ← hslots]
  exact slotsOf_setArgument _ i _

/-- Over the nodes of a template the slots follow the table, up to the node that fails. -/
theorem decodeNodesFrom_slots (nodes : List DbNode) (i : Nat) (s : Internal) :
    nodesLeave db s.opcode nodes i (slotsOf s.insn) =
      ((decodeNodesFrom db nodes i s).1, slotsOf (decodeNodesFrom db nodes i s).2.insn) := by
  induction nodes generalizing i s with
  | nil =>
      have hstore := slotsOf_setArgument s.insn i { s.insn.arguments i with type := .none }
      have hregister : argumentRegister { s.insn.arguments i with type := .none } = none :=
        argumentRegister_of_type fun h => ArgumentType.noConfusion h
      rw [hregister] at hstore
      exact congrArg (fun l : Slots => (true, { l with count := i })) hstore.symm
  | cons node nodes ih =>
      have hnode := afterNode_slots db s i node
      have hopcode := (afterNode_fills db s i node).opcode
      rw [decodeNodesFrom_cons, nodesLeave, ← hnode]
      cases decodes db s.opcode node with
      | true => rw [if_pos rfl, if_pos rfl, ← ih, hopcode]
      | false => rfl

/-- The condition of an instruction leaves its arguments. -/
theorem leaveTemplate_slots (s : Internal) : slotsOf (leaveTemplate db s).insn = slotsOf s.insn := by
  have hexecution : slotsOf (decodeExecution db s).insn = slotsOf s.insn := by
    unfold decodeExecution
    split
    · rfl
    · split <;> rfl
  exact hexecution

/-- A template that is tried leaves its nodes' registers, even if it is given up. -/
theorem decodeTemplate_slots (template : Nat) (s : Internal) :
    templateLeaves db s.opcode (isInsnInItBlock s) template (slotsOf s.insn) =
      ((decodeTemplate db template s).1, slotsOf (decodeTemplate db template s).2.insn) := by
  have hnodes := decodeNodesFrom_slots db (db.arguments (db.templates template).arguments) 0
    (enterTemplate db template s)
  have hall := decodeNodesFrom_fst db (db.arguments (db.templates template).arguments) 0
    (enterTemplate db template s)
  rw [hall] at hnodes
  rw [decodeTemplate_fst, templateLeaves, decodeTemplate_eq, templateDecodes]
  cases conditionsHold db s.opcode (isInsnInItBlock s) template with
  | false => rfl
  | true =>
      rw [if_pos rfl, if_pos rfl, Bool.true_and]
      refine hnodes.trans (congrArg (Prod.mk _) ?_)
      split
      · exact (leaveTemplate_slots db _).symm
      · rfl

/-- All templates that an encoding tries leave their registers in the slots. -/
theorem decodeEncoding_slots (encoding : Nat) (s : Internal) :
    slotsOf (decodeEncoding db encoding s).2.insn =
      encodingLeaves db s.opcode (isInsnInItBlock s) encoding (slotsOf s.insn) := by
  rw [decodeEncoding, encodingLeaves]
  dsimp only
  by_cases hmatch : s.opcode &&& (db.encodings encoding).mask = (db.encodings encoding).opcode
  · rw [if_neg (not_not.mpr hmatch), if_pos hmatch]
    refine (congrArg Prod.snd (tryEach_view (fun s : Internal => slotsOf s.insn)
      (I := fun s' => s'.opcode = s.opcode ∧ isInsnInItBlock s' = isInsnInItBlock s)
      (fun t _ s' hs' => ?_) (fun t _ s' hs' hfst => ?_)
      (s := { s with encoding := encoding }) ⟨rfl, rfl⟩)).symm
    · rw [← hs'.1, ← hs'.2]
      exact decodeTemplate_slots db t s'
    · rw [decodeTemplate_fst] at hfst
      have hleaves := decodeTemplate_leaves db hfst
      exact ⟨hleaves.opcode.trans hs'.1, hleaves.inItBlock.trans hs'.2⟩
  · rw [if_pos hmatch, if_neg hmatch]
    rfl

/-! ## Instructions -/

section Steps

variable (ctx : Context) (stale : Internal) (insn : Insn)

/-- The registers among the arguments, behind the fetch. -/
def fetchedSlots (isa : Isa) (opcode : BitVec 32) : Slots :=
  let base := encodingLeaves db opcode ctx.itblock.isIn (db.lookup isa opcode) (slotsOf insn)
  match chosenAlias db ctx stale insn isa opcode with
  | none => base
  | some palias =>
      encodingLeaves db opcode (isInsnInItBlock (baseState db ctx stale insn isa opcode)) palias base

/-- The registers among the arguments of an accepted instruction. -/
def leftSlots : Slots :=
  match fetchOpcode ctx with
  | none => slotsOf insn
  | some (isa, opcode) => fetchedSlots db ctx stale insn isa opcode

/-- The slots of a fetched word, with the alias that is tried last. -/
theorem decodeFetched_slots (isa : Isa) (opcode : BitVec 32)
    (h : (decodeFetched db ctx stale insn isa opcode).1 = true) :
    slotsOf (decodeFetched db ctx stale insn isa opcode).2.insn =
      fetchedSlots db ctx stale insn isa opcode := by
  have hbase : slotsOf (baseState db ctx stale insn isa opcode).insn =
      encodingLeaves db opcode ctx.itblock.isIn (db.lookup isa opcode) (slotsOf insn) :=
    decodeEncoding_slots db (db.lookup isa opcode) (startState ctx stale insn isa opcode)
  have hdecodes : baseDecodes db ctx stale insn isa opcode = true := h
  rw [decodeFetched_eq, fetchedSlots, hdecodes, if_pos rfl, aliasStep_eq]
  cases chosenAlias db ctx stale insn isa opcode with
  | none => exact hbase
  | some palias =>
      have halias := decodeEncoding_slots db palias (baseState db ctx stale insn isa opcode)
      rw [hbase, baseState_opcode] at halias
      dsimp only
      rw [← halias]
      split <;> rfl

/-- The opcode and the tables tell the register arguments of an accepted instruction. -/
theorem decodeInsn_slots (h : (decodeInsn db ctx stale insn).1 = true) :
    slotsOf (decodeInsn db ctx stale insn).2.1 = leftSlots db ctx stale insn := by
  unfold decodeInsn at h ⊢
  unfold leftSlots
  split at h
  · cases h
  · rename_i hlength
    rw [if_neg hlength]
    cases hfetch : fetchOpcode ctx with
    | none =>
        rw [hfetch] at h
        cases h
    | some fetched =>
        obtain ⟨isa, opcode⟩ := fetched
        rw [hfetch] at h
        exact decodeFetched_slots db ctx stale insn isa opcode h

end Steps

end Amed.AArch32

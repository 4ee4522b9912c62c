import Amed.Library.LastWrite
import Amed.AArch32.Outcome

/-!
# Which AArch32 instructions are destructive

`decode_arg_reg` remembers the register that was written last in `dst_reg`, and sets
`is_destructive` where a register that is read is the one it remembers.

## Implementation notes

`dst_reg` and the two bits that depend on it are looked at beside the rest of the decoder, which
does not read them. They are kept from template to template, and in the alias step.
-/

namespace Amed.AArch32

open LastWrite Search

/-! ## The rest of the decoder -/

/-- The state with another tracker in it. -/
def Internal.track (s : Internal) (t : Tracker Nat) (c : Bool) : Internal :=
  { s with
    dstReg := t.last
    insn := { s.insn with attributes := { s.insn.attributes with
      isDestructive := t.seen
      isConstructive := c } } }

def Operand.track (o : Operand) (t : Tracker Nat) (c : Bool) : Operand :=
  { o with internal := o.internal.track t c }

/-- `Follows.next_nil` for operands. -/
theorem follows_andThen {f next : Operand → Bool × Operand} {o : Operand}
    {as : List (Access Nat)} (hf : Follows Operand.track f o as)
    (hnext : Follows Operand.track next (f o).2 []) :
    Follows Operand.track (fun o => Operand.andThen (f o) next) o as :=
  hf.next_nil hnext

/-! ## The accesses -/

variable (db : Db) (opcode : BitVec 32)

/-- What `decode_arg_reg` accesses. -/
def regAccesses (node : DbAny) : List (Access Nat) :=
  if decodesReg db opcode node then
    [⟨(registerOf db opcode node).1 % 2 ^ 16, node.read, node.write⟩]
  else []

def immRegAccesses : DbImmReg → List (Access Nat)
  | .base node | .vbase node | .regoff node => regAccesses db opcode node
  | .ebase node => regAccesses db opcode node.reg
  | .regoffsh node => regAccesses db opcode node.op
  | .immoff _ | .immoffsh _ => []

/-- The accesses of the offset of a memory operand. -/
def offsetAccesses (node : DbMem) : List (Access Nat) :=
  if node.add.all (decodesAny db opcode) then
    (node.regoff.map (immRegAccesses db opcode)).getD []
  else []

def memAccesses (node : DbMem) : List (Access Nat) :=
  immRegAccesses db opcode node.base ++
    if decodesImmReg db opcode node.base then offsetAccesses db opcode node else []

/-- What decoding a node accesses. -/
def nodeAccesses : DbNode → List (Access Nat)
  | .reg node | .vreg node => regAccesses db opcode node
  | .ereg node => regAccesses db opcode node.reg
  | .wreg node => regAccesses db opcode node.reg
  | .regsh node => regAccesses db opcode node.op
  | .fslist node | .fdlist node => regAccesses db opcode node.base
  | .vlist node => immRegAccesses db opcode node.base
  | .mem node => memAccesses db opcode node
  | _ => []

/-- The nodes of a template, up to one that fails. -/
def nodesAccesses : List DbNode → List (Access Nat) :=
  accessesUpTo (nodeAccesses db opcode) fun node => !decodes db opcode node

def templateAccesses (inItBlock : Bool) (template : Nat) : List (Access Nat) :=
  if conditionsHold db opcode inItBlock template then
    nodesAccesses db opcode (db.arguments (db.templates template).arguments)
  else []

/-- The templates of an encoding, up to one that is decoded. -/
def encodingAccesses (inItBlock : Bool) (encoding : Nat) : List (Access Nat) :=
  if opcode &&& (db.encodings encoding).mask = (db.encodings encoding).opcode then
    accessesUpTo (templateAccesses db opcode inItBlock) (templateDecodes db opcode inItBlock)
      (candidates db (db.encodings encoding))
  else []

/-! ## Operands -/

/-- The end of a register operand is one access of the tracker. -/
theorem finishReg_track (o : Operand) (node : DbAny) (t : Tracker Nat) (c : Bool) :
    finishReg (o.track t c) node = (finishReg o node).track
      (t.access ⟨o.argument.get Cell.regValue, node.read, node.write⟩) c := rfl

theorem markPc_track (o : Operand) (node : DbAny) (t : Tracker Nat) (c : Bool) :
    (o.track t c).mark (markPc node) = (o.mark (markPc node)).track t c := by
  unfold markPc Operand.mark
  cases node.iwb || node.erb <;> cases node.write <;> rfl

/-- The operand `decode_arg_reg` has filled before it looks at the register. -/
def storeReg (db : Db) (o : Operand) (node : DbAny) : Operand :=
  let value := registerOf db o.internal.opcode node
  let o := o.mark fun a => { a with isUnpredictable := a.isUnpredictable || value.2.2 }
  { o with argument := { o.argument.put Cell.regValue value.1 with
    type := .register
    size := value.2.1.size
    numberOfElements := 1
    datatype := if node.datatype ≠ .none then node.datatype else value.2.1.datatype
    printer.printDatatype := node.dtRequired
    attributes.read := node.read
    attributes.write := node.write } }

/-- A register operand stores its register and stops there if the node excludes it. -/
theorem decodeArgReg_eq (o : Operand) (node : DbAny) :
    decodeArgReg db o node =
      if (registerOf db o.internal.opcode node).1 = Register.pc then
        if node.nopc then (false, storeReg db o node)
        else (true, finishReg ((storeReg db o node).mark (markPc node)) node)
      else if (registerOf db o.internal.opcode node).1 = Register.sp ∧ node.nosp = true then
        (false, storeReg db o node)
      else (true, finishReg (storeReg db o node) node) := rfl

theorem storeReg_track (o : Operand) (node : DbAny) (t : Tracker Nat) (c : Bool) :
    storeReg db (o.track t c) node = (storeReg db o node).track t c := rfl

theorem storeReg_regValue (o : Operand) (node : DbAny) :
    (storeReg db o node).argument.get Cell.regValue =
      (registerOf db o.internal.opcode node).1 % 2 ^ 16 :=
  Argument.get_put _ _ _

/-- A register operand makes the access of its node. -/
theorem decodeArgReg_follows (o : Operand) (node : DbAny) :
    Follows Operand.track (decodeArgReg db · node) o (regAccesses db o.internal.opcode node) := by
  intro t c
  have hvalue := storeReg_regValue db o node
  have hopcode : (o.track t c).internal.opcode = o.internal.opcode := rfl
  dsimp only
  rw [decodeArgReg_eq db, decodeArgReg_eq db, hopcode, storeReg_track db, regAccesses, decodesReg]
  by_cases hpc : (registerOf db o.internal.opcode node).1 = Register.pc
  · rw [if_pos hpc, if_pos hpc, if_pos hpc]
    cases node.nopc with
    | true => rfl
    | false =>
        rw [if_neg Bool.false_ne_true, if_neg Bool.false_ne_true, markPc_track, finishReg_track]
        rw [Operand.mark, hvalue]
        rfl
  · rw [if_neg hpc, if_neg hpc, if_neg hpc]
    by_cases hsp : (registerOf db o.internal.opcode node).1 = Register.sp ∧ node.nosp = true
    · rw [if_pos hsp, if_pos hsp]
      simp [hsp]
    · have hallowed : (!(decide ((registerOf db o.internal.opcode node).1 = Register.sp) &&
          node.nosp)) = true := by
        rwa [Bool.not_eq_true', ← Bool.not_eq_true, Bool.and_eq_true, decide_eq_true_eq]
      rw [if_neg hsp, if_neg hsp, finishReg_track, hvalue, if_pos hallowed]
      rfl

theorem decodeArgVreg_follows (o : Operand) (node : DbAny) :
    Follows Operand.track (decodeArgVreg db · node) o (regAccesses db o.internal.opcode node) :=
  follows_andThen (decodeArgReg_follows db o node) fun _ _ => rfl

theorem Operand.track_opcode (o : Operand) (t : Tracker Nat) (c : Bool) :
    (o.track t c).internal.opcode = o.internal.opcode := rfl

theorem decodeArgEreg_follows (o : Operand) (node : DbEreg) :
    Follows Operand.track (decodeArgEreg db · node) o
      (regAccesses db o.internal.opcode node.reg) := by
  apply follows_andThen (decodeArgReg_follows db o node.reg)
  intro t c
  dsimp only
  rw [Operand.track_opcode]
  cases decodeAny db (decodeArgReg db o node.reg).2.internal.opcode node.idx <;> rfl

theorem decodeArgWreg_follows (o : Operand) (node : DbWreg) :
    Follows Operand.track (decodeArgWreg db · node) o
      (regAccesses db o.internal.opcode node.reg) := by
  apply follows_andThen (decodeArgReg_follows db o node.reg)
  intro t c
  have hargument (o : Operand) : (o.track t c).argument = o.argument := rfl
  dsimp only
  rw [Operand.track_opcode, hargument]
  split <;> rfl

/-- A shifter makes no access. -/
theorem decodeArgShifter_follows (o : Operand) (node : DbShifter) :
    Follows Operand.track (decodeArgShifter db · node) o [] := by
  intro t c
  unfold decodeArgShifter
  dsimp only
  rw [Operand.track_opcode]
  cases decodeAny db o.internal.opcode node.shift <;> rfl

theorem decodeArgRegsh_follows (o : Operand) (node : DbOpsh) :
    Follows Operand.track (decodeArgRegsh db · node) o (regAccesses db o.internal.opcode node.op) :=
  follows_andThen (decodeArgReg_follows db o node.op) (decodeArgShifter_follows db _ _)

theorem decodeEncodedImm_follows (o : Operand) (node : DbAny) (value : BitVec 32) (nb : Nat) :
    Follows Operand.track (decodeEncodedImm · node value nb) o [] := by
  intro t c
  unfold decodeEncodedImm
  cases node.symbol <;> rfl

theorem decodeArgImm_follows (o : Operand) (node : DbAny) :
    Follows Operand.track (decodeArgImm db · node) o [] := by
  intro t c
  unfold decodeArgImm
  dsimp only
  rw [Operand.track_opcode]
  cases decodeAny db o.internal.opcode node with
  | none => rfl
  | some decoded =>
      obtain ⟨definition, value, nb⟩ := decoded
      cases definition with
      | encodedin =>
          exact decodeEncodedImm_follows
            { o with argument := { o.argument.put Cell.imm 0 with type := .immediate } }
            node value nb t c
      | value | table => rfl

theorem decodeArgImmsh_follows (o : Operand) (node : DbOpsh) :
    Follows Operand.track (decodeArgImmsh db · node) o [] :=
  follows_andThen (decodeArgImm_follows db o node.op) (decodeArgShifter_follows db _ _)

theorem decodeArgLabel_follows (o : Operand) (node : DbAny) :
    Follows Operand.track (decodeArgLabel db · node) o [] := by
  intro t c
  unfold decodeArgLabel
  dsimp only
  rw [Operand.track_opcode]
  cases labelOffset node (readEncodedinValue (db.encodedins node.encodedin) o.internal.opcode).1
    (readEncodedinValue (db.encodedins node.encodedin) o.internal.opcode).2 <;> rfl

theorem decodeAnynymousImmreg_follows (o : Operand) (node : DbImmReg) :
    Follows Operand.track (decodeAnynymousImmreg db · node) o
      (immRegAccesses db o.internal.opcode node) := by
  cases node with
  | base node => exact decodeArgReg_follows db o node
  | vbase node => exact decodeArgVreg_follows db o node
  | ebase node => exact decodeArgEreg_follows db o node
  | regoff node => exact decodeArgReg_follows db o node
  | regoffsh node => exact decodeArgRegsh_follows db o node
  | immoff node => exact decodeArgImm_follows db o node
  | immoffsh node => exact decodeArgImmsh_follows db o node

/-- The accesses of an offset are made after its sign is decoded. -/
theorem decodeOffset_follows (o : Operand) (node : DbMem) (t : Tracker Nat) (c : Bool) :
    decodeOffset db (o.track t c) node = ((decodeOffset db o node).1,
      (decodeOffset db o node).2.1.track (t.run
        (if node.add.all (decodesAny db o.internal.opcode) then
          (node.regoff.map (immRegAccesses db o.internal.opcode)).getD [] else [])) c,
      (decodeOffset db o node).2.2) := by
  unfold decodeOffset
  cases node.regoff with
  | none =>
      dsimp only
      rw [Option.map_none, Option.getD_none, ite_self, Tracker.run_nil]
  | some regoff =>
      have hadd := decodeOptional_isSome db (o := o) rfl node.add 1
      have hfollows := decodeAnynymousImmreg_follows db o regoff t c
      dsimp only at hfollows ⊢
      rw [Operand.track_opcode, hfollows, ← hadd, Option.map_some, Option.getD_some]
      cases decodeOptional db o.internal.opcode node.add 1 with
      | none => rfl
      | some add =>
          cases (decodeAnynymousImmreg db o regoff).1 <;> rfl

theorem decodeMemAccess_track (access : MemAccess) (a : InsnAttributes) (seen c : Bool) :
    decodeMemAccess access { a with isDestructive := seen, isConstructive := c } =
      { decodeMemAccess access a with isDestructive := seen, isConstructive := c } := by
  cases access <;> rfl

theorem finishMem_track (o : Operand) (node : DbMem) (add align : BitVec 32) (t : Tracker Nat)
    (c : Bool) :
    finishMem (o.track t c) node add align = (finishMem o node add align).track t c := by
  have hldacc := decodeMemAccess_track node.ldacc { o.internal.insn.attributes with
    mayLoad := o.internal.insn.attributes.mayLoad || node.read
    mayStore := o.internal.insn.attributes.mayStore || node.write } t.seen c
  have hstacc := decodeMemAccess_track node.stacc (decodeMemAccess node.ldacc
    { o.internal.insn.attributes with
      mayLoad := o.internal.insn.attributes.mayLoad || node.read
      mayStore := o.internal.insn.attributes.mayStore || node.write }) t.seen c
  rw [← hldacc] at hstacc
  unfold finishMem Operand.mark Operand.track Internal.track
  dsimp only
  rw [← hstacc]

/-- `decode_arg_mem`, behind the base. -/
def decodeBehindBase (db : Db) (node : DbMem) (o : Operand) : Bool × Operand :=
  let r := decodeOffset db o node
  if r.1 then
    match decodeOptional db r.2.1.internal.opcode node.align 0 with
    | none => (false, r.2.1)
    | some align => (true, finishMem r.2.1 node r.2.2 align)
  else (false, r.2.1)

theorem decodeBehindBase_follows (o : Operand) (node : DbMem) :
    Follows Operand.track (decodeBehindBase db node) o
      (offsetAccesses db o.internal.opcode node) := by
  intro t c
  have hoffset := decodeOffset_follows db o node t c
  rw [← offsetAccesses] at hoffset
  rw [decodeBehindBase, decodeBehindBase, hoffset]
  dsimp only
  rw [Operand.track_opcode]
  cases (decodeOffset db o node).1 with
  | false => rfl
  | true =>
      rw [if_pos rfl, if_pos rfl]
      cases decodeOptional db (decodeOffset db o node).2.1.internal.opcode node.align 0 with
      | none => rfl
      | some align =>
          dsimp only
          rw [finishMem_track]

/-- A memory operand makes the accesses of its base, then those of its offset. -/
theorem decodeArgMem_follows (o : Operand) (node : DbMem) :
    Follows Operand.track (decodeArgMem db · node) o (memAccesses db o.internal.opcode node) := by
  intro t c
  let cleared : Operand :=
    { o with
      argument := ((((o.argument.put Cell.memRegoff Register.none).put Cell.memImmoffDatatype
        Datatype.none.code).put Cell.memImmoffValue 0).put Cell.memBroadcastingFrom 0).put
          Cell.memBroadcastingTo 0 }
  have hopcode := (decodeAnynymousImmreg_touched db cleared node.base).opcode
  have hbase := decodeAnynymousImmreg_follows db cleared node.base
  have hfst : (decodeAnynymousImmreg db cleared node.base).1 =
      decodesImmReg db o.internal.opcode node.base :=
    decodeAnynymousImmreg_fst db rfl node.base
  have hnext : Follows Operand.track (fun o => decodeBehindBase db node
      { o with argument := o.argument.put Cell.memBase (o.argument.get Cell.regValue) })
      (decodeAnynymousImmreg db cleared node.base).2
      (offsetAccesses db o.internal.opcode node) := by
    intro t c
    have hbehind := decodeBehindBase_follows db
      { (decodeAnynymousImmreg db cleared node.base).2 with
        argument := (decodeAnynymousImmreg db cleared node.base).2.argument.put Cell.memBase
          ((decodeAnynymousImmreg db cleared node.base).2.argument.get Cell.regValue) } node t c
    dsimp only at hbehind
    rw [hopcode] at hbehind
    exact hbehind
  have hboth := hbase.next hnext t c
  rw [hfst] at hboth
  exact hboth

theorem decodeArgIflags_follows (o : Operand) (node : DbAny) :
    Follows Operand.track (decodeArgIflags db · node) o [] := by
  intro t c
  unfold decodeArgIflags
  dsimp only
  rw [Operand.track_opcode]
  cases decodeAny db o.internal.opcode node with
  | none => rfl
  | some decoded =>
      dsimp only
      split <;> rfl

/-- A list of floating-point registers makes the access of its base only. -/
theorem decodeArgFlist_follows (boundary : Nat) (f : Nat → Nat) (o : Operand) (node : DbFlist) :
    Follows Operand.track (decodeArgFlist db boundary f · node) o
      (regAccesses db o.internal.opcode node.base) := by
  apply follows_andThen (decodeArgReg_follows db o node.base)
  intro t c
  dsimp only
  rw [Operand.track_opcode]
  cases decodeAny db (decodeArgReg db o node.base).2.internal.opcode node.count <;> rfl

theorem decodeArgVlist_follows (o : Operand) (node : DbVlist) :
    Follows Operand.track (decodeArgVlist db · node) o
      (immRegAccesses db o.internal.opcode node.base) := by
  apply follows_andThen (decodeAnynymousImmreg_follows db o node.base)
  intro t c
  dsimp only
  rw [Operand.track_opcode]
  cases decodeAny db (decodeAnynymousImmreg db o node.base).2.internal.opcode node.count with
  | none => rfl
  | some count =>
      cases decodeAny db (decodeAnynymousImmreg db o node.base).2.internal.opcode node.inc <;> rfl

/-- Every node makes the accesses that the table and the word give for it. -/
theorem decodeNode_follows (o : Operand) (node : DbNode) :
    Follows Operand.track (decodeNode db · node) o (nodeAccesses db o.internal.opcode node) := by
  intro t c
  let cleared : Operand := { o with argument := clearArgument o.argument }
  cases node with
  | reg node => exact decodeArgReg_follows db cleared node t c
  | vreg node => exact decodeArgVreg_follows db cleared node t c
  | ereg node => exact decodeArgEreg_follows db cleared node t c
  | wreg node => exact decodeArgWreg_follows db cleared node t c
  | regsh node => exact decodeArgRegsh_follows db cleared node t c
  | fslist node => exact decodeArgFlist_follows db Register.d0 id cleared node t c
  | fdlist node => exact decodeArgFlist_follows db Register.q0 (· / 2) cleared node t c
  | vlist node => exact decodeArgVlist_follows db cleared node t c
  | imm node => exact decodeArgImm_follows db cleared node t c
  | label node => exact decodeArgLabel_follows db cleared node t c
  | mem node => exact decodeArgMem_follows db cleared node t c
  | iflags node => exact decodeArgIflags_follows db cleared node t c
  | xyz | enum _ _ | sysreg _ _ | slist _ | glist _ | other => rfl

/-! ## Nodes, templates and encodings -/

/-- The nodes of a template make their accesses in order, up to the one that fails. -/
theorem decodeNodesFrom_follows (nodes : List DbNode) (i : Nat) (s : Internal) (t : Tracker Nat)
    (c : Bool) :
    decodeNodesFrom db nodes i (s.track t c) = ((decodeNodesFrom db nodes i s).1,
      (decodeNodesFrom db nodes i s).2.track (t.run (nodesAccesses db s.opcode nodes)) c) := by
  induction nodes generalizing i s t with
  | nil => rfl
  | cons node nodes ih =>
      have hnode := decodeNode_follows db ⟨s, s.insn.arguments i⟩ node t c
      have hopcode := (decodeNode_touched db ⟨s, s.insn.arguments i⟩ node).opcode
      have hfst := decodeNode_fst db (o := ⟨s, s.insn.arguments i⟩) rfl node
      have hstart : (⟨s.track t c, (s.track t c).insn.arguments i⟩ : Operand) =
          Operand.track ⟨s, s.insn.arguments i⟩ t c := rfl
      dsimp only at hnode hopcode
      rw [decodeNodesFrom, decodeNodesFrom, hstart, hnode, nodesAccesses, accessesUpTo, ← hfst]
      dsimp only
      have hstore (o : Operand) (t : Tracker Nat) :
          { (o.track t c).internal with
            insn := (o.track t c).internal.insn.setArgument i (o.track t c).argument } =
          ({ o.internal with insn := o.internal.insn.setArgument i o.argument } : Internal).track
            t c := rfl
      rw [hstore]
      cases (decodeNode db ⟨s, s.insn.arguments i⟩ node).1 with
      | true =>
          rw [if_pos rfl, if_pos rfl, Bool.not_true, if_neg Bool.false_ne_true, ih,
            Tracker.run_append]
          dsimp only
          rw [hopcode]
          rfl
      | false =>
          rw [if_neg Bool.false_ne_true, if_neg Bool.false_ne_true, Bool.not_false, if_pos rfl,
            List.append_nil]

theorem decodeExecution_track (s : Internal) (t : Tracker Nat) (c : Bool) :
    decodeExecution db (s.track t c) = (decodeExecution db s).track t c := by
  have harm : (s.track t c).isArm = s.isArm := rfl
  have htemplate : (s.track t c).ptemplate = s.ptemplate := rfl
  unfold decodeExecution
  rw [harm, htemplate]
  split
  · rfl
  · split <;> rfl

theorem enteredNodes_track (template : Nat) (s : Internal) (t : Tracker Nat) (c : Bool) :
    enteredNodes db template (s.track t c) = ((enteredNodes db template s).1,
      (enteredNodes db template s).2.track (t.run (nodesAccesses db s.opcode
        (db.arguments (db.templates template).arguments))) c) :=
  decodeNodesFrom_follows db _ 0 (enterTemplate db template s) t c

/-- Behind a template `is_constructive` depends on the tracker as well. -/
theorem decodeTemplate_follows (template : Nat) (s : Internal) :
    FollowsUp Internal.track (decodeTemplate db template) s
      (templateAccesses db s.opcode (isInsnInItBlock s) template) := by
  intro t c
  have hopcode : (s.track t c).opcode = s.opcode := rfl
  have hin : isInsnInItBlock (s.track t c) = isInsnInItBlock s := rfl
  rw [decodeTemplate_eq, decodeTemplate_eq, hopcode, hin, templateAccesses]
  split
  · rw [enteredNodes_track db]
    split
    · dsimp only
      rw [leaveTemplate, decodeExecution_track db]
      exact ⟨_, rfl⟩
    · exact ⟨c, rfl⟩
  · exact ⟨c, rfl⟩

/-- The templates of an encoding make the accesses of all that are tried. -/
theorem tryTemplates_follows (templates : List Nat) (s : Internal) :
    FollowsUp Internal.track (tryEach (decodeTemplate db) templates) s
      (accessesUpTo (templateAccesses db s.opcode (isInsnInItBlock s))
        (templateDecodes db s.opcode (isInsnInItBlock s)) templates) := by
  refine followsUp_tryEach
    (I := fun s' => s'.opcode = s.opcode ∧ isInsnInItBlock s' = isInsnInItBlock s)
    (fun template s' hs' => ?_) (fun template s' hs' hfst => ?_) (fun template s' hs' => ?_)
    ⟨rfl, rfl⟩
  · rw [decodeTemplate_fst, hs'.1, hs'.2]
  · rw [← hs'.1, ← hs'.2] at hfst
    have hleaves := decodeTemplate_leaves db hfst
    exact ⟨hleaves.opcode.trans hs'.1, hleaves.inItBlock.trans hs'.2⟩
  · rw [← hs'.1, ← hs'.2]
    exact decodeTemplate_follows db template s'

/-- An encoding makes the accesses of the templates that it tries. -/
theorem decodeEncoding_follows (encoding : Nat) (s : Internal) :
    FollowsUp Internal.track (decodeEncoding db encoding) s
      (encodingAccesses db s.opcode (isInsnInItBlock s) encoding) := by
  intro t c
  have hopcode : (s.track t c).opcode = s.opcode := rfl
  rw [decodeEncoding, decodeEncoding, encodingAccesses]
  dsimp only
  rw [hopcode]
  by_cases hmatch : s.opcode &&& (db.encodings encoding).mask = (db.encodings encoding).opcode
  · rw [if_neg (not_not.mpr hmatch), if_neg (not_not.mpr hmatch), if_pos hmatch]
    exact tryTemplates_follows db _ { s with encoding := encoding } t c
  · rw [if_pos hmatch, if_pos hmatch, if_neg hmatch]
    exact ⟨c, rfl⟩

/-! ## Instructions -/

section Steps

variable (ctx : Context) (stale : Internal) (insn : Insn)

/-- What the alias step accesses behind a base decode. -/
def aliasAccesses (encoding : Nat) (s : Internal) : List (Access Nat) :=
  if wantsAlias db ctx encoding s then
    match selectAlias db s encoding with
    | none => []
    | some palias => encodingAccesses db s.opcode (isInsnInItBlock s) palias
  else []

/-- The step to the alias decodes the operands again, and makes the accesses again. -/
theorem aliasStep_follows (encoding : Nat) (s : Internal) (t : Tracker Nat) (c : Bool) :
    ∃ c', aliasStep db ctx encoding (s.track t c) =
      (aliasStep db ctx encoding s).track (t.run (aliasAccesses db ctx encoding s)) c' := by
  have hwants : wantsAlias db ctx encoding (s.track t c) = wantsAlias db ctx encoding s := rfl
  have hselect : selectAlias db (s.track t c) encoding = selectAlias db s encoding := rfl
  rw [aliasStep, aliasStep, aliasAccesses, hwants]
  split
  · rw [decodeAlias, decodeAlias, hselect]
    cases selectAlias db s encoding with
    | none => exact ⟨c, rfl⟩
    | some palias =>
        obtain ⟨c', hdecode⟩ := decodeEncoding_follows db palias s t c
        dsimp only
        rw [hdecode]
        refine ⟨c', ?_⟩
        dsimp only
        split <;> rfl
  · exact ⟨c, rfl⟩

/-- All that decoding an instruction accesses. -/
def fetchedAccesses (isa : Isa) (opcode : BitVec 32) : List (Access Nat) :=
  encodingAccesses db opcode ctx.itblock.isIn (db.lookup isa opcode) ++
    aliasAccesses db ctx (db.lookup isa opcode) (baseState db ctx stale insn isa opcode)

def insnAccesses : List (Access Nat) :=
  match fetchOpcode ctx with
  | none => []
  | some (isa, opcode) => fetchedAccesses db ctx stale insn isa opcode

/-- The record that is not initialised, with a register in `dst_reg`. -/
def Internal.withDst (s : Internal) (register : Nat) : Internal := { s with dstReg := register }

theorem decodeFetched_follows (isa : Isa) (opcode : BitVec 32) (register : Nat)
    (h : (decodeFetched db ctx stale insn isa opcode).1 = true) :
    ∃ c, decodeFetched db ctx (stale.withDst register) insn isa opcode =
      (true, (decodeFetched db ctx stale insn isa opcode).2.track
        (Tracker.run ⟨register, false⟩ (fetchedAccesses db ctx stale insn isa opcode)) c) := by
  have hstart : startState ctx (stale.withDst register) insn isa opcode =
      (startState ctx stale insn isa opcode).track ⟨register, false⟩ false := rfl
  obtain ⟨c, hbase⟩ := decodeEncoding_follows db (db.lookup isa opcode)
    (startState ctx stale insn isa opcode) ⟨register, false⟩ false
  have hfst : (decodeEncoding db (db.lookup isa opcode)
      (startState ctx stale insn isa opcode)).1 = true := h
  obtain ⟨c', hstep⟩ := aliasStep_follows db ctx (db.lookup isa opcode)
    (baseState db ctx stale insn isa opcode) (Tracker.run ⟨register, false⟩
      (encodingAccesses db opcode ctx.itblock.isIn (db.lookup isa opcode))) c
  refine ⟨c', ?_⟩
  rw [decodeFetched, decodeFetched, hstart, hbase, hfst, if_pos rfl, if_pos rfl, fetchedAccesses,
    Tracker.run_append]
  exact Prod.ext rfl hstep

/-- The register in `dst_reg` makes a difference to what is seen only. -/
theorem decodeInsn_follows (register : Nat) (h : (decodeInsn db ctx stale insn).1 = true) :
    ∃ c, decodeInsn db ctx (stale.withDst register) insn =
      (true, { (decodeInsn db ctx stale insn).2.1 with
        attributes := { (decodeInsn db ctx stale insn).2.1.attributes with
          isDestructive :=
            (Tracker.run ⟨register, false⟩ (insnAccesses db ctx stale insn)).seen
          isConstructive := c } }, (decodeInsn db ctx stale insn).2.2) := by
  unfold decodeInsn at h ⊢
  unfold insnAccesses
  split at h
  · cases h
  · rename_i hlength
    rw [if_neg hlength, if_neg hlength]
    cases hfetch : fetchOpcode ctx with
    | none =>
        rw [hfetch] at h
        cases h
    | some fetched =>
        obtain ⟨isa, opcode⟩ := fetched
        rw [hfetch] at h
        obtain ⟨c, hfollows⟩ := decodeFetched_follows db ctx stale insn isa opcode register h
        refine ⟨c, ?_⟩
        dsimp only
        rw [hfollows]
        rfl

end Steps

end Amed.AArch32

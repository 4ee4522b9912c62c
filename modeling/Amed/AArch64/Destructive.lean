import Amed.Library.LastWrite
import Amed.AArch64.Outcome

/-!
# Which AArch64 instructions are destructive

`decode_arg_reg` of the AArch64 decoder sets `is_destructive` in the way of the AArch32 one. Its
`dst_reg` is initialised, to no register.

## Implementation notes

The local argument of `decode_arg_mem` is decoded with the same tracker.
-/

namespace Amed.AArch64

open LastWrite Search

/-! ## The rest of the decoder -/

/-- The state with another tracker in it. -/
def Internal.track (s : Internal) (t : Tracker Nat) (c : Bool) : Internal :=
  { s with
    dstReg := t.last
    insn := { s.insn with attributes := { s.insn.attributes with
      isDestructive := t.seen
      isConstructive := c } } }

def Operand.track (o : Operand) (t : Tracker Nat) (c : Bool) : Operand :=
  { o with internal := o.internal.track t c }

theorem Operand.track_opcode (o : Operand) (t : Tracker Nat) (c : Bool) :
    (o.track t c).internal.opcode = o.internal.opcode := rfl

/-- `Follows.next_nil` for operands. -/
theorem follows_andThen {f next : Operand → Bool × Operand} {o : Operand}
    {as : List (Access Nat)} (hf : Follows Operand.track f o as)
    (hnext : Follows Operand.track next (f o).2 []) :
    Follows Operand.track (fun o => Operand.andThen (f o) next) o as :=
  hf.next_nil hnext

/-! ## The accesses -/

variable (db : Db) (opcode : BitVec 32)

/-- What `decode_arg_reg` accesses. -/
def regAccesses (node : DbAny) : List (Access Nat) :=
  [⟨(registerOf db opcode node).1 % 2 ^ 16, node.read, node.write⟩]

def immRegAccesses : DbImmReg → List (Access Nat)
  | .base node => regAccesses db opcode node.reg
  | .offset (.regoff node) => regAccesses db opcode node
  | .offset (.vregoff node) => regAccesses db opcode node.reg
  | .offset (.regoffsh node) => regAccesses db opcode node.op
  | .offset (.vregoffsh node) => regAccesses db opcode node.op.reg
  | .offset (.immoff _) | .offset (.immoffsh _) => []

/-- The accesses of the base and the offset of a memory operand. -/
def memAccesses (node : DbMem) : List (Access Nat) :=
  immRegAccesses db opcode (.base node.base) ++
    if decodesImmReg db opcode (.base node.base) then
      (node.regoff.map fun regoff => immRegAccesses db opcode (.offset regoff)).getD []
    else []

/-- What decoding a node accesses. -/
def nodeAccesses : DbNode → List (Access Nat)
  | .reg node | .preg node => regAccesses db opcode node
  | .regsh node => regAccesses db opcode node.op
  | .vreg node | .ereg node => regAccesses db opcode node.reg
  | .vlist node | .elist node => immRegAccesses db opcode (.base node.base)
  | .mem node => memAccesses db opcode node
  | _ => []

/-- The nodes of a template, up to one that fails. -/
def nodesAccesses : List DbNode → List (Access Nat) :=
  accessesUpTo (nodeAccesses db opcode) fun node => !decodes db opcode node

def templateAccesses (template : Nat) : List (Access Nat) :=
  if conditionsHold db opcode template then
    nodesAccesses db opcode (db.arguments (db.templates template).arguments)
  else []

/-- The templates of an encoding, up to one that is decoded. -/
def encodingAccesses (encoding : Nat) : List (Access Nat) :=
  if opcode &&& (db.encodings encoding).mask = (db.encodings encoding).opcode then
    accessesUpTo (templateAccesses db opcode) (templateDecodes db opcode)
      (candidates db (db.encodings encoding))
  else []

/-! ## Operands -/

/-- A register operand makes the access of its node. -/
theorem decodeArgReg_follows (o : Operand) (node : DbAny) :
    Follows Operand.track (decodeArgReg db · node) o (regAccesses db o.internal.opcode node) := by
  intro t c
  have hvalue := get_decodeArgReg db o node
  have hregister : (registerOf db o.internal.opcode node).1 % 256 ^ 2 =
      (registerOf db o.internal.opcode node).1 % 2 ^ 16 := rfl
  have hwritten : decodeArgReg db (o.track t c) node = (true, (decodeArgReg db o node).2.track
      (t.access ⟨(decodeArgReg db o node).2.argument.get Cell.regValue, node.read, node.write⟩)
        c) := rfl
  dsimp only
  rw [hwritten, hvalue, hregister, regAccesses, Tracker.run_singleton]
  rfl

/-- A shifter makes no access. -/
theorem decodeArgShifter_follows (o : Operand) (node : DbShifter) :
    Follows Operand.track (decodeArgShifter db · node) o [] := by
  intro t c
  unfold decodeArgShifter
  dsimp only
  rw [Operand.track_opcode]
  split
  · cases lookupTv node.table (readEncodedinValue (db.encodedins node.encodedin)
      o.internal.opcode).1 <;> rfl
  · cases decodeAny db o.internal.opcode node.shift with
    | none => rfl
    | some shift =>
        cases node.amount with
        | none => rfl
        | some amount =>
            dsimp only
            cases decodeAny db o.internal.opcode amount <;> rfl

theorem decodeArgRegsh_follows (o : Operand) (node : DbOpsh DbAny) :
    Follows Operand.track (decodeArgRegsh db · node) o
      (regAccesses db o.internal.opcode node.op) :=
  follows_andThen (decodeArgReg_follows db o node.op) (decodeArgShifter_follows db _ _)

theorem decodeArgVreg_follows (o : Operand) (node : DbEreg) :
    Follows Operand.track (decodeArgVreg db · node) o
      (regAccesses db o.internal.opcode node.reg) :=
  follows_andThen (decodeArgReg_follows db o node.reg) fun _ _ => rfl

theorem decodeArgVregsh_follows (o : Operand) (node : DbOpsh DbEreg) :
    Follows Operand.track (decodeArgVregsh db · node) o
      (regAccesses db o.internal.opcode node.op.reg) :=
  follows_andThen (decodeArgVreg_follows db o node.op) (decodeArgShifter_follows db _ _)

theorem decodeArgEreg_follows (o : Operand) (node : DbEreg) :
    Follows Operand.track (decodeArgEreg db · node) o
      (regAccesses db o.internal.opcode node.reg) := by
  apply follows_andThen (decodeArgReg_follows db o node.reg)
  intro t c
  dsimp only
  rw [Operand.track_opcode]
  cases decodeAny db (decodeArgReg db o node.reg).2.internal.opcode node.idx <;> rfl

theorem decodeArgPreg_follows (o : Operand) (node : DbAny) :
    Follows Operand.track (decodeArgPreg db · node) o (regAccesses db o.internal.opcode node) :=
  follows_andThen (decodeArgReg_follows db o node) fun _ _ => rfl

theorem decodeEncodedImm_track (o : Operand) (node : DbAny) (value : BitVec 32) (nb : Nat)
    (t : Tracker Nat) (c : Bool) :
    decodeEncodedImm (o.track t c) node value nb =
      (decodeEncodedImm o node value nb).track t c := by
  have hdatasize : (o.track t c).internal.datasize = o.internal.datasize := rfl
  unfold decodeEncodedImm
  cases node.symbol
  case aimm =>
    dsimp only
    rw [hdatasize]
    cases decodeLogimm value o.internal.datasize <;> rfl
  all_goals rfl

theorem decodeArgImm_follows (o : Operand) (node : DbAny) :
    Follows Operand.track (decodeArgImm db · node) o [] := by
  intro t c
  unfold decodeArgImm
  dsimp only
  rw [Operand.track_opcode]
  cases decodeAny db o.internal.opcode node with
  | none => rfl
  | some decoded =>
      obtain ⟨definition, value, nb⟩ := decoded
      cases definition with
      | encodedin =>
          exact congrArg (Prod.mk true) (decodeEncodedImm_track
            { o with argument := { o.argument.put Cell.imm 0 with
              type := .immediate
              datatype := node.datatype
              attributes.read := true } } node value nb t c)
      | value | table => rfl

theorem decodeArgImmsh_follows (o : Operand) (node : DbOpsh DbAny) :
    Follows Operand.track (decodeArgImmsh db · node) o [] :=
  follows_andThen (decodeArgImm_follows db o node.op) (decodeArgShifter_follows db _ _)

theorem decodeArgLabel_follows (o : Operand) (node : DbAny) :
    Follows Operand.track (decodeArgLabel db · node) o [] :=
  follows_andThen (decodeArgImm_follows db o node) fun _ _ => rfl

theorem decodeAnynymousImmreg_follows (o : Operand) (node : DbImmReg) :
    Follows Operand.track (decodeAnynymousImmreg db · node) o
      (immRegAccesses db o.internal.opcode node) := by
  cases node with
  | base node =>
      cases node with
      | base node => exact decodeArgReg_follows db o node
      | vbase node => exact decodeArgVreg_follows db o node
      | ebase node => exact decodeArgEreg_follows db o node
  | offset node =>
      cases node with
      | regoff node => exact decodeArgReg_follows db o node
      | vregoff node => exact decodeArgVreg_follows db o node
      | regoffsh node => exact decodeArgRegsh_follows db o node
      | vregoffsh node => exact decodeArgVregsh_follows db o node
      | immoff node => exact decodeArgImm_follows db o node
      | immoffsh node => exact decodeArgImmsh_follows db o node

/-- A memory operand makes the accesses of its base, then those of its offset. -/
theorem decodeArgMem_follows (stale : Argument) (o : Operand) (node : DbMem) :
    Follows Operand.track (decodeArgMem db stale · node) o
      (memAccesses db o.internal.opcode node) := by
  intro t c
  let start : Operand := ⟨o.internal, localArgument stale⟩
  have hbase := decodeAnynymousImmreg_follows db start (.base node.base) t c
  have hfst := decodeAnynymousImmreg_fst db (o := start) rfl (.base node.base)
  have hopcode := (decodeAnynymousImmreg_touched db start (.base node.base)).opcode
  have hstart : (⟨(o.track t c).internal, localArgument stale⟩ : Operand) = start.track t c := rfl
  unfold decodeArgMem memAccesses
  dsimp only at hbase ⊢
  rw [hstart, hbase]
  change (decodeAnynymousImmreg db start (.base node.base)).1 =
    decodesImmReg db o.internal.opcode (.base node.base) at hfst
  rw [← hfst, Tracker.run_append]
  dsimp only
  cases (decodeAnynymousImmreg db start (.base node.base)).1 with
  | false => rfl
  | true =>
      rw [Bool.not_true, if_neg Bool.false_ne_true, if_neg Bool.false_ne_true, if_pos rfl]
      cases node.regoff with
      | none => rfl
      | some regoff =>
          have hoffset := decodeAnynymousImmreg_follows db
            (decodeAnynymousImmreg db start (.base node.base)).2 (.offset regoff)
            (t.run (immRegAccesses db start.internal.opcode (.base node.base))) c
          dsimp only at hoffset ⊢
          rw [hoffset, hopcode]
          cases (decodeAnynymousImmreg db (decodeAnynymousImmreg db start (.base node.base)).2
            (.offset regoff)).1 <;> rfl

/-- A register list makes the access of its base only. -/
theorem decodeArgVlist_follows (o : Operand) (node : DbList) :
    Follows Operand.track (decodeArgVlist db · node) o
      (immRegAccesses db o.internal.opcode (.base node.base)) := by
  apply follows_andThen (decodeAnynymousImmreg_follows db o (.base node.base))
  intro t c
  have hargument (o : Operand) : (o.track t c).argument = o.argument := rfl
  dsimp only
  rw [hargument]
  cases listBoundary (db.reginfo ((decodeAnynymousImmreg db o (.base node.base)).2.argument.get
    Cell.regValue)).symbol <;> rfl

theorem decodeArgElist_follows (o : Operand) (node : DbList) :
    Follows Operand.track (decodeArgElist db · node) o
      (immRegAccesses db o.internal.opcode (.base node.base)) :=
  follows_andThen (decodeArgVlist_follows db o node) fun _ _ => rfl

theorem decodeArgEnum_follows (o : Operand) (type : EnumType) (node : DbAny) :
    Follows Operand.track (decodeArgEnum db · type node) o [] := by
  intro t c
  unfold decodeArgEnum
  dsimp only
  rw [Operand.track_opcode]
  cases enumValue type node (readEncodedinValue (db.encodedins node.encodedin)
    o.internal.opcode).1 <;> rfl

theorem decodeArgPatternsh_follows (o : Operand) (node : DbOpsh DbAny) :
    Follows Operand.track (decodeArgPatternsh db · node) o [] :=
  follows_andThen (decodeArgEnum_follows db o .pattern node.op) (decodeArgShifter_follows db _ _)

/-- Every node makes the accesses that the table and the word give for it. -/
theorem decodeNode_follows (stale : Argument) (o : Operand) (node : DbNode) :
    Follows Operand.track (decodeNode db stale · node) o
      (nodeAccesses db o.internal.opcode node) := by
  intro t c
  let cleared : Operand := { o with argument := clearArgument o.argument }
  cases node with
  | enum type node => exact decodeArgEnum_follows db cleared type node t c
  | reg node => exact decodeArgReg_follows db cleared node t c
  | regsh node => exact decodeArgRegsh_follows db cleared node t c
  | vreg node => exact decodeArgVreg_follows db cleared node t c
  | ereg node => exact decodeArgEreg_follows db cleared node t c
  | preg node => exact decodeArgPreg_follows db cleared node t c
  | vlist node => exact decodeArgVlist_follows db cleared node t c
  | elist node => exact decodeArgElist_follows db cleared node t c
  | patternsh node => exact decodeArgPatternsh_follows db cleared node t c
  | fpimm node => exact decodeArgImm_follows db cleared node t c
  | imm node => exact decodeArgImm_follows db cleared node t c
  | immsh node => exact decodeArgImmsh_follows db cleared node t c
  | label node => exact decodeArgLabel_follows db cleared node t c
  | mem node => exact decodeArgMem_follows db stale cleared node t c
  | invcond _ | sysreg _ | other => rfl

/-! ## Nodes, templates and encodings -/

/-- The nodes of a template make their accesses in order, up to the one that fails. -/
theorem decodeNodesFrom_follows (stale : Argument) (nodes : List DbNode) (i : Nat) (s : Internal)
    (t : Tracker Nat) (c : Bool) :
    decodeNodesFrom db stale nodes i (s.track t c) = ((decodeNodesFrom db stale nodes i s).1,
      (decodeNodesFrom db stale nodes i s).2.track (t.run (nodesAccesses db s.opcode nodes))
        c) := by
  induction nodes generalizing i s t with
  | nil => rfl
  | cons node nodes ih =>
      have hnode := decodeNode_follows db stale ⟨s, s.insn.arguments i⟩ node t c
      have hopcode := (decodeNode_touched db ⟨s, s.insn.arguments i⟩ stale node).opcode
      have hfst := decodeNode_fst db (o := ⟨s, s.insn.arguments i⟩) rfl stale node
      have hstart : (⟨s.track t c, (s.track t c).insn.arguments i⟩ : Operand) =
          Operand.track ⟨s, s.insn.arguments i⟩ t c := rfl
      dsimp only at hnode hopcode
      rw [decodeNodesFrom, decodeNodesFrom, hstart, hnode, nodesAccesses, accessesUpTo, ← hfst]
      dsimp only
      have hstore (o : Operand) (t : Tracker Nat) :
          { (o.track t c).internal with
            insn := (o.track t c).internal.insn.setArgument i (o.track t c).argument } =
          ({ o.internal with insn := o.internal.insn.setArgument i o.argument } : Internal).track
            t c := rfl
      rw [hstore]
      cases (decodeNode db stale ⟨s, s.insn.arguments i⟩ node).1 with
      | true =>
          rw [if_pos rfl, if_pos rfl, Bool.not_true, if_neg Bool.false_ne_true, ih,
            Tracker.run_append]
          dsimp only
          rw [hopcode]
          rfl
      | false =>
          rw [if_neg Bool.false_ne_true, if_neg Bool.false_ne_true, Bool.not_false, if_pos rfl,
            List.append_nil]

theorem enterTemplate_track (template : Nat) (s : Internal) (t : Tracker Nat) (c : Bool) :
    enterTemplate db template (s.track t c) = (enterTemplate db template s).track t c := by
  unfold enterTemplate beginTemplate decodeCondition
  dsimp only
  split <;> rfl

theorem enteredNodes_track (stale : Argument) (template : Nat) (s : Internal) (t : Tracker Nat)
    (c : Bool) :
    enteredNodes db stale template (s.track t c) = ((enteredNodes db stale template s).1,
      (enteredNodes db stale template s).2.track (t.run (nodesAccesses db s.opcode
        (db.arguments (db.templates template).arguments))) c) := by
  have hopcode := (enterTemplate_fixed db template s).1
  rw [enteredNodes, enterTemplate_track db, decodeNodesFrom_follows db, hopcode, enteredNodes]

/-- Behind a template `is_constructive` depends on the tracker as well. -/
theorem decodeTemplate_follows (stale : Argument) (template : Nat) (s : Internal) :
    FollowsUp Internal.track (decodeTemplate db stale template) s
      (templateAccesses db s.opcode template) := by
  intro t c
  have hopcode : (s.track t c).opcode = s.opcode := rfl
  rw [decodeTemplate_eq, decodeTemplate_eq, hopcode, templateAccesses]
  split
  · rw [enteredNodes_track db]
    split
    · exact ⟨_, rfl⟩
    · exact ⟨c, rfl⟩
  · exact ⟨c, rfl⟩

/-- The templates of an encoding make the accesses of all that are tried. -/
theorem tryTemplates_follows (stale : Argument) (templates : List Nat) (s : Internal) :
    FollowsUp Internal.track (tryEach (decodeTemplate db stale) templates) s
      (accessesUpTo (templateAccesses db s.opcode) (templateDecodes db s.opcode) templates) := by
  refine followsUp_tryEach (I := fun s' => s'.opcode = s.opcode) (fun template s' hs' => ?_)
    (fun template s' hs' hfst => ?_) (fun template s' hs' => ?_) rfl
  · rw [decodeTemplate_fst, hs']
  · exact (decodeTemplate_holds db stale template s').opcode.trans hs'
  · rw [← hs']
    exact decodeTemplate_follows db stale template s'

/-- An encoding makes the accesses of the templates that it tries. -/
theorem decodeEncoding_follows (stale : Argument) (encoding : Nat) (s : Internal) :
    FollowsUp Internal.track (decodeEncoding db stale encoding) s
      (encodingAccesses db s.opcode encoding) := by
  intro t c
  have hopcode : (enterEncoding db encoding (s.track t c)).opcode = s.opcode := rfl
  have hopcode' : (enterEncoding db encoding s).opcode = s.opcode := rfl
  rw [decodeEncoding, decodeEncoding, encodingAccesses]
  dsimp only
  rw [hopcode, hopcode']
  by_cases hmatch : s.opcode &&& (db.encodings encoding).mask = (db.encodings encoding).opcode
  · rw [if_neg (not_not.mpr hmatch), if_neg (not_not.mpr hmatch), if_pos hmatch]
    obtain ⟨c', htry⟩ := tryTemplates_follows db stale
      (candidates db (db.encodings encoding)) (enterEncoding db encoding s) t c
    exact ⟨c', congrArg (fun r => (true, r.2)) htry⟩
  · rw [if_pos hmatch, if_pos hmatch, if_neg hmatch]
    exact ⟨c, rfl⟩

/-! ## Instructions -/

section Steps

variable (ctx : Context) (stale : Argument) (insn : Insn)

/-- What the alias step accesses behind a base decode. -/
def aliasAccesses (s : Internal) : List (Access Nat) :=
  if wantsAlias db ctx s then
    match selectAlias db s.opcode (db.lookupA64 (fetchOpcode ctx)) with
    | none => []
    | some palias => encodingAccesses db s.opcode palias
  else []

/-- The step to the alias decodes the operands again, and makes the accesses again. -/
theorem aliasStep_follows (s : Internal) (t : Tracker Nat) (c : Bool) :
    ∃ c', aliasStep db ctx stale (s.track t c) =
      (aliasStep db ctx stale s).track (t.run (aliasAccesses db ctx s)) c' := by
  have hwants : wantsAlias db ctx (s.track t c) = wantsAlias db ctx s := rfl
  have hopcode : (s.track t c).opcode = s.opcode := rfl
  rw [aliasStep, aliasStep, aliasAccesses, hwants]
  split
  · rw [decodeAlias, decodeAlias, hopcode]
    cases selectAlias db s.opcode (db.lookupA64 (fetchOpcode ctx)) with
    | none => exact ⟨c, rfl⟩
    | some palias =>
        obtain ⟨c', hdecode⟩ := decodeEncoding_follows db stale palias s t c
        dsimp only
        rw [hdecode]
        refine ⟨c', ?_⟩
        dsimp only
        split <;> rfl
  · exact ⟨c, rfl⟩

/-- All that decoding an instruction accesses. -/
def insnAccesses : List (Access Nat) :=
  encodingAccesses db (fetchOpcode ctx) (db.lookupA64 (fetchOpcode ctx)) ++
    aliasAccesses db ctx (baseState db ctx stale insn)

/-- What is seen is all that `is_destructive` is made of. -/
theorem decodeInsn_isDestructive (h : (decodeInsn db ctx stale insn).1 = true) :
    (decodeInsn db ctx stale insn).2.attributes.isDestructive =
      (Tracker.run ⟨Register.none, false⟩ (insnAccesses db ctx stale insn)).seen := by
  have hstart : (startState ctx insn).track ⟨Register.none, false⟩ false = startState ctx insn :=
    rfl
  obtain ⟨c, hbase⟩ := decodeEncoding_follows db stale (db.lookupA64 (fetchOpcode ctx))
    (startState ctx insn) ⟨Register.none, false⟩ false
  rw [hstart] at hbase
  have hstate : baseState db ctx stale insn = (baseState db ctx stale insn).track
      (Tracker.run ⟨Register.none, false⟩ (encodingAccesses db (fetchOpcode ctx)
        (db.lookupA64 (fetchOpcode ctx)))) c := congrArg Prod.snd hbase
  obtain ⟨c', hstep⟩ := aliasStep_follows db ctx stale (baseState db ctx stale insn)
    (Tracker.run ⟨Register.none, false⟩ (encodingAccesses db (fetchOpcode ctx)
      (db.lookupA64 (fetchOpcode ctx)))) c
  rw [← hstate] at hstep
  rw [decodeInsn_fst, decide_eq_true_eq] at h
  rw [decodeInsn_of_match db ctx stale insn h.1 h.2]
  dsimp only
  rw [hstep, insnAccesses, Tracker.run_append]
  rfl

end Steps

end Amed.AArch64

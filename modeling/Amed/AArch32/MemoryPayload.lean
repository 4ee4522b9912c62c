import Amed.AArch32.Effects
import Amed.AArch32.Excerpt
import Amed.Library.Overlays

/-!
# The payload of memory operands

`decode_arg_mem` runs the decoders of registers and immediates on the argument that holds the
memory payload. The members that it stores itself hold what was decoded for them; the datatype and
the broadcasting overlay the register or the immediate that is decoded last.

## Implementation notes

`broadcasting` and the datatype have no component in any form of this target, so they should be 0.
The base of a memory node is a register node.
-/

namespace Amed.AArch32

open Bytes

/-! ## Components -/

/-- What a node of a memory operand decodes. -/
inductive Component
  | register (node : DbAny)
  | immediate (node : DbAny)

def DbImmReg.component : DbImmReg → Component
  | .base node | .vbase node | .regoff node => .register node
  | .ebase node => .register node.reg
  | .regoffsh node => .register node.op
  | .immoff node => .immediate node
  | .immoffsh node => .immediate node.op

/-- The number of a register, as its 16 bits hold it. -/
def registerNumber (db : Db) (s : Internal) (node : DbAny) : Nat :=
  (registerOf db s.opcode node).1 % 2 ^ 16

/-- The value and the datatype of an immediate, decoded into an argument of its own. -/
def immediateOf (db : Db) (s : Internal) (node : DbAny) : Nat × Datatype :=
  let a := (decodeArgImm db ⟨s, default⟩ node).2.argument
  (a.get Cell.imm, a.datatype)

/-- The members that nothing beside the register or the immediate reaches. -/
def Behind (a a' : Argument) : Prop := ∀ c : Cell, 8 ≤ c.offset → a'.get c = a.get c

theorem Behind.trans {a b c : Argument} (h : Behind a b) (h' : Behind b c) : Behind a c :=
  fun cell hcell => (h' cell hcell).trans (h cell hcell)

theorem behind_put (a : Argument) {c : Cell} (v : Nat) (h : c.offset + c.width ≤ 8) :
    Behind a (a.put c v) :=
  fun _ hcell => a.get_put_apart v (.inr (h.trans hcell))

theorem Argument.get_of_payload {a b : Argument} (h : a.payload = b.payload) (c : Cell) :
    a.get c = b.get c := by
  rw [Amed.Argument.get, h]
  rfl

/-- What decoding a register into an argument leaves. -/
structure HoldsRegister (db : Db) (o : Operand) (node : DbAny) (r : Operand) : Prop where
  type : r.argument.type = .register
  register : r.argument.get Cell.regValue = registerNumber db o.internal node
  broadcastingTo : r.argument.get Cell.memBroadcastingTo = o.argument.get Cell.memBroadcastingTo
  behind : Behind o.argument r.argument
  lsb : r.internal.lsb = o.internal.lsb

theorem HoldsRegister.of_payload {db : Db} {o r r' : Operand} {node : DbAny}
    (h : HoldsRegister db o node r) (htype : r'.argument.type = r.argument.type)
    (hpayload : r'.argument.payload = r.argument.payload)
    (hlsb : r'.internal.lsb = r.internal.lsb) : HoldsRegister db o node r' := by
  have hget (c : Cell) : r'.argument.get c = r.argument.get c := Argument.get_of_payload hpayload c
  exact ⟨htype.trans h.type, (hget _).trans h.register, (hget _).trans h.broadcastingTo,
    fun c hc => (hget c).trans (h.behind c hc), hlsb.trans h.lsb⟩

variable (db : Db) (o : Operand)

theorem decodeArgReg_holds (node : DbAny) :
    HoldsRegister db o node (decodeArgReg db o node).2 := by
  have hput : HoldsRegister db o node
      ⟨o.internal, { o.argument.put Cell.regValue (registerOf db o.internal.opcode node).1 with
        type := .register }⟩ := by
    refine ⟨rfl, o.argument.get_put Cell.regValue _, ?_, behind_put _ _ (by decide), rfl⟩
    exact o.argument.get_put_apart _ (by decide)
  have hpayload : (decodeArgReg db o node).2.argument.payload =
      (o.argument.put Cell.regValue (registerOf db o.internal.opcode node).1).payload ∧
      (decodeArgReg db o node).2.argument.type = .register ∧
      (decodeArgReg db o node).2.internal.lsb = o.internal.lsb := by
    unfold decodeArgReg
    generalize registerOf db o.internal.opcode node = found
    obtain ⟨value, info, unpredictable⟩ := found
    dsimp only
    split
    · split <;> exact ⟨rfl, rfl, rfl⟩
    · split <;> exact ⟨rfl, rfl, rfl⟩
  exact hput.of_payload hpayload.2.1 hpayload.1 hpayload.2.2

theorem decodeArgVreg_holds (node : DbAny) :
    HoldsRegister db o node (decodeArgVreg db o node).2 := by
  have hreg := decodeArgReg_holds db o node
  unfold decodeArgVreg Operand.andThen
  split
  · exact hreg.of_payload rfl rfl rfl
  · exact hreg

theorem decodeArgEreg_holds (node : DbEreg) :
    HoldsRegister db o node.reg (decodeArgEreg db o node).2 := by
  have hreg := decodeArgReg_holds db o node.reg
  unfold decodeArgEreg Operand.andThen
  split
  · dsimp only
    split
    · exact hreg
    · rename_i idx _
      generalize (decodeArgReg db o node.reg).2 = r at hreg
      have hput : HoldsRegister db o node.reg
          ⟨r.internal, r.argument.put Cell.regIndex idx.value.toNat⟩ := by
        refine ⟨hreg.type, ?_, ?_, hreg.behind.trans (behind_put _ _ (by decide)), hreg.lsb⟩
        · exact (r.argument.get_put_apart _ (by decide)).trans hreg.register
        · exact (r.argument.get_put_apart _ (by decide)).trans hreg.broadcastingTo
      exact hput.of_payload rfl rfl rfl
  · exact hreg

/-- A shifter leaves the payload alone. -/
theorem decodeArgShifter_argument (node : DbShifter) :
    (decodeArgShifter db o node).2.argument.payload = o.argument.payload ∧
      (decodeArgShifter db o node).2.argument.type = o.argument.type ∧
        (decodeArgShifter db o node).2.argument.datatype = o.argument.datatype := by
  unfold decodeArgShifter
  dsimp only
  split
  · exact ⟨rfl, rfl, rfl⟩
  · split
    · exact ⟨rfl, rfl, rfl⟩
    · exact ⟨rfl, rfl, rfl⟩
    · exact ⟨rfl, rfl, rfl⟩

theorem decodeArgRegsh_holds (node : DbOpsh) :
    HoldsRegister db o node.op (decodeArgRegsh db o node).2 := by
  have hreg := decodeArgReg_holds db o node.op
  unfold decodeArgRegsh Operand.andThen
  split
  · obtain ⟨hpayload, htype, -⟩ := decodeArgShifter_argument db (decodeArgReg db o node.op).2
      node.shifter
    exact hreg.of_payload htype hpayload (by rw [decodeArgShifter_internal])
  · exact hreg

/-! ## Immediates -/

/-- What decoding an immediate into an argument leaves. -/
structure HoldsImmediate (db : Db) (o : Operand) (node : DbAny) (r : Operand) : Prop where
  type : r.argument.type = .immediate
  value : r.argument.get Cell.imm = (immediateOf db o.internal node).1
  datatype : r.argument.datatype = (immediateOf db o.internal node).2
  behind : Behind o.argument r.argument

/-- The word of an immediate, with nothing above it. -/
theorem get_imm_put_immWord (a : Argument) (v : Nat) :
    ((a.put Cell.imm 0).put Cell.immWord v).get Cell.imm = v % 2 ^ 32 := by
  have hhigh : ((a.put Cell.imm 0).put Cell.immWord v).get ⟨4, 4⟩ = 0 := by
    rw [Argument.get_put_apart _ _ (by decide)]
    have hzero : (a.put Cell.imm 0).get Cell.imm = 0 := a.get_put Cell.imm 0
    have hread := Store.read_high (a.put Cell.imm 0).payload 0 4 4
    exact hread.trans (by rw [show (a.put Cell.imm 0).payload.read ⟨0, 4 + 4⟩ = 0 from hzero]; rfl)
  have hlow : ((a.put Cell.imm 0).put Cell.immWord v).get Cell.immWord = v % 2 ^ 32 :=
    (a.put Cell.imm 0).get_put Cell.immWord v
  have hread := Store.read_add ((a.put Cell.imm 0).put Cell.immWord v).payload 0 4 4
  calc ((a.put Cell.imm 0).put Cell.immWord v).get Cell.imm
      = ((a.put Cell.imm 0).put Cell.immWord v).get Cell.immWord +
          256 ^ 4 * ((a.put Cell.imm 0).put Cell.immWord v).get ⟨4, 4⟩ := hread
    _ = v % 2 ^ 32 := by rw [hhigh, hlow]; omega

/-- An encoded immediate is one write and a datatype, whatever argument it goes to. -/
theorem decodeEncodedImm_writes (s : Internal) (node : DbAny) (value : BitVec 32) (nb : Nat) :
    ∃ ok s' c v dt, (c = Cell.imm ∨ c = Cell.immWord) ∧ ∀ a,
      decodeEncodedImm ⟨s, a⟩ node value nb = (ok, ⟨s', { a.put c v with datatype := dt }⟩) := by
  unfold decodeEncodedImm
  dsimp only
  cases node.symbol
  case width | aimm | timm | shiftLeft | fbitsRight | shiftRight =>
    exact ⟨true, s, Cell.immWord, _, _, .inr rfl, fun a => rfl⟩
  case lsb => exact ⟨true, { s with lsb := value }, Cell.immWord, _, _, .inr rfl, fun a => rfl⟩
  case vfpimm => exact ⟨_, s, Cell.imm, _, _, .inl rfl, fun a => rfl⟩
  all_goals exact ⟨true, s, Cell.imm, _, _, .inl rfl, fun a => rfl⟩

/-- So is every immediate, behind the clearing of the whole value. -/
theorem decodeArgImm_writes (s : Internal) (node : DbAny) :
    ∃ ok s' c v dt, (c = Cell.imm ∨ c = Cell.immWord) ∧ ∀ a,
      decodeArgImm db ⟨s, a⟩ node =
        (ok, ⟨s', { (a.put Cell.imm 0).put c v with type := .immediate, datatype := dt }⟩) := by
  unfold decodeArgImm
  dsimp only
  split
  · rename_i value nb _
    obtain ⟨ok, s', c, v, dt, hc, h⟩ := decodeEncodedImm_writes s node value nb
    exact ⟨ok, s', c, v, dt, hc, fun a => h _⟩
  · exact ⟨_, _, Cell.immWord, _, _, .inr rfl, fun a => rfl⟩
  · exact ⟨_, _, Cell.immWord, _, _, .inr rfl, fun a => rfl⟩

theorem decodeArgImm_holds (node : DbAny) :
    HoldsImmediate db o node (decodeArgImm db o node).2 := by
  obtain ⟨ok, s', c, v, dt, hc, h⟩ := decodeArgImm_writes db o.internal node
  have hvalue : ∃ n, ∀ a : Argument, ((a.put Cell.imm 0).put c v).get Cell.imm = n := by
    rcases hc with rfl | rfl
    · exact ⟨_, fun a => (a.put Cell.imm 0).get_put Cell.imm v⟩
    · exact ⟨_, fun a => get_imm_put_immWord a v⟩
  obtain ⟨n, hn⟩ := hvalue
  have hwidth : c.offset + c.width ≤ 8 := by rcases hc with rfl | rfl <;> decide
  have hof : immediateOf db o.internal node = (n, dt) := by
    rw [immediateOf, h]
    exact Prod.ext (hn default) rfl
  have hrun := h o.argument
  refine ⟨?_, ?_, ?_, ?_⟩
  · rw [hrun]
  · rw [hrun, hof]
    exact hn o.argument
  · rw [hrun, hof]
  · rw [hrun]
    exact (behind_put o.argument 0 (by decide)).trans (behind_put _ v hwidth)

theorem decodeArgImmsh_holds (node : DbOpsh) :
    HoldsImmediate db o node.op (decodeArgImmsh db o node).2 := by
  have himm := decodeArgImm_holds db o node.op
  unfold decodeArgImmsh Operand.andThen
  split
  · obtain ⟨hpayload, htype, hdatatype⟩ := decodeArgShifter_argument db
      (decodeArgImm db o node.op).2 node.shifter
    have hget (c : Cell) := Argument.get_of_payload hpayload c
    exact ⟨htype.trans himm.type, (hget _).trans himm.value, hdatatype.trans himm.datatype,
      fun c hc => (hget c).trans (himm.behind c hc)⟩
  · exact himm

/-- What decoding a component leaves. -/
def HoldsComponent (db : Db) (o : Operand) (r : Operand) : Component → Prop
  | .register node => HoldsRegister db o node r
  | .immediate node => HoldsImmediate db o node r

theorem decodeAnynymousImmreg_holds (node : DbImmReg) :
    HoldsComponent db o (decodeAnynymousImmreg db o node).2 node.component := by
  cases node with
  | base node | regoff node => exact decodeArgReg_holds db o node
  | vbase node => exact decodeArgVreg_holds db o node
  | ebase node => exact decodeArgEreg_holds db o node
  | regoffsh node => exact decodeArgRegsh_holds db o node
  | immoff node => exact decodeArgImm_holds db o node
  | immoffsh node => exact decodeArgImmsh_holds db o node

/-- An immediate depends on the opcode, the mnemonic and the lowest bit of a bit field. -/
theorem immediateOf_congr {s s' : Internal} (hopcode : s'.opcode = s.opcode)
    (hmnemonic : s'.insn.mnemonic = s.insn.mnemonic) (hlsb : s'.lsb = s.lsb) (node : DbAny) :
    immediateOf db s' node = immediateOf db s node := by
  unfold immediateOf decodeArgImm
  dsimp only
  rw [hopcode]
  split
  · unfold decodeEncodedImm
    dsimp only
    rw [hmnemonic, hlsb]
    split <;> rfl
  · rfl
  · rfl

/-! ## The payload -/

/-- The register of the offset, or none. -/
def offsetRegister (db : Db) (s : Internal) (node : DbMem) : Nat :=
  match node.regoff.map DbImmReg.component with
  | some (.register offset) => registerNumber db s offset
  | _ => Register.none

/-- The immediate of the offset, or none. -/
def offsetImmediate (db : Db) (s : Internal) (node : DbMem) : Nat × Datatype :=
  match node.regoff.map DbImmReg.component with
  | some (.immediate offset) => immediateOf db s offset
  | _ => (0, .none)

/-- The alignment, 0 where the form has none. -/
def alignmentOf (db : Db) (s : Internal) (node : DbMem) : Nat :=
  ((decodeOptional db s.opcode node.align 0).getD 0).toNat

/-- Every member holds what is decoded for it, or nothing. -/
structure MemoryPayload (db : Db) (s : Internal) (node : DbMem) (base : DbAny) (a : Argument) :
    Prop where
  base : a.get Cell.memBase = registerNumber db s base
  regoff : a.get Cell.memRegoff = offsetRegister db s node
  immoffDatatype : a.get Cell.memImmoffDatatype = (offsetImmediate db s node).2.code % 2 ^ 8
  immoffValue : a.get Cell.memImmoffValue = (offsetImmediate db s node).1
  alignement : a.get Cell.memAlignement = alignmentOf db s node % 2 ^ 16
  datatype : a.get Cell.memVdatatype = 0
  broadcastingFrom : a.get Cell.memBroadcastingFrom = 0
  broadcastingTo : a.get Cell.memBroadcastingTo = 0

/-- The component that is decoded last. -/
def lastComponent (node : DbMem) (base : DbAny) : Component :=
  (node.regoff.map DbImmReg.component).getD (.register base)

/-- What a component leaves in the three bytes of the datatype and the broadcasting. -/
def scratch (db : Db) (s : Internal) : Component → Nat
  | .register node => registerNumber db s node
  | .immediate node => (immediateOf db s node).1 % 2 ^ 24

/-- The bytes of the datatype and of the broadcasting. -/
def overlay : Cell := ⟨0, 3⟩

theorem get_overlay (a : Argument) :
    a.get overlay = a.get Cell.regValue + 2 ^ 16 * a.get Cell.memBroadcastingTo :=
  Store.read_add a.payload 0 2 1

theorem get_overlay_imm (a : Argument) : a.get overlay = a.get Cell.imm % 2 ^ 24 :=
  Store.read_low a.payload 0 3 5

theorem get_overlay_eq_zero_iff (a : Argument) :
    a.get overlay = 0 ↔ a.get Cell.memVdatatype = 0 ∧ a.get Cell.memBroadcastingFrom = 0 ∧
      a.get Cell.memBroadcastingTo = 0 := by
  have hsplit : a.get overlay = a.get Cell.memVdatatype + 256 * (a.get Cell.memBroadcastingFrom +
      256 * a.get Cell.memBroadcastingTo) := by
    have htail : a.get ⟨1, 2⟩ =
        a.get Cell.memBroadcastingFrom + 256 * a.get Cell.memBroadcastingTo :=
      Store.read_add a.payload 1 1 1
    rw [← htail]
    exact Store.read_add a.payload 0 1 2
  omega

/-- The members once a base or an offset is stored, and the bytes that `last` left over them. -/
structure Stored (a : Argument) (base regoff immoffDatatype immoffValue last : Nat) : Prop where
  base : a.get Cell.memBase = base
  regoff : a.get Cell.memRegoff = regoff
  immoffDatatype : a.get Cell.memImmoffDatatype = immoffDatatype
  immoffValue : a.get Cell.memImmoffValue = immoffValue
  last : a.get overlay = last

/-- The argument that the base is decoded into. -/
def clearPayload (a : Argument) : Argument :=
  ((((a.put Cell.memRegoff Register.none).put Cell.memImmoffDatatype Datatype.none.code).put
    Cell.memImmoffValue 0).put Cell.memBroadcastingFrom 0).put Cell.memBroadcastingTo 0

theorem clearPayload_get (a : Argument) :
    (clearPayload a).get Cell.memRegoff = 0 ∧ (clearPayload a).get Cell.memImmoffDatatype = 0 ∧
      (clearPayload a).get Cell.memImmoffValue = 0 ∧
        (clearPayload a).get Cell.memBroadcastingTo = 0 := by
  unfold clearPayload
  refine ⟨?_, ?_, ?_, Argument.get_put _ _ _⟩
  · rw [Argument.get_put_apart _ _ (by decide), Argument.get_put_apart _ _ (by decide),
      Argument.get_put_apart _ _ (by decide), Argument.get_put_apart _ _ (by decide)]
    exact Argument.get_put _ _ _
  · rw [Argument.get_put_apart _ _ (by decide), Argument.get_put_apart _ _ (by decide),
      Argument.get_put_apart _ _ (by decide)]
    exact Argument.get_put _ _ _
  · rw [Argument.get_put_apart _ _ (by decide), Argument.get_put_apart _ _ (by decide)]
    exact Argument.get_put _ _ _

theorem registerNumber_lt (s : Internal) (node : DbAny) : registerNumber db s node < 2 ^ 16 :=
  Nat.mod_lt _ (by decide)

/-- The base leaves its number in the bytes that it shares. -/
theorem base_stored {base : DbAny} {b : Operand}
    (h : HoldsRegister db { o with argument := clearPayload o.argument } base b) :
    Stored (b.argument.put Cell.memBase (b.argument.get Cell.regValue))
      (registerNumber db o.internal base) 0 0 0 (registerNumber db o.internal base) := by
  obtain ⟨hregoff, hdatatype, hvalue, hto⟩ := clearPayload_get o.argument
  have hregister : b.argument.get Cell.regValue = registerNumber db o.internal base := h.register
  refine ⟨?_, ?_, ?_, ?_, ?_⟩
  · rw [hregister]
    exact (b.argument.get_put Cell.memBase _).trans
      (Nat.mod_eq_of_lt (registerNumber_lt db o.internal base))
  · exact (b.argument.get_put_apart _ (by decide)).trans ((h.behind _ (by decide)).trans hregoff)
  · exact (b.argument.get_put_apart _ (by decide)).trans ((h.behind _ (by decide)).trans hdatatype)
  · exact (b.argument.get_put_apart _ (by decide)).trans ((h.behind _ (by decide)).trans hvalue)
  · have hzero : b.argument.get Cell.memBroadcastingTo = 0 := h.broadcastingTo.trans hto
    have hoverlay := get_overlay b.argument
    rw [hzero, hregister] at hoverlay
    exact (b.argument.get_put_apart _ (by decide)).trans hoverlay

/-- A register as the offset. -/
theorem Stored.register {s : Internal} {a : Argument} {offset : DbAny} {r : Operand}
    {base last : Nat} (hs : Stored a base 0 0 0 last) (hlast : last < 2 ^ 16)
    (h : HoldsRegister db ⟨s, a⟩ offset r) :
    Stored (takeOffset r.argument) base (registerNumber db s offset) 0 0
      (registerNumber db s offset) := by
  have htake : takeOffset r.argument =
      r.argument.put Cell.memRegoff (r.argument.get Cell.regValue) := by
    unfold takeOffset
    rw [h.type]
    rfl
  have hto : a.get Cell.memBroadcastingTo = 0 := by
    have hoverlay := get_overlay a
    rw [hs.last] at hoverlay
    omega
  have hregister : r.argument.get Cell.regValue = registerNumber db s offset := h.register
  rw [htake]
  refine ⟨?_, ?_, ?_, ?_, ?_⟩
  · exact (r.argument.get_put_apart _ (by decide)).trans ((h.behind _ (by decide)).trans hs.base)
  · rw [hregister]
    exact (r.argument.get_put Cell.memRegoff _).trans
      (Nat.mod_eq_of_lt (registerNumber_lt db s offset))
  · exact (r.argument.get_put_apart _ (by decide)).trans
      ((h.behind _ (by decide)).trans hs.immoffDatatype)
  · exact (r.argument.get_put_apart _ (by decide)).trans
      ((h.behind _ (by decide)).trans hs.immoffValue)
  · have hzero : r.argument.get Cell.memBroadcastingTo = 0 := h.broadcastingTo.trans hto
    have hoverlay := get_overlay r.argument
    rw [hzero, hregister] at hoverlay
    exact (r.argument.get_put_apart _ (by decide)).trans hoverlay

/-- An immediate as the offset. -/
theorem Stored.immediate {s : Internal} {a : Argument} {offset : DbAny} {r : Operand}
    {base last : Nat} (hs : Stored a base 0 0 0 last) (h : HoldsImmediate db ⟨s, a⟩ offset r) :
    Stored (takeOffset r.argument) base 0 ((immediateOf db s offset).2.code % 2 ^ 8)
      (immediateOf db s offset).1 ((immediateOf db s offset).1 % 2 ^ 24) := by
  have htake : takeOffset r.argument =
      (r.argument.put Cell.memImmoffDatatype r.argument.datatype.code).put Cell.memImmoffValue
        (r.argument.get Cell.imm) := by
    unfold takeOffset
    rw [h.type]
    rfl
  have hvalue : r.argument.get Cell.imm = (immediateOf db s offset).1 := h.value
  have hother {c : Cell} (hc : 8 ≤ c.offset) (hd : c.Apart Cell.memImmoffDatatype)
      (hv : c.Apart Cell.memImmoffValue) : (takeOffset r.argument).get c = a.get c := by
    rw [htake]
    exact (Argument.get_put_apart _ _ hv).trans
      ((r.argument.get_put_apart _ hd).trans (h.behind _ hc))
  refine ⟨?_, ?_, ?_, ?_, ?_⟩
  · exact (hother (by decide) (by decide) (by decide)).trans hs.base
  · exact (hother (by decide) (by decide) (by decide)).trans hs.regoff
  · rw [htake, h.datatype]
    exact (Argument.get_put_apart _ _ (by decide)).trans (r.argument.get_put _ _)
  · rw [htake, ← hvalue]
    exact (Argument.get_put _ Cell.memImmoffValue _).trans
      (Nat.mod_eq_of_lt (r.argument.get_lt Cell.imm))
  · rw [htake, ← hvalue, ← get_overlay_imm]
    exact (Argument.get_put_apart _ _ (by decide)).trans (r.argument.get_put_apart _ (by decide))

/-- What the base and the offset leave. -/
theorem decodeOffset_stored (node : DbMem) {base : DbAny} {s : Internal}
    (hs : Stored o.argument (registerNumber db s base) 0 0 0 (registerNumber db s base))
    (hopcode : o.internal.opcode = s.opcode)
    (hmnemonic : o.internal.insn.mnemonic = s.insn.mnemonic)
    (hlsb : o.internal.lsb = s.lsb) (h : (decodeOffset db o node).1 = true) :
    Stored (decodeOffset db o node).2.1.argument (registerNumber db s base)
      (offsetRegister db s node) ((offsetImmediate db s node).2.code % 2 ^ 8)
      (offsetImmediate db s node).1 (scratch db s (lastComponent node base)) := by
  unfold decodeOffset at h ⊢
  unfold offsetRegister offsetImmediate lastComponent
  cases hregoff : node.regoff with
  | none => exact hs
  | some regoff =>
      rw [hregoff] at h
      dsimp only at h ⊢
      cases hadd : decodeOptional db o.internal.opcode node.add 1 with
      | none => rw [hadd] at h; cases h
      | some add =>
          rw [hadd] at h
          dsimp only at h ⊢
          split at h
          · rename_i hdecoded
            rw [if_pos hdecoded]
            have hholds := decodeAnynymousImmreg_holds db o regoff
            simp only [Option.map_some, Option.getD_some]
            cases hcomponent : regoff.component with
            | register offset =>
                rw [hcomponent] at hholds
                have hregister := hs.register db (registerNumber_lt db s base) hholds
                unfold registerNumber at hregister
                rw [hopcode] at hregister
                exact hregister
            | immediate offset =>
                rw [hcomponent] at hholds
                have himmediate := hs.immediate db hholds
                rw [immediateOf_congr db hopcode hmnemonic hlsb] at himmediate
                exact himmediate
          · cases h

/-! ## The whole operand -/

/-- The end of the operand stores the alignment and the size of the address. -/
theorem finishMem_get (node : DbMem) (add align : BitVec 32) {c : Cell}
    (halign : c.Apart Cell.memAlignement) (hsize : c.Apart Cell.memAddressSize) :
    (finishMem o node add align).argument.get c = o.argument.get c := by
  have hput : (finishMem o node add align).argument.payload =
      ((o.argument.put Cell.memAlignement align.toNat).put Cell.memAddressSize 32).payload := rfl
  rw [Argument.get_of_payload hput]
  exact (Argument.get_put_apart _ _ hsize).trans (o.argument.get_put_apart _ halign)

theorem finishMem_alignement (node : DbMem) (add align : BitVec 32) :
    (finishMem o node add align).argument.get Cell.memAlignement = align.toNat % 2 ^ 16 := by
  have hput : (finishMem o node add align).argument.payload =
      ((o.argument.put Cell.memAlignement align.toNat).put Cell.memAddressSize 32).payload := rfl
  rw [Argument.get_of_payload hput]
  exact (Argument.get_put_apart _ _ (by decide)).trans (o.argument.get_put _ _)

/-- Every memory operand with a register base keeps what was decoded for it. -/
def KeepsPayload (db : Db) (o : Operand) (node : DbMem) : Prop :=
  ∀ base r, node.base.component = .register base → decodeArgMem db o node = (true, r) →
    MemoryPayload db o.internal node base r.argument

/-- The members of a decoded memory operand, and the bytes that the last component left. -/
theorem decodeArgMem_stored {node : DbMem} {base : DbAny} {r : Operand}
    (hbase : node.base.component = .register base) (h : decodeArgMem db o node = (true, r)) :
    Stored r.argument (registerNumber db o.internal base) (offsetRegister db o.internal node)
        ((offsetImmediate db o.internal node).2.code % 2 ^ 8) (offsetImmediate db o.internal node).1
        (scratch db o.internal (lastComponent node base)) ∧
      r.argument.get Cell.memAlignement = alignmentOf db o.internal node % 2 ^ 16 := by
  unfold decodeArgMem at h
  dsimp only at h
  have hholds := decodeAnynymousImmreg_holds db { o with argument := clearPayload o.argument }
    node.base
  have htouched : Touches o.internal _ :=
    decodeAnynymousImmreg_touched db { o with argument := clearPayload o.argument } node.base
  rw [hbase] at hholds
  change Operand.andThen (decodeAnynymousImmreg db ⟨o.internal, clearPayload o.argument⟩ node.base)
    _ = _ at h
  generalize decodeAnynymousImmreg db ⟨o.internal, clearPayload o.argument⟩ node.base = b
    at hholds htouched h
  unfold Operand.andThen at h
  split at h
  · have hstored := base_stored db o hholds
    have hmnemonic : b.2.internal.insn.mnemonic = o.internal.insn.mnemonic := by
      have hframe : b.2.internal.frame.insn.mnemonic = o.internal.frame.insn.mnemonic := by
        rw [htouched.frame]
      exact hframe
    let based : Operand := ⟨b.2.internal,
      b.2.argument.put Cell.memBase (b.2.argument.get Cell.regValue)⟩
    have hoffset := decodeOffset_stored db based node hstored
      htouched.opcode hmnemonic hholds.lsb
    have hopcode : (decodeOffset db based node).2.1.internal.opcode = o.internal.opcode :=
      (decodeOffset_touches db based node).opcode.trans htouched.opcode
    change (if (decodeOffset db based node).1 = true then _ else _) = _ at h
    generalize decodeOffset db based node = off at hoffset hopcode h
    split at h
    · rename_i hdecoded
      split at h
      · cases h
      · rename_i align halign
        cases h
        have hget {c : Cell} := finishMem_get off.2.1 node off.2.2 align (c := c)
        have hof := hoffset hdecoded
        refine ⟨⟨?_, ?_, ?_, ?_, ?_⟩, ?_⟩
        · exact (hget (by decide) (by decide)).trans hof.base
        · exact (hget (by decide) (by decide)).trans hof.regoff
        · exact (hget (by decide) (by decide)).trans hof.immoffDatatype
        · exact (hget (by decide) (by decide)).trans hof.immoffValue
        · exact (hget (by decide) (by decide)).trans hof.last
        · rw [hopcode] at halign
          rw [finishMem_alignement, alignmentOf, halign]
          rfl
    · cases h
  · rename_i hfailed
    exact absurd (congrArg Prod.fst h) hfailed

/-- The payload is kept just where the component that is decoded last leaves zeros in the bytes of
the datatype and the broadcasting. -/
theorem keepsPayload_iff (node : DbMem) :
    KeepsPayload db o node ↔
      ∀ base, node.base.component = .register base →
        decodes db o.internal.opcode (.mem node) = true →
          scratch db o.internal (lastComponent node base) = 0 := by
  have hdecodes := decodeArgMem_fst db (o := o) rfl node
  have hiff {base : DbAny} {r : Operand} (hbase : node.base.component = .register base)
      (h : decodeArgMem db o node = (true, r)) :
      MemoryPayload db o.internal node base r.argument ↔
        scratch db o.internal (lastComponent node base) = 0 := by
    obtain ⟨hstored, halign⟩ := decodeArgMem_stored db o hbase h
    have hoverlay := get_overlay_eq_zero_iff r.argument
    rw [hstored.last] at hoverlay
    constructor
    · intro hpayload
      exact hoverlay.mpr ⟨hpayload.datatype, hpayload.broadcastingFrom, hpayload.broadcastingTo⟩
    · intro hzero
      obtain ⟨hdatatype, hfrom, hto⟩ := hoverlay.mp hzero
      exact ⟨hstored.base, hstored.regoff, hstored.immoffDatatype, hstored.immoffValue, halign,
        hdatatype, hfrom, hto⟩
  constructor
  · intro hkeeps base hbase hdecoded
    have hrun : decodeArgMem db o node = (true, (decodeArgMem db o node).2) :=
      Prod.ext (hdecodes.trans hdecoded) rfl
    exact (hiff hbase hrun).mp (hkeeps base _ hbase hrun)
  · intro hscratch base r hbase hrun
    have hdecoded : decodes db o.internal.opcode (.mem node) = true := by
      rw [← hdecodes, hrun]
    exact (hiff hbase hrun).mpr (hscratch base hbase hdecoded)

/-- The entries of `LDA`: the field of its base and the record of `R1`. -/
def ldaTables : Db :=
  { Excerpt.tables with
    encodedins := fun index => if index = 3 then [⟨0x000f0000, 4⟩] else []
    reginfo := fun _ => { datatype := .i32, size := 32, isEven := false, isLast := false } }

/-- The memory operand of `LDA`. -/
def ldaMem : DbMem where
  read := true
  base := .base
    { symbol := .gpr32, read := true, upc := true, hasEncodedin := true, encodedin := 3 }
  size := some 32
  ldacc := .acquire

/-- `LDA R0, [R1]` is decoded with the number of `R1` as its datatype. -/
theorem not_keepsPayload_lda :
    ¬ KeepsPayload ldaTables ⟨{ Excerpt.blank with opcode := 0xe1910c9f }, default⟩ ldaMem := by
  intro h
  have hpayload := h _ _ rfl rfl
  exact absurd hpayload.datatype (by decide)

end Amed.AArch32

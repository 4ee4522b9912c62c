import Amed.AArch32.Effects
import Amed.AArch32.Excerpt

/-!
# Lists of extension registers

The registers that `decode_arg_fslist`, `decode_arg_fdlist` and `decode_arg_vlist` put in a list.

## Implementation notes

The three classes are adjacent in `amed_aarch32_register`. `decode_arg_vlist` stops at `Q16` only,
and its lists are made of `D` registers.
-/

namespace Amed.AArch32

/-! ## The classes -/

/-- The classes of extension registers. -/
inductive RegisterClass
  | s | d | q
  deriving DecidableEq, Repr

namespace RegisterClass

def first : RegisterClass → Nat
  | s => Register.s0
  | d => Register.d0
  | q => Register.q0

/-- The register behind the last one. -/
def limit : RegisterClass → Nat
  | s => Register.d0
  | d => Register.q0
  | q => Register.q16

def Mem (c : RegisterClass) (r : Nat) : Prop := c.first ≤ r ∧ r < c.limit

instance (c : RegisterClass) (r : Nat) : Decidable (c.Mem r) := inferInstanceAs (Decidable (_ ∧ _))

theorem limit_le (c : RegisterClass) : c.limit ≤ Register.q16 := by
  cases c <;> decide

theorem le_first (c : RegisterClass) : Register.s0 ≤ c.first := by
  cases c <;> decide

/-- No register is in two classes. -/
theorem Mem.unique {c c' : RegisterClass} {r : Nat} (h : c.Mem r) (h' : c'.Mem r) : c = c' := by
  obtain ⟨hfirst, hlimit⟩ := h
  obtain ⟨hfirst', hlimit'⟩ := h'
  cases c <;> cases c' <;>
    simp only [first, limit, Register.s0, Register.d0, Register.q0, Register.q16] at * <;> omega

end RegisterClass

/-! ## The nodes -/

/-- The register of the base of a `VLIST` or `ELIST`. -/
def DbImmReg.register? : DbImmReg → Option DbAny
  | .base node | .vbase node => some node
  | .ebase node => some node.reg
  | _ => none

/-- A node of one of the three kinds; `VLIST` and `ELIST` are decoded alike. -/
inductive RegisterList
  | fslist (node : DbFlist)
  | fdlist (node : DbFlist)
  | vlist (node : DbVlist)

/-- A base that encodes the number of a register of a class. -/
structure BaseRow (db : Db) (node : DbAny) (c : RegisterClass) : Prop where
  hasEncodedin : node.hasEncodedin = true
  pair : node.pair = false
  value : ∀ raw, decodeRegisterValue raw node.symbol = c.first + raw.toNat
  raw_lt : ∀ opcode, c.first + (rawValue db opcode node).toNat < c.limit

/-- A list of one to four registers, one or two apart. -/
structure VlistRow (db : Db) (node : DbVlist) (base : DbAny) : Prop where
  register : node.base.register? = some base
  row : BaseRow db base .d
  count_le : ∀ opcode d, decodeAny db opcode node.count = some d → d.value.toNat ≤ 4
  inc_le : ∀ opcode d, decodeAny db opcode node.inc = some d → d.value.toNat ≤ 2

namespace RegisterList

def decode (db : Db) (o : Operand) : RegisterList → Bool × Operand
  | fslist node => decodeArgFslist db o node
  | fdlist node => decodeArgFdlist db o node
  | vlist node => decodeArgVlist db o node

def base : RegisterList → DbAny
  | fslist node | fdlist node => node.base
  | vlist node => node.base.register?.getD {}

def registerClass : RegisterList → RegisterClass
  | fslist _ => .s
  | fdlist _ | vlist _ => .d

/-- What the generated tables hold for a list. -/
def InTables (db : Db) : RegisterList → Prop
  | fslist node => BaseRow db node.base .s
  | fdlist node => BaseRow db node.base .d
  | vlist node => ∃ base, VlistRow db node base

variable (db : Db) (opcode : BitVec 32)

/-- The encoded first register, count and increment. -/
def first (list : RegisterList) : Nat :=
  list.registerClass.first + (rawValue db opcode list.base).toNat

def count : RegisterList → Nat
  | fslist node => (decodeAny db opcode node.count).elim 0 fun d => d.value.toNat
  | fdlist node => (decodeAny db opcode node.count).elim 0 fun d => d.value.toNat / 2
  | vlist node => (decodeAny db opcode node.count).elim 0 fun d => d.value.toNat

def inc : RegisterList → Nat
  | fslist _ | fdlist _ => 1
  | vlist node => (decodeAny db opcode node.inc).elim 1 fun d => d.value.toNat

end RegisterList

/-- The registers of a list are those that are encoded, as far as the class goes. -/
structure ListSound (db : Db) (list : RegisterList) (o o' : Operand) : Prop where
  sequence : ∀ i < o'.argument.get Cell.listCount, o'.argument.get (Cell.listRegister i) =
    list.first db o.internal.opcode + i * list.inc db o.internal.opcode
  sameClass : ∀ i < o'.argument.get Cell.listCount, ∀ c : RegisterClass,
    c.Mem (list.first db o.internal.opcode) → c.Mem (o'.argument.get (Cell.listRegister i))
  number : o'.argument.get Cell.listCount = list.count db o.internal.opcode ∨
    o'.internal.insn.attributes.isUnpredictable = true
  beyond : ∀ i < list.count db o.internal.opcode, ∀ c : RegisterClass,
    c.Mem (list.first db o.internal.opcode) →
      ¬c.Mem (list.first db o.internal.opcode + i * list.inc db o.internal.opcode) →
        o'.internal.insn.attributes.isUnpredictable = true

/-! ## The loops -/

theorem get_put_listRegister (a : Argument) (i j : Nat) {v : Nat} (hv : v < Register.q16) :
    (a.put (Cell.listRegister j) v).get (Cell.listRegister i) =
      if i = j then v else a.get (Cell.listRegister i) := by
  split
  · rename_i heq
    rw [heq, Argument.get_put]
    have hwidth : Register.q16 < 256 ^ 2 := by decide
    exact Nat.mod_eq_of_lt (Nat.lt_trans hv hwidth)
  · rename_i hne
    exact Argument.get_put_apart _ _ (Cell.listRegister_apart hne)

/-- The registers up to the boundary are put in the list. -/
theorem fillRun_eq {boundary : Nat} (hboundary : boundary ≤ Register.q16) (count : Nat) :
    ∀ (i base : Nat) (a : Argument), base ≤ boundary →
      (fillRun boundary count i base a).2 =
          (i + min count (boundary - base), decide (boundary - base < count)) ∧
        ∀ k, (fillRun boundary count i base a).1.get (Cell.listRegister k) =
          if i ≤ k ∧ k < i + min count (boundary - base) then base + (k - i)
          else a.get (Cell.listRegister k) := by
  induction count with
  | zero =>
      intro i base a hle
      refine ⟨by simp [fillRun], fun k => ?_⟩
      rw [Nat.zero_min, Nat.add_zero, if_neg (by omega), fillRun]
  | succ count ih =>
      intro i base a hle
      rw [fillRun]
      by_cases heq : base = boundary
      · rw [if_pos heq, heq, Nat.sub_self, Nat.min_zero, Nat.add_zero]
        refine ⟨by simp, fun k => ?_⟩
        rw [if_neg (by omega)]
      · obtain ⟨hcount, hregisters⟩ := ih (i + 1) (base + 1) (a.put (Cell.listRegister i) base)
          (by omega)
        rw [if_neg heq, hcount]
        refine ⟨?_, fun k => ?_⟩
        · have hnumber : i + 1 + min count (boundary - (base + 1)) =
              i + min (count + 1) (boundary - base) := by omega
          have hmore : boundary - (base + 1) < count ↔ boundary - base < count + 1 := by omega
          simp only [hnumber, hmore]
        · rw [hregisters, get_put_listRegister _ _ _ (by omega)]
          split <;> split <;> (try split) <;> omega

/-- Where `Q16` is not reached, all the registers are put in the list. -/
theorem fillVlist_eq {base inc : BitVec 32} (count : Nat) :
    ∀ (i : Nat) (j : BitVec 32) (a : Argument),
      base.toNat + j.toNat + count * inc.toNat < Register.q16 →
      (fillVlist base inc count i j a).2 = (i + count, false) ∧
        ∀ k, (fillVlist base inc count i j a).1.get (Cell.listRegister k) =
          if i ≤ k ∧ k < i + count then base.toNat + j.toNat + (k - i) * inc.toNat
          else a.get (Cell.listRegister k) := by
  induction count with
  | zero =>
      intro i j a hend
      refine ⟨rfl, fun k => ?_⟩
      rw [Nat.add_zero, if_neg (by omega), fillVlist]
  | succ count ih =>
      intro i j a hend
      have hq16 : Register.q16 = 97 := rfl
      rw [Nat.succ_mul] at hend
      have hreg : (base + j).toNat = base.toNat + j.toNat := by
        rw [BitVec.toNat_add, Nat.mod_eq_of_lt (by omega)]
      have hnext : (j + inc).toNat = j.toNat + inc.toNat := by
        rw [BitVec.toNat_add, Nat.mod_eq_of_lt (by omega)]
      obtain ⟨hcount, hregisters⟩ := ih (i + 1) (j + inc)
        (a.put (Cell.listRegister i) (base + j).toNat) (by omega)
      rw [fillVlist, if_neg (by omega), hcount]
      refine ⟨by rw [Nat.add_right_comm, Nat.add_assoc], fun k => ?_⟩
      rw [hregisters, get_put_listRegister _ _ _ (by omega), hreg, hnext]
      by_cases hk : k = i
      · subst hk
        rw [if_neg (by omega), if_pos rfl, if_pos (by omega), Nat.sub_self, Nat.zero_mul,
          Nat.add_zero]
      · by_cases hin : i + 1 ≤ k ∧ k < i + 1 + count
        · obtain ⟨m, rfl⟩ := Nat.exists_eq_add_of_le hin.1
          rw [if_pos hin, if_pos (by omega), Nat.add_sub_cancel_left,
            (by omega : i + 1 + m - i = m + 1), Nat.succ_mul]
          omega
        · rw [if_neg hin, if_neg hk, if_neg (by omega)]

/-! ## The first register -/

variable {db : Db}

theorem decodeArgReg_base {node : DbAny} {c : RegisterClass} (h : BaseRow db node c) (o : Operand) :
    (decodeArgReg db o node).1 = true ∧
      (decodeArgReg db o node).2.argument.get Cell.regValue =
        c.first + (rawValue db o.internal.opcode node).toNat := by
  have hvalue : (registerOf db o.internal.opcode node).1 =
      c.first + (rawValue db o.internal.opcode node).toNat := by
    simp [registerOf, h.hasEncodedin, h.pair, h.value]
  have hlow := c.le_first
  have hhigh := Nat.lt_of_lt_of_le (h.raw_lt o.internal.opcode) c.limit_le
  have hs0 : Register.s0 = 17 := rfl
  have hq16 : Register.q16 = 97 := rfl
  have hpc : ¬c.first + (rawValue db o.internal.opcode node).toNat = Register.pc :=
    fun heq => absurd (heq ▸ Nat.le_trans hlow (Nat.le_add_right _ _)) (by decide)
  have hsp : ¬c.first + (rawValue db o.internal.opcode node).toNat = Register.sp :=
    fun heq => absurd (heq ▸ Nat.le_trans hlow (Nat.le_add_right _ _)) (by decide)
  rw [decodeArgReg]
  dsimp only
  rw [hvalue, if_neg hpc, if_neg (not_and_of_not_left _ hsp)]
  refine ⟨rfl, (Argument.get_put _ _ _).trans (Nat.mod_eq_of_lt ?_)⟩
  calc c.first + (rawValue db o.internal.opcode node).toNat < Register.q16 := hhigh
    _ ≤ 256 ^ Cell.regValue.width := by decide

theorem regValue_andThen {r : Bool × Operand} {next : Operand → Bool × Operand}
    (hnext : (next r.2).2.argument.get Cell.regValue = r.2.argument.get Cell.regValue) :
    (Operand.andThen r next).2.argument.get Cell.regValue = r.2.argument.get Cell.regValue := by
  rw [Operand.andThen]
  split
  · exact hnext
  · rfl

/-- Neither the vector mark nor the index changes the register. -/
theorem decodeAnynymousImmreg_base {node : DbVlist} {base : DbAny} (h : VlistRow db node base)
    (o : Operand) :
    (decodeAnynymousImmreg db o node.base).2.argument.get Cell.regValue =
      Register.d0 + (rawValue db o.internal.opcode base).toNat := by
  have hregister := h.register
  have hbase := (decodeArgReg_base h.row o).2
  cases himm : node.base with
  | base reg =>
      rw [himm] at hregister
      cases hregister
      exact hbase
  | vbase reg =>
      rw [himm] at hregister
      cases hregister
      rw [decodeAnynymousImmreg, decodeArgVreg, regValue_andThen rfl]
      exact hbase
  | ebase reg =>
      rw [himm] at hregister
      cases hregister
      rw [decodeAnynymousImmreg, decodeArgEreg, regValue_andThen]
      · exact hbase
      · split
        · rfl
        · exact Argument.get_put_apart _ _ (by decide)
  | regoff _ | regoffsh _ | immoff _ | immoffsh _ =>
      rw [himm] at hregister
      cases hregister

/-! ## The lists -/

/-- The list of an argument is a sequence of so many registers. -/
structure Listed (a : Argument) (n first inc : Nat) : Prop where
  count : a.get Cell.listCount = n
  register : ∀ i < n, a.get (Cell.listRegister i) = first + i * inc

/-- The count stands behind the registers. -/
theorem listed_put {a : Argument} {n first inc : Nat} (hn : n ≤ 32)
    (h : ∀ i < n, a.get (Cell.listRegister i) = first + i * inc) :
    Listed (a.put Cell.listCount n) n first inc := by
  refine ⟨(Argument.get_put _ _ _).trans (Nat.mod_eq_of_lt ?_), fun i hi => ?_⟩
  · have hwidth : 32 < 256 ^ Cell.listCount.width := by decide
    exact Nat.lt_of_le_of_lt hn hwidth
  · rw [Argument.get_put_apart, h i hi]
    simp only [Cell.listRegister, Cell.listCount, Bytes.Cell.Apart]
    omega

/-- What the loops of `decode_arg_fslist` and `decode_arg_fdlist` make of a count. -/
theorem decodeArgFlist_listed {c : RegisterClass} {node : DbFlist} (h : BaseRow db node.base c)
    (f : Nat → Nat) {o : Operand} {d : Decoded}
    (hcount : decodeAny db o.internal.opcode node.count = some d) :
    Listed (decodeArgFlist db c.limit f o node).2.argument
        (min (f d.value.toNat) (c.limit -
          (c.first + (rawValue db o.internal.opcode node.base).toNat)))
        (c.first + (rawValue db o.internal.opcode node.base).toNat) 1 ∧
      (c.limit - (c.first + (rawValue db o.internal.opcode node.base).toNat) < f d.value.toNat →
        (decodeArgFlist db c.limit f o node).2.internal.insn.attributes.isUnpredictable =
          true) := by
  obtain ⟨hok, hbase⟩ := decodeArgReg_base h o
  have hopcode := (decodeArgReg_touched db o node.base).opcode
  have hwidth : c.limit - (c.first + (rawValue db o.internal.opcode node.base).toNat) ≤ 32 := by
    cases c <;> simp only [RegisterClass.limit, RegisterClass.first, Register.s0, Register.d0,
      Register.q0, Register.q16] <;> omega
  obtain ⟨hfill, hregisters⟩ := fillRun_eq c.limit_le (f d.value.toNat) 0
    (c.first + (rawValue db o.internal.opcode node.base).toNat)
    (decodeArgReg db o node.base).2.argument (Nat.le_of_lt (h.raw_lt _))
  rw [Nat.zero_add] at hfill
  have hnumber := congrArg Prod.fst hfill
  have hbeyond := congrArg Prod.snd hfill
  dsimp only at hnumber hbeyond
  rw [decodeArgFlist, Operand.andThen, if_pos hok, hopcode, hcount]
  dsimp only
  rw [hbase, hnumber, hbeyond]
  constructor
  · have hlisted := listed_put (Nat.le_trans (Nat.min_le_right (f d.value.toNat) _) hwidth)
      fun i hi => by rw [hregisters, if_pos (by omega), Nat.sub_zero, Nat.mul_one]
    exact ⟨hlisted.count, hlisted.register⟩
  · intro hlt
    simp [Operand.mark, hlt]

/-- A list of `D` registers never reaches `Q16`. -/
theorem decodeArgVlist_listed {node : DbVlist} {base : DbAny} (h : VlistRow db node base)
    {o : Operand} (hok : (decodeArgVlist db o node).1 = true) {count inc : Decoded}
    (hcount : decodeAny db o.internal.opcode node.count = some count)
    (hinc : decodeAny db o.internal.opcode node.inc = some inc) :
    Listed (decodeArgVlist db o node).2.argument count.value.toNat
      (Register.d0 + (rawValue db o.internal.opcode base).toNat) inc.value.toNat := by
  have hopcode := (decodeAnynymousImmreg_touched db o node.base).opcode
  have hbase := decodeAnynymousImmreg_base h o
  have hraw : Register.d0 + (rawValue db o.internal.opcode base).toNat < Register.q0 :=
    h.row.raw_lt o.internal.opcode
  have hfew := h.count_le _ _ hcount
  have hnear := h.inc_le _ _ hinc
  have hq0 : Register.q0 = 81 := rfl
  have hq16 : Register.q16 = 97 := rfl
  have hend : count.value.toNat * inc.value.toNat ≤ 4 * 2 := Nat.mul_le_mul hfew hnear
  have hfirst : (BitVec.ofNat 32 (Register.d0 + (rawValue db o.internal.opcode base).toNat)).toNat =
      Register.d0 + (rawValue db o.internal.opcode base).toNat :=
    Nat.mod_eq_of_lt (by omega)
  have hzero : (0 : BitVec 32).toNat = 0 := rfl
  have hbound : (BitVec.ofNat 32 (Register.d0 + (rawValue db o.internal.opcode base).toNat)).toNat +
      (0 : BitVec 32).toNat + count.value.toNat * inc.value.toNat < Register.q16 := by
    rw [hfirst, hzero]
    omega
  rw [decodeArgVlist, Operand.andThen_fst, Bool.and_eq_true] at hok
  rw [decodeArgVlist, Operand.andThen, if_pos hok.1, hopcode, hcount]
  dsimp only
  rw [hinc, hbase]
  dsimp only
  obtain ⟨hfill, hregisters⟩ := fillVlist_eq count.value.toNat 0 0
    ((decodeAnynymousImmreg db o node.base).2.argument.put Cell.listIndex
      ((decodeAnynymousImmreg db o node.base).2.argument.get Cell.regIndex)) hbound
  have hnumber := congrArg Prod.fst hfill
  dsimp only at hnumber
  rw [hnumber, Nat.zero_add]
  have hlisted := listed_put (Nat.le_trans hfew (by decide)) fun i hi => by
    rw [hregisters, if_pos (by omega), hfirst, hzero, Nat.add_zero, Nat.sub_zero]
  exact ⟨hlisted.count, hlisted.register⟩

/-! ## The condition -/

theorem listSound_of_listed {list : RegisterList} {o o' : Operand} {n : Nat}
    (hlisted : Listed o'.argument n (list.first db o.internal.opcode)
      (list.inc db o.internal.opcode))
    (hclass : ∀ i < n, list.registerClass.Mem
      (list.first db o.internal.opcode + i * list.inc db o.internal.opcode))
    (hfirst : list.registerClass.Mem (list.first db o.internal.opcode))
    (hnumber : n = list.count db o.internal.opcode ∨
      o'.internal.insn.attributes.isUnpredictable = true ∧
        n < list.count db o.internal.opcode) :
    ListSound db list o o' where
  sequence i hi := hlisted.register i (hlisted.count ▸ hi)
  sameClass i hi c hc := by
    rw [hc.unique hfirst, hlisted.register i (hlisted.count ▸ hi)]
    exact hclass i (hlisted.count ▸ hi)
  number := by
    rw [hlisted.count]
    exact hnumber.imp_right And.left
  beyond i hi c hc hout := by
    rcases hnumber with hall | ⟨hflag, -⟩
    · rw [hc.unique hfirst] at hout
      exact absurd (hclass i (hall ▸ hi)) hout
    · exact hflag

/-- The last encoded register is in the class, unless the loop looks for the end of the class. -/
def RegisterList.Fits (db : Db) (opcode : BitVec 32) : RegisterList → Prop
  | fslist _ | fdlist _ => True
  | vlist node => (vlist node).first db opcode +
      ((vlist node).count db opcode - 1) * (vlist node).inc db opcode < Register.q0

/-- The end of the class is found. -/
theorem listSound_flist {c : RegisterClass} {node : DbFlist} (h : BaseRow db node.base c)
    (f : Nat → Nat) {o : Operand} (hok : (decodeArgFlist db c.limit f o node).1 = true)
    {list : RegisterList} (hclass : list.registerClass = c) (hbase : list.base = node.base)
    (hinc : list.inc db o.internal.opcode = 1)
    (hcount : list.count db o.internal.opcode =
      (decodeAny db o.internal.opcode node.count).elim 0 fun d => f d.value.toNat) :
    ListSound db list o (decodeArgFlist db c.limit f o node).2 := by
  rw [decodeArgFlist_fst db rfl, Bool.and_eq_true] at hok
  obtain ⟨d, hd⟩ := Option.isSome_iff_exists.1 hok.2
  obtain ⟨hlisted, hbeyond⟩ := decodeArgFlist_listed h f hd
  have hfirst : list.first db o.internal.opcode =
      c.first + (rawValue db o.internal.opcode node.base).toNat := by
    rw [RegisterList.first, hclass, hbase]
  have hlt := h.raw_lt o.internal.opcode
  rw [← hfirst] at hlisted hbeyond hlt
  rw [hd, Option.elim_some] at hcount
  rw [← hcount] at hlisted hbeyond
  rw [← hinc] at hlisted
  apply listSound_of_listed hlisted
  · intro i hi
    rw [hclass, hinc]
    constructor <;> omega
  · rw [hclass]
    constructor <;> omega
  · by_cases hmore : c.limit - list.first db o.internal.opcode < list.count db o.internal.opcode
    · exact Or.inr ⟨hbeyond hmore, by omega⟩
    · exact Or.inl (by omega)

theorem listSound_vlist_iff {node : DbVlist} {base : DbAny} (h : VlistRow db node base)
    {o : Operand} (hok : (decodeArgVlist db o node).1 = true) :
    ListSound db (.vlist node) o (decodeArgVlist db o node).2 ↔
      (RegisterList.vlist node).Fits db o.internal.opcode := by
  have hdecodes := hok
  rw [decodeArgVlist_fst db rfl, decodes, Bool.and_eq_true, Bool.and_eq_true] at hdecodes
  obtain ⟨count, hcount⟩ := Option.isSome_iff_exists.1 hdecodes.2.1
  obtain ⟨inc, hinc⟩ := Option.isSome_iff_exists.1 hdecodes.2.2
  have hbase : (RegisterList.vlist node).base = base := by
    rw [RegisterList.base, h.register, Option.getD_some]
  have hfirst : (RegisterList.vlist node).first db o.internal.opcode =
      Register.d0 + (rawValue db o.internal.opcode base).toNat := by
    rw [RegisterList.first, hbase]
    rfl
  have hnumber : (RegisterList.vlist node).count db o.internal.opcode = count.value.toNat := by
    rw [RegisterList.count, hcount, Option.elim_some]
  have hstep : (RegisterList.vlist node).inc db o.internal.opcode = inc.value.toNat := by
    rw [RegisterList.inc, hinc, Option.elim_some]
  have hlisted := decodeArgVlist_listed h hok hcount hinc
  have hraw : Register.d0 + (rawValue db o.internal.opcode base).toNat < Register.q0 :=
    h.row.raw_lt o.internal.opcode
  have hmem : RegisterClass.d.Mem (Register.d0 + (rawValue db o.internal.opcode base).toNat) :=
    ⟨Nat.le_add_right _ _, hraw⟩
  rw [RegisterList.Fits, hfirst, hnumber, hstep]
  constructor
  · intro hsound
    rcases Nat.eq_zero_or_pos count.value.toNat with hnone | hpos
    · rwa [hnone, Nat.zero_sub, Nat.zero_mul, Nat.add_zero]
    · -- the last register is that of the last index
      have hlast : count.value.toNat - 1 < count.value.toNat := Nat.sub_one_lt_of_lt hpos
      have hin : count.value.toNat - 1 <
          (decodeArgVlist db o node).2.argument.get Cell.listCount := by
        rw [hlisted.count]
        exact hlast
      have hclass := hsound.sameClass _ hin .d (hfirst ▸ hmem)
      rw [hlisted.register _ hlast] at hclass
      exact hclass.2
  · intro hend
    rw [← hfirst, ← hstep] at hlisted
    apply listSound_of_listed hlisted
    · intro i hi
      rw [hfirst, hstep]
      refine ⟨Nat.le_trans (Nat.le_add_right _ _) (Nat.le_add_right _ _), ?_⟩
      calc Register.d0 + (rawValue db o.internal.opcode base).toNat + i * inc.value.toNat
          ≤ Register.d0 + (rawValue db o.internal.opcode base).toNat +
              (count.value.toNat - 1) * inc.value.toNat :=
            Nat.add_le_add_left (Nat.mul_le_mul_right _ (by omega)) _
        _ < Register.q0 := hend
    · rw [hfirst]
      exact hmem
    · exact Or.inl hnumber.symm

/-- Where the list of an operand is right. -/
theorem listSound_iff (list : RegisterList) (htables : list.InTables db) (o : Operand)
    (hok : (list.decode db o).1 = true) :
    ListSound db list o (list.decode db o).2 ↔ list.Fits db o.internal.opcode := by
  cases list with
  | fslist node => exact iff_of_true (listSound_flist htables id hok rfl rfl rfl rfl) trivial
  | fdlist node => exact iff_of_true (listSound_flist htables (· / 2) hok rfl rfl rfl rfl) trivial
  | vlist node =>
      obtain ⟨base, hrow⟩ := htables
      exact listSound_vlist_iff hrow hok

/-! ## The list of `VLD1` -/

namespace ListExcerpt

/-- The row D:Vd. -/
def tables : Db :=
  { Excerpt.tables with
    encodedins := fun i => if i = 112 then [⟨0x0040f000, 5⟩, ⟨0, 0⟩] else Excerpt.encodedins i }

def vbase : DbAny :=
  { symbol := .simd64, datatype := .i8, write := true, hasEncodedin := true, encodedin := 112 }

/-- The registers of `VLD1.8` with two of them. -/
def vlist : DbVlist where
  base := .vbase vbase
  count := { symbol := .other, value := 2 }
  inc := { symbol := .other, value := 1 }

def operand (opcode : BitVec 32) : Operand where
  internal := { Excerpt.blank with opcode := opcode }
  argument := default

theorem readsFields_vd : ReadsFields ⟨0x0040f000, 5⟩ [⟨22, 1⟩, ⟨12, 4⟩] := by
  refine ⟨by decide, by decide, fun w => ?_⟩
  have hmask : (0x0040f000 : BitVec 32).toNat =
      (⟨22, 1⟩ : BitFields.Field).mask ||| (⟨12, 4⟩ : BitFields.Field).mask := by
    decide
  rw [hmask, BitFields.gather_or_mask (BitFields.Field.below_mask (by decide)) (by decide),
    BitFields.gather_mask (by decide)]
  simp [BitFields.concat]

theorem vlistRow : VlistRow tables vlist vbase where
  register := rfl
  row := {
    hasEncodedin := rfl
    pair := rfl
    value := fun _ => rfl
    raw_lt := fun opcode => by
      have hread := readPieces_eq (.cons readsFields_vd .nil) [] opcode [] (by decide) 0 rfl
      have hraw : (rawValue tables opcode vbase).toNat < 2 ^ 5 := by
        rw [rawValue]
        exact hread.1 ▸ BitFields.concat_lt _ _
      change 49 + _ < 81
      omega }
  count_le _ d hd := by
    cases hd
    decide
  inc_le _ d hd := by
    cases hd
    decide

end ListExcerpt

open ListExcerpt in
/-- `VLD1.8 {D0, D1}, [R0]`. -/
theorem listSound_iff_vld1 :
    ListSound tables (.vlist vlist) (operand 0xf4200a0f)
        ((RegisterList.vlist vlist).decode tables (operand 0xf4200a0f)).2 ↔
      (RegisterList.vlist vlist).Fits tables 0xf4200a0f :=
  listSound_iff (.vlist vlist) ⟨vbase, vlistRow⟩ (operand 0xf4200a0f) (by decide +kernel)

open ListExcerpt in
/-- `VLD1.8 {D31, …}, [R0]` with two registers: the second one is `Q0`. -/
theorem not_listSound_vld1 : ¬∀ (db : Db) (list : RegisterList) (o : Operand),
    list.InTables db → (list.decode db o).1 = true → ListSound db list o (list.decode db o).2 := by
  intro h
  have hsound := h tables (.vlist vlist) (operand 0xf460fa0f) ⟨vbase, vlistRow⟩ (by decide +kernel)
  have hclass := hsound.sameClass 1 (by decide +kernel) .d (by decide +kernel)
  revert hclass
  decide +kernel

end Amed.AArch32

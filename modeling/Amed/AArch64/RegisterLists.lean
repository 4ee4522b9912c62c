import Amed.AArch64.Excerpt

/-!
# Lists of vector registers

The registers that `decode_arg_vlist` and `decode_arg_elist` put in a list.

## Implementation notes

The list lies over the register and the index it is decoded from, so the loop is described by the
cells it leaves alone as well. `list.index` is a byte.
-/

namespace Amed.AArch64

/-! ## The classes -/

/-- The classes of registers that lists are made of. -/
inductive ListClass
  | v | z
  deriving DecidableEq, Repr

namespace ListClass

def symbol : ListClass → Symbol
  | v => .vecreg
  | z => .svereg

def first : ListClass → Nat
  | v => Register.v0
  | z => Register.z0

/-- The register of a class with a number, counted around its 32 registers. -/
def register (c : ListClass) (number : Nat) : Nat := c.first + number % 32

theorem listBoundary_symbol (c : ListClass) :
    listBoundary c.symbol = some (c.first, c.first + 31) := by
  cases c <;> rfl

theorem register_lt (c : ListClass) (number : Nat) : c.register number < 256 ^ 2 := by
  have hmod := Nat.mod_lt number (by decide : 0 < 32)
  cases c <;> simp only [register, first, Register.v0, Register.z0] <;> omega

/-- One turn of the loop goes to the next number. -/
theorem next_register (c : ListClass) (number : Nat) :
    (if c.register number + 1 = 1 + (c.first + 31) then c.first else c.register number + 1) =
      c.register (number + 1) := by
  unfold register
  split <;> omega

end ListClass

/-! ## The loop -/

/-- A cell that shares no byte with the registers stored keeps its value. -/
theorem fillList_get_apart (first last count i base : Nat) (a : Argument) {cell : Bytes.Cell}
    (h : ∀ j, i ≤ j → j < i + count → cell.Apart (Cell.listRegister j)) :
    (fillList first last count i base a).get cell = a.get cell := by
  induction count generalizing i base a with
  | zero => rfl
  | succ count ih =>
      have hrest (j : Nat) (hj : i + 1 ≤ j) (hlt : j < i + 1 + count) :
          cell.Apart (Cell.listRegister j) := h j (by omega) (by omega)
      rw [fillList, ih (i + 1) _ _ hrest]
      exact Argument.get_put_apart a base (h i (Nat.le_refl i) (by omega))

/-- The registers stored are consecutive around the class. -/
theorem fillList_get (c : ListClass) (count i number : Nat) (a : Argument) {k : Nat}
    (hk : k < count) :
    (fillList c.first (c.first + 31) count i (c.register number) a).get
        (Cell.listRegister (i + k)) = c.register (number + k) := by
  induction count generalizing i number a k with
  | zero => omega
  | succ count ih =>
      rw [fillList, c.next_register]
      cases k with
      | zero =>
          have hapart (j : Nat) (hj : i + 1 ≤ j) (_ : j < i + 1 + count) :
              (Cell.listRegister i).Apart (Cell.listRegister j) :=
            Cell.listRegister_apart (by omega)
          have hput : (a.put (Cell.listRegister i) (c.register number)).get (Cell.listRegister i) =
              c.register number :=
            (Argument.get_put a _ _).trans (Nat.mod_eq_of_lt (c.register_lt number))
          exact (fillList_get_apart _ _ count (i + 1) _ _ hapart).trans hput
      | succ k =>
          have hstep := ih (i + 1) (number + 1) (a.put (Cell.listRegister i) (c.register number))
            (Nat.lt_of_succ_lt_succ hk)
          rwa [Nat.add_right_comm i 1 k, Nat.add_right_comm number 1 k] at hstep

/-! ## The list -/

/-- What a list holds: `count` registers of the class, counted on from `number` around its end, and
the index that was decoded with the first one. -/
structure HoldsList (c : ListClass) (number count index : Nat) (a : Argument) : Prop where
  type : a.type = .list
  length : a.get Cell.listCount = count
  registers : ∀ k < count, a.get (Cell.listRegister k) = c.first + (number + k) % 32
  index : a.get Cell.listIndex = index % 2 ^ 8

variable (db : Db) (o : Operand) (node : DbList)

theorem HoldsList.of_payload {c : ListClass} {number count index : Nat} {a b : Argument}
    (h : HoldsList c number count index a) (htype : b.type = a.type)
    (hpayload : b.payload = a.payload) : HoldsList c number count index b := by
  have hget (cell : Bytes.Cell) : b.get cell = a.get cell := by rw [Argument.get, hpayload]; rfl
  refine ⟨htype.trans h.type, ?_, fun k hk => ?_, ?_⟩
  · rw [hget, h.length]
  · rw [hget, h.registers k hk]
  · rw [hget, h.index]

/-- The loop and what is stored around it. -/
theorem fillList_holds (c : ListClass) (number : Nat) {count : Nat} (hcount : count ≤ 32)
    (a : Argument) (index : Nat) :
    HoldsList c number count index
      { (fillList c.first (c.first + 31) count 0 (c.register number)
          (a.put Cell.listIndex index)).put Cell.listCount count with type := .list } := by
  have hregisters (j : Nat) (hj : j < 32) : (Cell.listRegister j).Apart Cell.listCount := by
    simp only [Cell.listRegister, Cell.listCount, Bytes.Cell.Apart]
    omega
  have hindex (j : Nat) (_ : 0 ≤ j) (hj : j < 0 + count) :
      Cell.listIndex.Apart (Cell.listRegister j) := by
    simp only [Cell.listRegister, Cell.listIndex, Bytes.Cell.Apart]
    omega
  refine HoldsList.of_payload (a := ({ fillList c.first (c.first + 31) count 0
    (c.register number) (a.put Cell.listIndex index) with type := .list } : Argument).put
      Cell.listCount count) ⟨rfl, ?_, fun k hk => ?_, ?_⟩ rfl rfl
  · rw [Argument.get_put]
    exact Nat.mod_eq_of_lt (hcount.trans_lt (by decide))
  · have hget := fillList_get c count 0 number (a.put Cell.listIndex index) hk
    rw [Argument.get_put_apart _ _ (hregisters k (by omega))]
    rwa [Nat.zero_add] at hget
  · rw [Argument.get_put_apart _ _ (by decide)]
    exact (fillList_get_apart _ _ count 0 _ _ hindex).trans (Argument.get_put a _ _)

/-- `decode_arg_vlist` behind its base. -/
theorem decodeArgVlist_eq {c : ListClass} {base : Operand} {number : Nat}
    (hbase : decodeAnynymousImmreg db o (.base node.base) = (true, base)) (hnumber : number < 32)
    (hregister : base.argument.get Cell.regValue = c.first + number)
    (hsymbol : (db.reginfo (c.first + number)).symbol = c.symbol) :
    decodeArgVlist db o node =
      (true, { base with argument := { ((fillList c.first (c.first + 31)
        (node.count.value.toNat % 2 ^ 16) 0 (c.register number)
        (base.argument.put Cell.listIndex (base.argument.get Cell.regIndex))).put Cell.listCount
          (node.count.value.toNat % 2 ^ 16)) with type := .list } }) := by
  have hfirst : c.register number = c.first + number := by
    rw [ListClass.register, Nat.mod_eq_of_lt hnumber]
  simp only [decodeArgVlist, hbase, Operand.andThen, if_true, hregister, hsymbol,
    c.listBoundary_symbol, hfirst]

/-- The index of an element base is the one its node encodes. -/
theorem decodeArgEreg_index {ereg : DbEreg} {base : Operand} {idx : Decoded}
    (hbase : decodeArgEreg db o ereg = (true, base))
    (hidx : decodeAny db o.internal.opcode ereg.idx = some idx) :
    base.argument.get Cell.regIndex = idx.value.toNat := by
  have hopcode : (decodeArgReg db o ereg.reg).2.internal.opcode = o.internal.opcode := rfl
  have hreg : (decodeArgReg db o ereg.reg).1 = true := rfl
  simp only [decodeArgEreg, Operand.andThen, hreg, if_true, hopcode, hidx] at hbase
  cases hbase
  exact (Argument.get_put _ Cell.regIndex _).trans (Nat.mod_eq_of_lt idx.value.isLt)

/-- `decode_arg_vlist` and `decode_arg_elist` fill a list with exactly the registers of the class
that follow the base around its end, and leave the index that was decoded with the base. -/
theorem registerList_wraps (c : ListClass) (base : Operand) (number : Nat)
    (hbase : decodeAnynymousImmreg db o (.base node.base) = (true, base)) (hnumber : number < 32)
    (hregister : base.argument.get Cell.regValue = c.first + number)
    (hsymbol : (db.reginfo (c.first + number)).symbol = c.symbol)
    (hcount : node.count.value.toNat % 2 ^ 16 ≤ 32) :
    (decodeArgVlist db o node).1 = true ∧ (decodeArgElist db o node).1 = true ∧
      HoldsList c number (node.count.value.toNat % 2 ^ 16) (base.argument.get Cell.regIndex)
        (decodeArgVlist db o node).2.argument ∧
      HoldsList c number (node.count.value.toNat % 2 ^ 16) (base.argument.get Cell.regIndex)
        (decodeArgElist db o node).2.argument ∧
      ∀ ereg idx, node.base = .ebase ereg → decodeAny db o.internal.opcode ereg.idx = some idx →
        (decodeArgElist db o node).2.argument.get Cell.listIndex = idx.value.toNat % 2 ^ 8 := by
  have hvlist := decodeArgVlist_eq db o node hbase hnumber hregister hsymbol
  have hholds := fillList_holds c number hcount base.argument
    (base.argument.get Cell.regIndex)
  have helist : decodeArgElist db o node =
      (true, { (decodeArgVlist db o node).2 with argument :=
        { (decodeArgVlist db o node).2.argument with attributes.isVector := false } }) := by
    rw [decodeArgElist, hvlist]
    rfl
  have hvholds : HoldsList c number (node.count.value.toNat % 2 ^ 16)
      (base.argument.get Cell.regIndex) (decodeArgVlist db o node).2.argument := by
    rw [hvlist]
    exact hholds
  have heholds : HoldsList c number (node.count.value.toNat % 2 ^ 16)
      (base.argument.get Cell.regIndex) (decodeArgElist db o node).2.argument := by
    rw [helist]
    exact hvholds.of_payload rfl rfl
  refine ⟨by rw [hvlist], by rw [helist], hvholds, heholds, fun ereg idx hereg hidx => ?_⟩
  have hdecoded : decodeArgEreg db o ereg = (true, base) := by rw [← hbase, hereg]; rfl
  rw [heholds.index, decodeArgEreg_index db o hdecoded hidx]

/-! ## An element list around the end of its class -/

/-- The excerpt with the index of a byte element and the vector registers. -/
def listTables : Db :=
  { Excerpt.tables with
    encodedins := fun i => if i = 124 then [⟨0x40001c00, 4⟩] else Excerpt.encodedins i
    reginfo := fun value =>
      { symbol := if Register.v0 ≤ value ∧ value ≤ Register.v31 then .vecreg else .none
        size := 128, isEven := value % 2 = 0, isLast := value = Register.v31 } }

/-- The list of four of `LD4` with byte elements. -/
def listNode : DbList :=
  { base := .ebase
      { reg := { symbol := .vecreg, datatype := .i8, write := true, hasEncodedin := true
                 encodedin := 1 }
        vdt := .b, idx := { hasEncodedin := true, encodedin := 124 } }
    count := { value := 4 } }

/-- `LD4 {V30.B, V31.B, V0.B, V1.B}[7], [X0]` in front of its list. -/
def listOperand : Operand :=
  { internal :=
      { insn := default, context := default, encoding := 0, ptemplate := 0, opcode := 0x0d603c1e
        datasize := 0, lsb := 0, dstReg := 0, hasReg := false }
    argument := clearArgument default }

/-- The four registers go around the end, and the index stays 7. -/
theorem registerList_wraps_v30 :
    (decodeAnynymousImmreg listTables listOperand (.base listNode.base)).1 = true ∧
      (decodeArgElist listTables listOperand listNode).2.argument.get Cell.listIndex = 7 ∧
      ∀ k < 4, (decodeArgElist listTables listOperand listNode).2.argument.get
        (Cell.listRegister k) = Register.v0 + (30 + k) % 32 := by
  have hall := registerList_wraps listTables listOperand listNode .v
    (decodeAnynymousImmreg listTables listOperand (.base listNode.base)).2 30 rfl (by decide) rfl rfl
    (by decide)
  exact ⟨rfl, hall.2.2.2.2 _ _ rfl rfl, hall.2.2.2.1.registers⟩

end Amed.AArch64

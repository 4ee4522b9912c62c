import Amed.AArch32.Arguments

/-!
# Lists of general registers

The registers that `decode_arg_glist` puts in a list, against the mask it reads.

## Implementation notes

`decodeArgGlist` takes the ones of the mask as a list. The loop of the source, which shifts the mask
out and counts the ones and the bits apart, is `glistStep`; both leave the same operand.
-/

namespace Amed.AArch32

open BitFields

/-! ## The loop -/

/-- The variables of the loop of `decode_arg_glist`. -/
structure GlistLoop where
  raw : BitVec 32
  n : Nat
  i : Nat
  argument : Argument

/-- The body of the loop. -/
def GlistLoop.shift (s : GlistLoop) : GlistLoop where
  raw := s.raw >>> 1
  n := if s.raw.getLsbD 0 then s.n + 1 else s.n
  i := s.i + 1
  argument :=
    if s.raw.getLsbD 0 then s.argument.put (Cell.listRegister s.n) (s.i + Register.r0)
    else s.argument

/-- One pass of the loop. -/
def glistStep (s : GlistLoop) : Option GlistLoop := if s.raw ≠ 0 then some s.shift else none

/-- `decode_arg_glist` with its loop. -/
def decodeArgGlistLoop (db : Db) (o : Operand) (node : DbAny) : Bool × Operand :=
  let raw := rawValue db o.internal.opcode node
  let s := Loop.run glistStep 32 ⟨raw, 0, 0, o.argument⟩
  let branches := raw.getLsbD 15 && node.write
  (true, ({ o with argument := generalList s.argument node s.n } : Operand).mark fun attributes =>
    { attributes with mayBranch := attributes.mayBranch || branches })

theorem glistStep_of_ne {s : GlistLoop} (h : s.raw ≠ 0) : glistStep s = some s.shift := if_pos h

theorem glistStep_of_zero {s : GlistLoop} (h : s.raw = 0) : glistStep s = none :=
  if_neg (not_not.mpr h)

/-- The loop has ended by itself after as many passes as the mask has bits. -/
theorem glistStep_exit (n : Nat) (s : GlistLoop) (h : s.raw.toNat < 2 ^ n) :
    glistStep (Loop.run glistStep n s) = none := by
  refine Loop.run_exit (P := fun n s => s.raw.toNat < 2 ^ n) ?_ ?_ h
  · intro s hs
    exact glistStep_of_zero (BitVec.eq_of_toNat_eq (by simpa using hs))
  · intro n s s' hs hstep
    obtain ⟨-, hstep⟩ := Option.ite_none_right_eq_some.mp hstep
    obtain rfl := Option.some.inj hstep
    show (s.raw >>> 1).toNat < 2 ^ n
    rw [toNat_ushiftRight_one]
    omega

/-- The passes over `n` bits store a register for each one of the mask. -/
theorem run_glistStep (n : Nat) (s : GlistLoop) (h : s.raw.toNat < 2 ^ n) :
    (Loop.run glistStep n s).n = s.n + (ones n s.raw.toNat).length ∧
      (Loop.run glistStep n s).argument =
        putRegisters ((ones n s.raw.toNat).map (· + s.i + Register.r0)) s.n s.argument := by
  induction n generalizing s with
  | zero => exact ⟨rfl, rfl⟩
  | succ n ih =>
      by_cases hzero : s.raw = 0
      · have hnone : ones (n + 1) s.raw.toNat = [] := by
          rw [hzero]
          exact ones_zero_right _
        rw [Loop.run_of_none (glistStep_of_zero hzero), hnone]
        exact ⟨rfl, rfl⟩
      · have hraw : s.shift.raw.toNat = s.raw.toNat / 2 := toNat_ushiftRight_one s.raw
        have hlow : s.raw.getLsbD 0 = decide (s.raw.toNat % 2 = 1) := by
          rw [BitVec.getLsbD, Nat.testBit_zero]
        have hnext : (ones n (s.raw.toNat / 2)).map (· + s.shift.i + Register.r0) =
            ((ones n (s.raw.toNat / 2)).map (· + 1)).map (· + s.i + Register.r0) := by
          rw [List.map_map]
          refine List.map_congr_left fun b _ => ?_
          show b + (s.i + 1) + Register.r0 = b + 1 + s.i + Register.r0
          omega
        obtain ⟨hn, hargument⟩ := ih s.shift (by omega)
        rw [hraw] at hn hargument
        rw [hnext] at hargument
        rw [Loop.run_of_some (glistStep_of_ne hzero), hn, hargument, ones_succ]
        by_cases hbit : s.raw.toNat % 2 = 1
        · -- the register of this bit is stored in front of the others
          have hset : s.raw.getLsbD 0 = true := hlow.trans (decide_eq_true hbit)
          have hcount : s.shift.n = s.n + 1 := if_pos hset
          have hput : s.shift.argument =
              s.argument.put (Cell.listRegister s.n) (s.i + Register.r0) := if_pos hset
          rw [if_pos hbit, hcount, hput, List.length_append, List.length_map]
          refine ⟨by simp only [List.length_singleton]; omega, ?_⟩
          rw [List.map_append, List.map_singleton, List.singleton_append, Nat.zero_add,
            putRegisters]
        · have hclear : ¬s.raw.getLsbD 0 = true := by
            rw [hlow, decide_eq_true_iff]
            exact hbit
          have hcount : s.shift.n = s.n := if_neg hclear
          have hsame : s.shift.argument = s.argument := if_neg hclear
          rw [if_neg hbit, hcount, hsame, List.nil_append, List.length_map]
          exact ⟨rfl, rfl⟩

/-- The loop leaves what the ones of the mask make. -/
theorem decodeArgGlist_eq_loop (db : Db) (o : Operand) (node : DbAny) :
    decodeArgGlist db o node = decodeArgGlistLoop db o node := by
  obtain ⟨hn, hargument⟩ :=
    run_glistStep 32 ⟨rawValue db o.internal.opcode node, 0, 0, o.argument⟩ (BitVec.isLt _)
  rw [decodeArgGlist, decodeArgGlistLoop, hn, hargument, List.length_map, Nat.zero_add]
  rfl

/-! ## The list -/

theorem putRegisters_get_below (registers : List Nat) (i : Nat) (a : Argument) {k : Nat}
    (h : k < i) :
    (putRegisters registers i a).get (Cell.listRegister k) = a.get (Cell.listRegister k) := by
  induction registers generalizing i a with
  | nil => rfl
  | cons register registers ih =>
      rw [putRegisters, ih _ _ (by omega),
        Argument.get_put_apart _ _ (Cell.listRegister_apart (by omega))]

theorem putRegisters_get {registers : List Nat} (hregisters : ∀ r ∈ registers, r < 2 ^ 16)
    (i : Nat) (a : Argument) {k : Nat} (h : k < registers.length) :
    (putRegisters registers i a).get (Cell.listRegister (i + k)) = registers[k] := by
  induction registers generalizing i a k with
  | nil => cases h
  | cons register registers ih =>
      have hrest := fun r hr => hregisters r (List.mem_cons_of_mem register hr)
      rw [putRegisters]
      cases k with
      | zero =>
          have hkeeps := putRegisters_get_below registers (i + 1)
            (a.put (Cell.listRegister i) register) (Nat.lt_succ_self i)
          have hput := (Argument.get_put a (Cell.listRegister i) register).trans
            (Nat.mod_eq_of_lt (hregisters register List.mem_cons_self))
          exact hkeeps.trans hput
      | succ k =>
          have hrest := ih hrest (i + 1) (a.put (Cell.listRegister i) register)
            (Nat.lt_of_succ_lt_succ h)
          rwa [Nat.add_right_comm] at hrest

/-- The registers that an argument lists. -/
def listedRegisters (a : Argument) : List Nat :=
  (List.range (a.get Cell.listCount)).map fun i => a.get (Cell.listRegister i)

/-- The operand lists the registers of a mask, in ascending order, and the instruction may branch
where it did or where the list writes the program counter. -/
structure HoldsMask (raw : BitVec 32) (node : DbAny) (o o' : Operand) : Prop where
  type : o'.argument.type = .list
  mem : ∀ r, r ∈ listedRegisters o'.argument ↔ ∃ b, raw.getLsbD b = true ∧ r = Register.r0 + b
  ascending : (listedRegisters o'.argument).Pairwise (· < ·)
  count : o'.argument.get Cell.listCount = (List.range 32).countP raw.getLsbD
  branches : o'.internal.insn.attributes.mayBranch = true ↔
    o.internal.insn.attributes.mayBranch = true ∨ raw.getLsbD 15 = true ∧ node.write = true

/-- The count of a general list stands behind its registers. -/
theorem generalList_get (a : Argument) (node : DbAny) {count : Nat} (h : count ≤ 32) :
    (generalList a node count).get Cell.listCount = count ∧
      ∀ k < count, (generalList a node count).get (Cell.listRegister k) =
        a.get (Cell.listRegister k) := by
  constructor
  · have hwidth : 32 < 256 ^ Cell.listCount.width := by decide
    exact (Argument.get_put a Cell.listCount count).trans
      (Nat.mod_eq_of_lt (Nat.lt_of_le_of_lt h hwidth))
  · intro k hk
    have hapart : (Cell.listRegister k).Apart Cell.listCount := by
      simp only [Cell.listRegister, Cell.listCount, Bytes.Cell.Apart]
      omega
    exact Argument.get_put_apart a count hapart

/-- The count, and the registers in the order of the bits. -/
theorem decodeArgGlist_listed (db : Db) (o : Operand) (node : DbAny) :
    (decodeArgGlist db o node).2.argument.get Cell.listCount =
        (ones 32 (rawValue db o.internal.opcode node).toNat).length ∧
      listedRegisters (decodeArgGlist db o node).2.argument =
        (ones 32 (rawValue db o.internal.opcode node).toNat).map (· + Register.r0) := by
  generalize hregisters : (setBits (rawValue db o.internal.opcode node)).map (· + Register.r0) =
    registers
  have hones : setBits (rawValue db o.internal.opcode node) =
      ones 32 (rawValue db o.internal.opcode node).toNat := rfl
  have hlength : registers.length =
      (ones 32 (rawValue db o.internal.opcode node).toNat).length := by
    rw [← hregisters, List.length_map, hones]
  have hle : registers.length ≤ 32 := hlength ▸ ones_length_le 32 _
  have hlt : ∀ r ∈ registers, r < 2 ^ 16 := by
    rw [← hregisters, hones, List.forall_mem_map]
    intro b hb
    have hb32 := (mem_ones.mp hb).1
    have hr0 : Register.r0 = 1 := rfl
    omega
  have hargument : (decodeArgGlist db o node).2.argument =
      generalList (putRegisters registers 0 o.argument) node registers.length := by
    rw [← hregisters]
    rfl
  obtain ⟨hcount, hget⟩ :=
    generalList_get (putRegisters registers 0 o.argument) node hle
  rw [hargument, hcount, ← hones, hregisters]
  refine ⟨hlength.trans (congrArg List.length hones).symm, ?_⟩
  rw [listedRegisters, hcount]
  apply List.ext_getElem
  · simp
  · intro k hk hk'
    rw [List.getElem_map, List.getElem_range, hget k hk']
    have hput := putRegisters_get hlt 0 o.argument hk'
    rwa [Nat.zero_add] at hput

/-- `decode_arg_glist` lists the registers of the mask that any encoding holds. -/
theorem decodeArgGlist_holdsMask (db : Db) (o : Operand) (node : DbAny) :
    glistStep (Loop.run glistStep 32 ⟨rawValue db o.internal.opcode node, 0, 0, o.argument⟩) =
        none ∧
      decodeArgGlist db o node = decodeArgGlistLoop db o node ∧
      (decodeArgGlist db o node).1 = true ∧
      HoldsMask (rawValue db o.internal.opcode node) node o (decodeArgGlist db o node).2 := by
  obtain ⟨hcount, hlisted⟩ := decodeArgGlist_listed db o node
  refine ⟨glistStep_exit 32 _ (BitVec.isLt _), decodeArgGlist_eq_loop db o node, rfl, rfl,
    fun r => ?_, ?_, ?_, ?_⟩
  · rw [hlisted, List.mem_map]
    constructor
    · rintro ⟨b, hb, rfl⟩
      exact ⟨b, (mem_ones.mp hb).2, Nat.add_comm _ _⟩
    · rintro ⟨b, hb, rfl⟩
      exact ⟨b, mem_ones.mpr ⟨BitVec.lt_of_getLsbD hb, hb⟩, Nat.add_comm _ _⟩
  · rw [hlisted, List.pairwise_map]
    exact (ones_sorted 32 _).imp fun h => Nat.add_lt_add_right h _
  · rw [hcount, List.countP_eq_length_filter]
    rfl
  · show (_ || (_ && _)) = true ↔ _
    rw [Bool.or_eq_true, Bool.and_eq_true]

end Amed.AArch32

import Amed.Library.Numbering
import Amed.Library.Statements
import Amed.Generator.MostSpecific

/-!
# The code of a lookup

`print_tree` prints a tree as a C statement: a leaf as a return, an if with both branches, and a
switch whose cases come by ascending labels and end in breaks. The function around it declares the
bytes of the opcode as `a`, `b`, `c` and `d`, and returns 0 behind the tree.

## Implementation notes

Comments and indentation are left out. The conditions are evaluated as C does it, over the word and
its four bytes; a byte that has no variable reads as 0, and its condition does not compile.
-/

namespace Amed.Generator

open Statements

/-! ## The printed code -/

/-- The value a switch goes by: `(a & 0x3f) - 2`, or `a & 0x3f` where the least value is 0, and the
parameter `index` of the x86 function. -/
inductive SwitchValue
  | bits (byte : Nat) (varMask min : BitVec 64)
  | index
  deriving DecidableEq, Repr

abbrev Statement := Stmt Test SwitchValue Nat

mutual

/-- `print_tree`. -/
def Tree.print : Tree → Statement
  | .empty => .skip
  | .leaf index => .ret index
  | .ifThen test case1 case0 => .ifElse test case1.print case0.print
  | .switch byte varMask min cases =>
      .switch (.bits byte varMask min) (Stmt.broken (Stmt.sorted (printCases cases)))

/-- The cases with their keys as labels. -/
def printCases : List (BitVec 64 × Tree) → List (Int × Statement)
  | [] => []
  | (key, tree) :: cases => ((key.toNat : Int), tree.print) :: printCases cases

end

/-- The body of the function that `generate_isaform_disasm` prints. -/
def lookupBody (tree : Tree) : Statement := .seq tree.print (.ret 0)

/-! ## The variables -/

/-- The parameters and the local variables of a function; only the x86 function has an index. -/
structure Variables where
  index : BitVec 32
  opcode : BitVec 32
  a : BitVec 8
  b : BitVec 8
  c : BitVec 8
  d : BitVec 8

/-- The declarations at the head of the function. -/
def Variables.declare (index opcode : BitVec 32) : Variables where
  index := index
  opcode := opcode
  a := (opcode >>> 0 &&& 0xff).setWidth 8
  b := (opcode >>> 8 &&& 0xff).setWidth 8
  c := (opcode >>> 16 &&& 0xff).setWidth 8
  d := (opcode >>> 24 &&& 0xff).setWidth 8

/-- `%byte2var`, for the variables that are declared. -/
def Variables.char (v : Variables) : Nat → BitVec 8
  | 0 => v.a
  | 1 => v.b
  | 2 => v.c
  | 3 => v.d
  | _ => 0

/-- A condition: the integer constants are those of the masks and values. -/
def Variables.holds (v : Variables) : Test → Bool
  | .bit byte varMask => (v.char byte).toNat &&& varMask.toNat ≠ 0
  | .constraint mask value => v.opcode.toNat &&& mask.toNat ≠ value.toNat
  | .entry mask opcode cnsts =>
      v.opcode.toNat &&& mask.toNat = opcode.toNat &&
        cnsts.all fun c => v.opcode.toNat &&& c.mask.toNat ≠ c.value.toNat

def Variables.switchValue (v : Variables) : SwitchValue → Int
  | .bits byte varMask min => ((v.char byte).toNat &&& varMask.toNat : Nat) - (min.toNat : Int)
  | .index => v.index.toNat

/-- Run printed code. -/
def execPrinted (index opcode : BitVec 32) (s : Statement) : Outcome Nat :=
  s.exec (Variables.declare index opcode).holds (Variables.declare index opcode).switchValue

/-- The generated function. -/
def lookupFunction (tree : Tree) (opcode : BitVec 32) : Nat :=
  (execPrinted 0 opcode (lookupBody tree)).valueOr 0

/-! ## What the conditions say -/

/-- Only the bytes of the opcode have variables. -/
def Test.Declared : Test → Prop
  | .bit byte _ => byte < 4
  | .constraint _ _ => True
  | .entry _ _ _ => True

theorem and_ff (n : Nat) : n &&& 255 = n % 256 := Nat.and_two_pow_sub_one_eq_mod n 8

theorem toNat_byteOf (w : BitVec 64) (byte : Nat) :
    (byteOf w byte).toNat = w.toNat >>> (8 * byte) % 256 := by
  rw [byteOf, BitVec.toNat_and, BitVec.toNat_ushiftRight]
  exact and_ff _

theorem toNat_char (opcode : BitVec 32) (s : Nat) :
    ((opcode >>> s &&& 0xff).setWidth 8).toNat = opcode.toNat >>> s % 256 := by
  rw [BitVec.toNat_setWidth, BitVec.toNat_and, BitVec.toNat_ushiftRight]
  change (opcode.toNat >>> s &&& 255) % 256 = _
  rw [and_ff, Nat.mod_mod]

theorem toNat_opcode (opcode : BitVec 32) : (opcode.setWidth 64).toNat = opcode.toNat := by
  rw [BitVec.toNat_setWidth, Nat.mod_eq_of_lt (by omega)]

theorem char_declare (index opcode : BitVec 32) {byte : Nat} (h : byte < 4) :
    ((Variables.declare index opcode).char byte).toNat = (byteOf (opcode.setWidth 64) byte).toNat := by
  rw [toNat_byteOf, toNat_opcode]
  have hbytes : byte = 0 ∨ byte = 1 ∨ byte = 2 ∨ byte = 3 := by omega
  rcases hbytes with rfl | rfl | rfl | rfl <;> exact toNat_char opcode _

theorem and_ne_iff (w mask value : BitVec 64) :
    w.toNat &&& mask.toNat ≠ value.toNat ↔ w &&& mask ≠ value := by
  rw [← BitVec.toNat_and, ne_eq, ← BitVec.toNat_eq, ne_eq]

/-- The printed condition is the test of the tree. -/
theorem holds_declare (index opcode : BitVec 32) {test : Test} (h : test.Declared) :
    (Variables.declare index opcode).holds test = test.holds (opcode.setWidth 64) := by
  have hopcode : (Variables.declare index opcode).opcode.toNat = (opcode.setWidth 64).toNat :=
    (toNat_opcode opcode).symm
  cases test with
  | bit byte varMask =>
      rw [Variables.holds, Test.holds, char_declare index opcode h, decide_eq_decide]
      exact and_ne_iff _ _ 0
  | constraint mask value =>
      rw [Variables.holds, Test.holds, hopcode, decide_eq_decide]
      exact and_ne_iff _ _ _
  | entry mask value cnsts =>
      rw [Variables.holds, Test.holds, hopcode]
      congr 1
      · rw [decide_eq_decide]
        exact not_iff_not.mp (and_ne_iff _ _ _)
      · refine congrArg _ (funext fun c => ?_)
        rw [decide_eq_decide]
        exact and_ne_iff _ _ _

/-! ## What the code returns -/

mutual

/-- A tree whose code is in order: its bytes have variables, and the keys of a switch differ and
are differences to the least value. -/
def Tree.Printable : Tree → Prop
  | .empty => True
  | .leaf _ => True
  | .ifThen test case1 case0 => test.Declared ∧ case1.Printable ∧ case0.Printable
  | .switch byte _ min cases =>
      byte < 4 ∧ (cases.map Prod.fst).Nodup ∧ (∀ c ∈ cases, c.1.toNat + min.toNat < 2 ^ 64) ∧
        CasesPrintable cases

def CasesPrintable : List (BitVec 64 × Tree) → Prop
  | [] => True
  | (_, tree) :: cases => tree.Printable ∧ CasesPrintable cases

end

/-- A key is the value of the switch as a word exactly where it is so as an integer. -/
theorem key_eq_iff {key min : BitVec 64} (h : key.toNat + min.toNat < 2 ^ 64) (x : BitVec 64) :
    key = x - min ↔ (key.toNat : Int) = x.toNat - min.toNat := by
  rw [eq_comm, BitVec.sub_eq_iff_eq_add, ← BitVec.toNat_inj, BitVec.toNat_add,
    Nat.mod_eq_of_lt h]
  omega

theorem printCases_labels (cases : List (BitVec 64 × Tree)) :
    (printCases cases).map Prod.fst = cases.map fun c => ((c.1.toNat : Nat) : Int) := by
  induction cases with
  | nil => rfl
  | cons c cases ih =>
      change _ :: (printCases cases).map Prod.fst = _
      rw [ih]
      rfl

theorem printCases_nodup {cases : List (BitVec 64 × Tree)} (h : (cases.map Prod.fst).Nodup) :
    ((printCases cases).map Prod.fst).Nodup := by
  rw [printCases_labels]
  have hinj : Function.Injective fun key : BitVec 64 => ((key.toNat : Nat) : Int) := fun a b hab =>
    BitVec.toNat_inj.mp (Int.ofNat.inj hab)
  have := h.map hinj
  rwa [List.map_map] at this

section Exec

variable (index opcode : BitVec 32)

theorem execPrinted_ifElse (test : Test) (yes no : Statement) :
    execPrinted index opcode (.ifElse test yes no) =
      if (Variables.declare index opcode).holds test then execPrinted index opcode yes
      else execPrinted index opcode no := by
  simp only [execPrinted, Stmt.exec]

/-- What is found among the cases is run; behind it stands the break. -/
theorem execPrinted_switch (value : SwitchValue) {cases : List (Int × Statement)}
    (hnodup : (cases.map Prod.fst).Nodup) :
    execPrinted index opcode (.switch value (Stmt.broken (Stmt.sorted cases))) =
      (cases.find? fun c => c.1 = (Variables.declare index opcode).switchValue value).elim .fell
        fun c => ((execPrinted index opcode c.2).andThen .broke).leave := by
  rw [execPrinted, Stmt.exec_switch_broken, Stmt.find?_perm hnodup (Stmt.sorted_perm cases)]
  rfl

mutual

/-- The code of a tree returns where the walk ends. -/
theorem execPrinted_print : ∀ tree : Tree, tree.Printable →
    execPrinted index opcode tree.print = .ofOption (tree.walk (opcode.setWidth 64))
  | .empty, _ => rfl
  | .leaf _, _ => rfl
  | .ifThen test case1 case0, h => by
      rw [Tree.print, execPrinted_ifElse, holds_declare index opcode h.1,
        execPrinted_print case1 h.2.1, execPrinted_print case0 h.2.2, Tree.walk]
      split <;> rfl
  | .switch byte varMask min cases, h => by
      have hvalue : (Variables.declare index opcode).switchValue (.bits byte varMask min) =
          ((byteOf (opcode.setWidth 64) byte &&& varMask).toNat : Int) - min.toNat := by
        rw [Variables.switchValue, char_declare index opcode h.1, ← BitVec.toNat_and]
      rw [Tree.print, execPrinted_switch index opcode _ (printCases_nodup h.2.1), hvalue, Tree.walk]
      exact find_printCases cases h.2.2.2 min _ h.2.2.1

theorem find_printCases : ∀ cases : List (BitVec 64 × Tree), CasesPrintable cases →
    ∀ min x : BitVec 64, (∀ c ∈ cases, c.1.toNat + min.toNat < 2 ^ 64) →
    ((printCases cases).find? fun c => c.1 = (x.toNat : Int) - min.toNat).elim .fell
        (fun c => ((execPrinted index opcode c.2).andThen .broke).leave) =
      .ofOption (walkCases (opcode.setWidth 64) (x - min) cases)
  | [], _, _, _, _ => rfl
  | (key, tree) :: cases, h, min, x, hkeys => by
      have hkey := key_eq_iff (hkeys _ List.mem_cons_self) x
      rw [printCases, walkCases]
      by_cases heq : key = x - min
      · rw [List.find?_cons_of_pos (by simpa using hkey.mp heq), if_pos heq, Option.elim,
          execPrinted_print tree h.1, Outcome.leave_andThen_ofOption]
      · rw [List.find?_cons_of_neg (by simpa using mt hkey.mpr heq), if_neg heq]
        exact find_printCases cases h.2 min x fun c hc => hkeys c (List.mem_cons_of_mem _ hc)

end

/-- The function returns what the walk finds, and else 0. -/
theorem lookupFunction_eq {tree : Tree} (h : tree.Printable) :
    lookupFunction tree opcode = (tree.walk (opcode.setWidth 64)).getD 0 := by
  have hexec : execPrinted 0 opcode (lookupBody tree) =
      (execPrinted 0 opcode tree.print).andThen (.returned 0) := by
    simp only [execPrinted, lookupBody, Stmt.exec]
  rw [lookupFunction, hexec, execPrinted_print 0 opcode tree h, Outcome.andThen_ofOption]
  rfl

end Exec

/-! ## What compiles -/

/-- The values that the variables of a tree's code have. -/
def SwitchValue.Declared (hasIndex : Prop) : SwitchValue → Prop
  | .bits byte _ _ => byte < 4
  | .index => hasIndex

/-- The function compiles: its variables are declared, no label stands twice, and every break is in
a switch. -/
def LookupCompiles (tree : Tree) : Prop :=
  (lookupBody tree).Compiles Test.Declared (SwitchValue.Declared False) False

theorem broken_labels (cases : List (Int × Statement)) :
    (Stmt.broken cases).map Prod.fst = cases.map Prod.fst := by
  simp [Stmt.broken]

mutual

theorem print_compiles (hasIndex inSwitch : Prop) : ∀ tree : Tree, tree.Printable →
    tree.print.Compiles Test.Declared (SwitchValue.Declared hasIndex) inSwitch
  | .empty, _ => trivial
  | .leaf _, _ => trivial
  | .ifThen _ case1 case0, h =>
      ⟨h.1, print_compiles hasIndex inSwitch case1 h.2.1,
        print_compiles hasIndex inSwitch case0 h.2.2⟩
  | .switch byte varMask min cases, h => by
      have hperm := Stmt.sorted_perm (printCases cases)
      refine ⟨h.1, ?_, (Stmt.casesCompile_iff _ _ _).mpr fun c hc => ?_⟩
      · rw [broken_labels]
        exact ((hperm.map _).nodup_iff).mpr (printCases_nodup h.2.1)
      · obtain ⟨c', hc', rfl⟩ := List.mem_map.mp hc
        exact ⟨printCases_compile hasIndex cases h.2.2.2 c' (hperm.mem_iff.mp hc'), trivial⟩

theorem printCases_compile (hasIndex : Prop) : ∀ cases : List (BitVec 64 × Tree), CasesPrintable cases →
    ∀ c ∈ printCases cases,
      c.2.Compiles Test.Declared (SwitchValue.Declared hasIndex) True
  | [], _ => fun _ hc => absurd hc List.not_mem_nil
  | (_, tree) :: cases, h => fun c hc => by
      rcases List.mem_cons.mp hc with rfl | hc
      · exact print_compiles hasIndex True tree h.1
      · exact printCases_compile hasIndex cases h.2 c hc

end

theorem lookupCompiles_of_printable {tree : Tree} (h : tree.Printable) : LookupCompiles tree :=
  ⟨print_compiles False False tree h, trivial⟩

/-! ## The trees of `get_tree` -/

/-- The bits of an opcode. -/
def lowMask : BitVec 64 := 0xffffffff

/-- The masks of entries are masks of opcodes. -/
def LowEntries (es : List Entry) : Prop := ∀ e ∈ es, Inside e.mask lowMask

theorem LowEntries.of_mem {es es' : List Entry} (h : LowEntries es) (hsub : ∀ e ∈ es', e ∈ es) :
    LowEntries es' := fun e he => h e (hsub e he)

/-- What is to be shown of a division. -/
def Prints (divide : List TreeNode → Option Tree) : Prop :=
  ∀ nodes tree, NodesInside nodes → LowEntries (entries nodes) → divide nodes = some tree →
    tree.Printable

theorem NodesInside.of_mem {nodes nodes' : List TreeNode} (h : NodesInside nodes)
    (hsub : ∀ node ∈ nodes', node ∈ nodes) : NodesInside nodes' := fun n hn => h n (hsub n hn)

theorem entries_subset {nodes nodes' : List TreeNode} (hsub : ∀ node ∈ nodes', node ∈ nodes) :
    ∀ e ∈ entries nodes', e ∈ entries nodes := by
  intro e he
  obtain ⟨node, hnode, rfl⟩ := mem_entries.mp he
  exact mem_entries.mpr ⟨node, hsub node hnode, rfl⟩

theorem divideHiBits_prints {divide : List TreeNode → Option Tree} (h : Prints divide) :
    Prints (divideHiBits divide) := by
  intro nodes tree hinside hlow htree
  unfold divideHiBits at htree
  generalize hsorted : nodes.mergeSort
    (fun a b => decide (getBitCount b.entry.tmask ≤ getBitCount a.entry.tmask)) = sorted at htree
  have hmem : ∀ node ∈ sorted, node ∈ nodes := by
    rw [← hsorted]
    exact fun node hnode => (List.mergeSort_perm _ _).mem_iff.mp hnode
  cases sorted with
  | nil => cases htree
  | cons first next =>
      obtain ⟨case1, hcase1, htree⟩ := Option.bind_eq_some_iff.mp htree
      obtain ⟨case0, hcase0, rfl⟩ := Option.map_eq_some_iff.mp htree
      have hprint : ∀ (part : List TreeNode) (case : Tree), (∀ node ∈ part, node ∈ first :: next) →
          divide part = some case → case.Printable := by
        intro part case hpart hcase
        have hsub : ∀ node ∈ part, node ∈ nodes := fun node hn => hmem node (hpart node hn)
        exact h part case (hinside.of_mem hsub) (hlow.of_mem (entries_subset hsub)) hcase
      refine ⟨trivial, hprint [first] case1 (fun node hn => ?_) hcase1,
        hprint next case0 (fun node hn => List.mem_cons_of_mem _ hn) hcase0⟩
      rw [List.mem_singleton.mp hn]
      exact List.mem_cons_self

/-- Before its first pass the loop of `divide_cnsts` has seen no node. -/
theorem Split.Holds.start (c : Constraint) : (Split.mk c.mask c.value [] []).Holds c [] :=
  ⟨rfl, rfl, ⟨fun _ hn => absurd hn (by simp), fun _ hn => absurd hn (by simp)⟩,
    fun e he => by simp [entries] at he, fun w e he => by simp [entries] at he,
    fun w e he => by simp [entries] at he⟩

theorem divideCnsts_prints {divide : List TreeNode → Option Tree} (h : Prints divide)
    (fuel : Nat) : Prints (divideCnsts divide fuel) := by
  induction fuel with
  | zero =>
      intro nodes tree _ _ htree
      cases htree
  | succ fuel ih =>
      intro nodes tree hinside hlow htree
      rw [divideCnsts] at htree
      split at htree
      · exact h nodes tree hinside hlow htree
      · rename_i c hc
        obtain ⟨node, -, hmem⟩ := getGlobalConstraint_mem hc
        have hsplit := foldl_split_holds (Constraint.value_eq_zero hmem) hinside
          (Split.Holds.start c)
        rw [List.nil_append] at hsplit
        generalize nodes.foldl Split.step ⟨c.mask, c.value, [], []⟩ = s at htree hsplit
        have hcnode := hlow.of_mem fun e he => hsplit.from_seen e (Or.inl he)
        have hncnode := hlow.of_mem fun e he => hsplit.from_seen e (Or.inr he)
        dsimp only at htree
        split at htree
        · exact ih s.cnode tree hsplit.inside.1 hcnode htree
        · obtain ⟨case1, hcase1, htree⟩ := Option.bind_eq_some_iff.mp htree
          obtain ⟨case0, hcase0, rfl⟩ := Option.map_eq_some_iff.mp htree
          refine ⟨trivial, ?_, h s.ncnode case0 hsplit.inside.2 hncnode hcase0⟩
          split at hcase1
          · cases hcase1
            trivial
          · exact h s.cnode case1 hsplit.inside.1 hcnode hcase1

theorem divideTreeTerminal_prints {divide : List TreeNode → Option Tree} (h : Prints divide)
    (fuel : Nat) : Prints (divideTreeTerminal divide fuel) := by
  intro nodes tree hinside hlow htree
  unfold divideTreeTerminal at htree
  split at htree
  · cases htree
  · cases htree
    trivial
  · split at htree
    · exact divideCnsts_prints h fuel nodes tree hinside hlow htree
    · exact divideHiBits_prints h nodes tree hinside hlow htree

/-- A byte that a bit of an opcode is in has a variable. -/
theorem InByte.lt_four {mask : BitVec 64} {byte : Nat} (h : InByte mask byte)
    (hlow : Inside mask lowMask) (hmask : mask ≠ 0) : byte < 4 := by
  have hbit : ∃ i, mask.getLsbD i = true := by
    by_contra hnone
    refine hmask (BitVec.eq_of_getLsbD_eq fun i _ => ?_)
    rw [getLsbD_zero, Bool.eq_false_iff]
    exact fun hi => hnone ⟨i, hi⟩
  obtain ⟨i, hi⟩ := hbit
  have hlt : i < 32 := by
    have := inside_iff.mp hlow i hi
    by_contra hge
    rw [lowMask, show (0xffffffff : BitVec 64) = (BitVec.allOnes 32).setWidth 64 from rfl,
      BitVec.getLsbD_setWidth, BitVec.getLsbD_allOnes] at this
    simp only [Bool.and_eq_true, decide_eq_true_eq] at this
    exact hge this.2
  have := (h i hi).1
  omega

/-- Every case of a switch is one of its values with the tree of its nodes. -/
theorem cases_of_mapM {f : BitVec 64 → Option Tree} {min : BitVec 64}
    {values : List (BitVec 64)} {cases : List (BitVec 64 × Tree)}
    (h : values.mapM (fun v => (f v).map fun tree => (v - min, tree)) = some cases) :
    cases.map Prod.fst = values.map (· - min) ∧
      ∀ c ∈ cases, ∃ v ∈ values, c.1 = v - min ∧ f v = some c.2 := by
  induction values generalizing cases with
  | nil =>
      cases h
      exact ⟨rfl, fun c hc => absurd hc List.not_mem_nil⟩
  | cons v values ih =>
      rw [List.mapM_cons] at h
      obtain ⟨case₀, hcase₀, h⟩ := Option.bind_eq_some_iff.mp h
      obtain ⟨cases', hcases, h⟩ := Option.bind_eq_some_iff.mp h
      cases h
      obtain ⟨tree, htree, rfl⟩ := Option.map_eq_some_iff.mp hcase₀
      obtain ⟨hkeys, hall⟩ := ih hcases
      refine ⟨by rw [List.map_cons, hkeys, List.map_cons], fun c hc => ?_⟩
      rcases List.mem_cons.mp hc with rfl | hc
      · exact ⟨v, List.mem_cons_self, rfl, htree⟩
      · obtain ⟨v', hv', hkey, hf⟩ := hall c hc
        exact ⟨v', List.mem_cons_of_mem _ hv', hkey, hf⟩

/-- The least value of a list. -/
theorem min_le {values : List (BitVec 64)} {v : BitVec 64} (h : v ∈ values) :
    (BitVec.ofNat 64 ((values.map BitVec.toNat).min?.getD 0)).toNat ≤ v.toNat := by
  cases hmin : (values.map BitVec.toNat).min? with
  | none =>
      rw [List.min?_eq_none_iff, List.map_eq_nil_iff] at hmin
      rw [hmin] at h
      cases h
  | some m =>
      have hle := (List.min?_eq_some_iff.mp hmin).2 v.toNat (List.mem_map_of_mem h)
      rw [Option.getD_some, BitVec.toNat_ofNat]
      exact (Nat.mod_le _ _).trans hle

theorem casesPrintable_iff (cases : List (BitVec 64 × Tree)) :
    CasesPrintable cases ↔ ∀ c ∈ cases, c.2.Printable := by
  induction cases with
  | nil => simp [CasesPrintable]
  | cons c cases ih => rw [CasesPrintable, ih, List.forall_mem_cons]

theorem lowEntries_consume {nodes : List TreeNode} (h : LowEntries (entries nodes))
    (p : TreeNode → Bool) (used : BitVec 64) :
    LowEntries (entries ((nodes.filter p).map (.consume used))) := by
  intro e he
  obtain ⟨node, hnode, -, rfl⟩ := mem_entries_consume.mp he
  exact h _ (mem_entries.mpr ⟨node, hnode, rfl⟩)

theorem divideTreeUsingSwitch_prints {divide : List TreeNode → Option Tree} (h : Prints divide)
    (fuel : Nat) {nodes : List TreeNode} (hne : nodes ≠ []) (hinside : NodesInside nodes)
    (hlow : LowEntries (entries nodes)) {tree : Tree}
    (htree : divideTreeUsingSwitch divide fuel nodes = some (some tree)) : tree.Printable := by
  unfold divideTreeUsingSwitch at htree
  dsimp only at htree
  split at htree
  · exact divideTreeTerminal_prints h fuel nodes tree hinside hlow (Option.some.inj htree)
  rename_i hmask
  split at htree
  · cases htree
  split at htree
  · cases htree
  rename_i byte hbyte
  split at htree
  · cases htree
  obtain ⟨cases, hcases, rfl⟩ := Option.map_eq_some_iff.mp (Option.some.inj htree)
  obtain ⟨node, hnode⟩ := List.exists_mem_of_ne_nil nodes hne
  have hinlow : Inside (getEffectiveMask nodes) lowMask :=
    ((getEffectiveMask_inside hnode).trans (hinside node hnode)).trans
      (hlow _ (mem_entries.mpr ⟨node, hnode, rfl⟩))
  obtain ⟨hkeys, hall⟩ := cases_of_mapM hcases
  refine ⟨(getBlessedByteFromMask_inByte hbyte).lt_four hinlow hmask, ?_, fun c hc => ?_,
    (casesPrintable_iff _).mpr fun c hc => ?_⟩
  · rw [hkeys]
    exact (Numbering.nodup_eraseDups _).map fun a b hab => (BitVec.sub_left_inj _).mp hab
  · obtain ⟨v, hv, hkey, -⟩ := hall c hc
    rw [hkey, BitVec.toNat_sub_of_le (BitVec.le_def.mpr (min_le hv))]
    have := min_le hv
    have := v.isLt
    omega
  · obtain ⟨v, -, -, hdivide⟩ := hall c hc
    exact h _ _ (nodesInside_consume hinside _ _) (lowEntries_consume hlow _ _) hdivide

theorem divideTreeUsingIf_prints {divide : List TreeNode → Option Tree} (h : Prints divide)
    (fuel passes : Nat) : Prints (divideTreeUsingIf divide fuel passes) := by
  induction passes with
  | zero =>
      intro nodes tree _ _ htree
      cases htree
  | succ passes ih =>
      intro nodes tree hinside hlow htree
      rw [divideTreeUsingIf] at htree
      dsimp only at htree
      split at htree
      · exact divideTreeTerminal_prints h fuel nodes tree hinside hlow htree
      rename_i hlength
      split at htree
      · exact divideTreeTerminal_prints h fuel nodes tree hinside hlow htree
      rename_i bit hbit
      have hset := List.find?_some hbit
      split at htree
      · cases htree
        trivial
      rename_i byte hbyte
      split at htree
      · exact ih _ tree (nodesInside_consume hinside _ _) (lowEntries_consume hlow _ _) htree
      split at htree
      · exact ih _ tree (nodesInside_consume hinside _ _) (lowEntries_consume hlow _ _) htree
      obtain ⟨case0, hcase0, htree⟩ := Option.bind_eq_some_iff.mp htree
      obtain ⟨case1, hcase1, rfl⟩ := Option.map_eq_some_iff.mp htree
      have hne : nodes ≠ [] := by
        rintro rfl
        exact hlength (by decide)
      obtain ⟨node, hnode⟩ := List.exists_mem_of_ne_nil nodes hne
      have hinlow : Inside ((1 : BitVec 64) <<< bit) lowMask :=
        (((bit_inside hset).trans ((foldl_and_inside nodes _).2 node hnode)).trans
          (hinside node hnode)).trans (hlow _ (mem_entries.mpr ⟨node, hnode, rfl⟩))
      have hbitmask : (1 : BitVec 64) <<< bit ≠ 0 := by
        have hall : ∀ bit ∈ List.range 64, (1 : BitVec 64) <<< bit ≠ 0 := by decide
        exact hall bit (List.mem_of_find?_eq_some hbit)
      exact ⟨(getBlessedByteFromMask_inByte hbyte).lt_four hinlow hbitmask,
        h _ case1 (nodesInside_consume hinside _ _) (lowEntries_consume hlow _ _) hcase1,
        h _ case0 (nodesInside_consume hinside _ _) (lowEntries_consume hlow _ _) hcase0⟩

theorem divideTree_prints (fuel : Nat) : Prints (divideTree fuel) := by
  induction fuel with
  | zero =>
      intro nodes tree _ _ htree
      cases htree
  | succ fuel ih =>
      intro nodes tree hinside hlow htree
      rw [divideTree] at htree
      split at htree
      · cases htree
      rename_i hne
      split at htree
      · rename_i found hfound
        exact divideTreeUsingSwitch_prints ih fuel (fun hnil => hne (List.isEmpty_iff.mpr hnil))
          hinside hlow (hfound.trans (congrArg some htree))
      · exact divideTreeUsingIf_prints ih fuel 65 nodes tree hinside hlow htree

/-- The tree of entries of opcodes can be printed. -/
theorem getTree_printable {fuel : Nat} {es : List Entry} {tree : Tree}
    (hlow : LowEntries es) (htree : getTree fuel es = some tree) : tree.Printable := by
  refine divideTree_prints fuel _ tree (nodesInside_init es) ?_ htree
  rwa [entries_init]

/-- The function printed for the tree of entries of opcodes compiles, and on every opcode it returns
where the walk of the tree ends, or 0. -/
theorem lookupFunction_of_getTree {fuel : Nat} {es : List Entry} {tree : Tree}
    (hlow : LowEntries es) (htree : getTree fuel es = some tree) :
    LookupCompiles tree ∧
      ∀ opcode, lookupFunction tree opcode = (tree.walk (opcode.setWidth 64)).getD 0 :=
  have hprintable := getTree_printable hlow htree
  ⟨lookupCompiles_of_printable hprintable, fun opcode => lookupFunction_eq opcode hprintable⟩

theorem lookupFunction_of_getTree_three :
    LookupCompiles (.switch 0 0x07 1 [(0, .leaf 7), (1, .leaf 8), (3, .leaf 9)]) ∧
      ∀ opcode, lookupFunction (.switch 0 0x07 1 [(0, .leaf 7), (1, .leaf 8), (3, .leaf 9)]) opcode =
        ((Tree.switch 0 0x07 1 [(0, .leaf 7), (1, .leaf 8), (3, .leaf 9)]).walk
          (opcode.setWidth 64)).getD 0 :=
  lookupFunction_of_getTree (by unfold LowEntries Inside; decide) getTree_threeEntries

end Amed.Generator

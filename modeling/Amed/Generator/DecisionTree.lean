import Mathlib.Data.List.Sort
import Amed.Library.Gather

/-!
# Decision trees

`Generator::DecisionTree` turns a list of entries into nested switches and ifs over an opcode
word. It splits the list by bytes, by single bits, by constraints and at last by comparing
with one entry after the other, and takes the bits it has used out of the masks.

## Implementation notes

A Perl number is a 64-bit word. A node is an entry with the masks that are left; its text,
comments and its child are left out (only nodes without children are divided here), and so are
the printing of the tree and the functions nothing calls. A tree that `get_tree` returns is
`some`; a division that dies or does not end is `none`: fuel bounds the recursion, as the
counter of `divide_tree` does, and the loops.
-/

namespace Amed.Generator

open BitFields

/-- A constraint: the masked word differs from the value. -/
structure Constraint where
  mask : BitVec 64
  value : BitVec 64
  deriving DecidableEq, Repr

/-- An entry of the tree: the bits of an encoding with its constraints. -/
structure Entry where
  opcode : BitVec 64
  mask : BitVec 64
  cmask : BitVec 64
  tmask : BitVec 64
  cnsts : List Constraint
  index : Nat
  opcode_inside : opcode &&& mask = opcode
  value_inside : ∀ c ∈ cnsts, c.value &&& c.mask = c.value
  cmask_eq : cmask = cnsts.foldl (fun m c => m ||| c.mask) 0
  tmask_eq : tmask = mask ||| cmask

/-- A node of the list that is divided. -/
structure TreeNode where
  entry : Entry
  mask : BitVec 64
  cmask : BitVec 64

def TreeNode.init (entry : Entry) : TreeNode := ⟨entry, entry.mask, entry.cmask⟩

/-- `get_bit_count` of the bits that are set; 0 counts as one. -/
def getBitCount (value : BitVec 64) : Nat := if value = 0 then 1 else bitCount 64 value.toNat

/-- `get_blessed_byte_from_mask`, counted from 0: the one byte that a mask stays in. -/
def getBlessedByteFromMask (mask : BitVec 64) : Option Nat :=
  (List.range 8).find? fun byte => mask &&& ~~~((0xff : BitVec 64) <<< (8 * byte)) = 0

/-- The variables `a`, `b` and so on of the generated code. -/
def byteOf (w : BitVec 64) (byte : Nat) : BitVec 64 := w >>> (8 * byte) &&& 0xff

/-! ## Trees -/

/-- The conditions of the generated ifs. -/
inductive Test
  | bit (byte : Nat) (varMask : BitVec 64)
  | constraint (mask value : BitVec 64)
  | entry (mask opcode : BitVec 64) (cnsts : List Constraint)
  deriving DecidableEq, Repr

def Test.holds (w : BitVec 64) : Test → Bool
  | .bit byte varMask => byteOf w byte &&& varMask ≠ 0
  | .constraint mask value => w &&& mask ≠ value
  | .entry mask opcode cnsts => w &&& mask = opcode && cnsts.all fun c => w &&& c.mask ≠ c.value

/-- A tree; an empty one prints nothing. -/
inductive Tree
  | empty
  | leaf (index : Nat)
  | ifThen (test : Test) (case1 case0 : Tree)
  | switch (byte : Nat) (varMask min : BitVec 64) (cases : List (BitVec 64 × Tree))

mutual

/-- What the generated code returns; none where it runs to its end. -/
def Tree.walk (w : BitVec 64) : Tree → Option Nat
  | .empty => none
  | .leaf index => some index
  | .ifThen test case1 case0 => if test.holds w then case1.walk w else case0.walk w
  | .switch byte varMask min cases => walkCases w ((byteOf w byte &&& varMask) - min) cases

def walkCases (w key : BitVec 64) : List (BitVec 64 × Tree) → Option Nat
  | [] => none
  | (value, tree) :: cases => if value = key then tree.walk w else walkCases w key cases

end

/-! ## Divisions -/

/-- `get_node_constraint`. -/
def getNodeConstraint (node : TreeNode) (mask : BitVec 64) : Option Constraint :=
  if node.cmask = 0 then none else node.entry.cnsts.find? fun c => mask &&& c.mask = c.mask

/-- `get_global_constraint`. -/
def getGlobalConstraint (nodes : List TreeNode) : Option Constraint :=
  match (nodes.map TreeNode.cmask).filter (· ≠ 0) with
  | [] => none
  | cmask :: cmasks =>
      let gmask := cmasks.foldl (· &&& ·) cmask
      let gmask := if gmask = 0 then cmasks.getLastD cmask else gmask
      nodes.findSome? fun node => getNodeConstraint node gmask

/-- The variables of the loop of `divide_cnsts`. -/
structure Split where
  gcmask : BitVec 64
  gcvalue : BitVec 64
  cnode : List TreeNode
  ncnode : List TreeNode

/-- A node without the constraint goes where its bits say, or both ways. -/
def Split.place (s : Split) (node : TreeNode) : Split :=
  if node.mask &&& s.gcmask = s.gcmask then
    if node.entry.opcode &&& s.gcmask = s.gcvalue then { s with ncnode := s.ncnode ++ [node] }
    else { s with cnode := s.cnode ++ [node] }
  else { s with ncnode := s.ncnode ++ [node], cnode := s.cnode ++ [node] }

/-- One pass of the loop of `divide_cnsts`. -/
def Split.step (s : Split) (node : TreeNode) : Split :=
  match getNodeConstraint node s.gcmask with
  | none => s.place node
  | some c =>
      let s := if s.gcmask = 0 then { s with gcmask := c.mask, gcvalue := c.value } else s
      if c.mask = s.gcmask ∧ s.gcvalue = c.value then
        { s with cnode := s.cnode ++ [{ node with cmask := node.cmask &&& ~~~s.gcmask }] }
      else s.place node

section Divide

variable (divide : List TreeNode → Option Tree)

/-- `divide_cnsts`. Where every node goes the same way the loop starts again with them. -/
def divideCnsts : Nat → List TreeNode → Option Tree
  | 0, _ => none
  | fuel + 1, nodes =>
      match getGlobalConstraint nodes with
      | none => divide nodes
      | some c =>
          let s := nodes.foldl Split.step ⟨c.mask, c.value, [], []⟩
          if s.ncnode.isEmpty then divideCnsts fuel s.cnode
          else
            (if s.cnode.isEmpty then some .empty else divide s.cnode).bind fun case1 =>
              (divide s.ncnode).map fun case0 => .ifThen (.constraint s.gcmask s.gcvalue) case1 case0

/-- `divide_hi_bits`. -/
def divideHiBits (nodes : List TreeNode) : Option Tree :=
  match nodes.mergeSort
      fun a b => decide (getBitCount b.entry.tmask ≤ getBitCount a.entry.tmask) with
  | [] => none
  | first :: next =>
      (divide [first]).bind fun case1 =>
        (divide next).map fun case0 =>
          .ifThen (.entry first.entry.mask first.entry.opcode first.entry.cnsts) case1 case0

/-- `divide_tree_terminal`, and `divide_conflicts`. -/
def divideTreeTerminal (fuel : Nat) : List TreeNode → Option Tree
  | [] => none
  | [node] => some (.leaf node.entry.index)
  | nodes =>
      if nodes.any fun node => node.cmask ≠ 0 then divideCnsts divide fuel nodes
      else divideHiBits divide nodes

/-- One pass of the loop of `get_effective_mask`. -/
def effectiveStep (s : BitVec 64 × BitVec 64 × BitVec 64) (node : TreeNode) :
    BitVec 64 × BitVec 64 × BitVec 64 :=
  let mask := s.1 &&& node.mask
  let value := node.entry.opcode &&& mask
  (mask, s.2.1 &&& (~~~value &&& mask), s.2.2 &&& value)

/-- `get_effective_mask`: the common bits in which the nodes differ. -/
def getEffectiveMask (nodes : List TreeNode) : BitVec 64 :=
  let s := nodes.foldl effectiveStep (BitVec.allOnes 64, BitVec.allOnes 64, BitVec.allOnes 64)
  s.1 ^^^ (s.2.2 ||| s.2.1)

/-- Take the bits that are used out of the mask. -/
def TreeNode.consume (used : BitVec 64) (node : TreeNode) : TreeNode :=
  { node with mask := node.mask &&& ~~~used }

def minSwitchCaseCount : Nat := 3
def maxSwitchCaseCount : Nat := 400

/-- `divide_tree_using_switch`; none where it fails and leaves the list alone. -/
def divideTreeUsingSwitch (fuel : Nat) (nodes : List TreeNode) : Option (Option Tree) :=
  let mask := getEffectiveMask nodes
  if mask = 0 then some (divideTreeTerminal divide fuel nodes)
  else if getBitCount mask < 2 then none
  else
    match getBlessedByteFromMask mask with
    | none => none
    | some byte =>
        let value (node : TreeNode) := (node.entry.opcode &&& mask) >>> (8 * byte)
        let values := (nodes.map value).eraseDups
        if values.length < minSwitchCaseCount ∨ maxSwitchCaseCount < values.length then none
        else
          let min := BitVec.ofNat 64 ((values.map BitVec.toNat).min?.getD 0)
          let cases := values.mapM fun v =>
            (divide ((nodes.filter fun node => value node = v).map (.consume mask))).map fun tree =>
              (v - min, tree)
          some (cases.map (.switch byte (mask >>> (8 * byte)) min))

/-- `divide_tree_using_if`: a common bit in which all nodes agree is passed over. -/
def divideTreeUsingIf (fuel : Nat) : Nat → List TreeNode → Option Tree
  | 0, _ => none
  | passes + 1, nodes =>
      if nodes.length < 2 then divideTreeTerminal divide fuel nodes
      else
        let mask := nodes.foldl (fun m node => m &&& node.mask) (BitVec.allOnes 64)
        match (List.range 64).find? fun bit => mask.getLsbD bit with
        | none => divideTreeTerminal divide fuel nodes
        | some bit =>
            let bitmask := (1 : BitVec 64) <<< bit
            match getBlessedByteFromMask bitmask with
            | none => some .empty
            | some byte =>
                let set (node : TreeNode) := decide (node.entry.opcode &&& bitmask ≠ 0)
                let node1 := (nodes.filter set).map (.consume bitmask)
                let node0 := (nodes.filter fun node => !set node).map (.consume bitmask)
                if node0.isEmpty then divideTreeUsingIf fuel passes node1
                else if node1.isEmpty then divideTreeUsingIf fuel passes node0
                else
                  (divide node0).bind fun case0 =>
                    (divide node1).map fun case1 =>
                      .ifThen (.bit byte (bitmask >>> (8 * byte))) case1 case0

end Divide

/-- `divide_tree`. A word has 64 bits to pass over. -/
def divideTree : Nat → List TreeNode → Option Tree
  | 0, _ => none
  | fuel + 1, nodes =>
      if nodes.isEmpty then none
      else
        match divideTreeUsingSwitch (divideTree fuel) fuel nodes with
        | some tree => tree
        | none => divideTreeUsingIf (divideTree fuel) fuel 65 nodes

/-- `get_tree`. -/
def getTree (fuel : Nat) (entries : List Entry) : Option Tree :=
  divideTree fuel (entries.map .init)

end Amed.Generator

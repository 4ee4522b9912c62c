import Amed.Generator.Expression

/-!
# The meaning of condition expressions

The value of an expression on the fields of an opcode word, and what the transformer keeps of
it. The parts of a field are kept only where nothing of the field lies above them.

## Implementation notes

Calls, names that are no fields, arithmetic and the order relations are given by an
interpretation: the transformer passes them on.
-/

namespace Amed.Generator

open BitFields

/-- The meaning of what the transformer passes on. -/
structure Interpretation where
  id : List Char → BitVec 64
  text : String → BitVec 64
  call : String → List (BitVec 64) → BitVec 64
  unary : String → BitVec 64 → BitVec 64
  binary : Operator → BitVec 64 → BitVec 64 → BitVec 64

def truth (b : Bool) : BitVec 64 := if b then 1 else 0

/-- The value of an operator. -/
def Operator.eval (I : Interpretation) (op : Operator) (left right : BitVec 64) : BitVec 64 :=
  match op with
  | .logicalOr => truth (left != 0 || right != 0)
  | .logicalAnd => truth (left != 0 && right != 0)
  | .equal => truth (left == right)
  | .notEqual => truth (left != right)
  | .and => left &&& right
  | .or => left ||| right
  | .xor => left ^^^ right
  | .shiftLeft => left <<< right
  | .shiftRight => left >>> right
  | op => I.binary op left right

/-- The word that a numeral stands for: there is none for a number beyond a word. -/
def Scalar.toWord : Scalar → Option (BitVec 64)
  | .text cs =>
      if Scalar.leadingNumber cs < 2 ^ 64 then some (Node.number (Scalar.leadingNumber cs))
      else none
  | .word value => some value

/-- The operators that go character by character where both operands are texts. -/
def Operator.onTexts : Operator → Option (List Char → List Char → List Char)
  | .and => some Scalar.andTexts
  | .or => some (Scalar.zipTexts (· ||| ·))
  | .xor => some (Scalar.zipTexts (· ^^^ ·))
  | _ => none

/-- The value of a comparison with a pattern: only its digits are compared. -/
def Operator.evalPattern (op : Operator) (left : BitVec 64) (bits : List PatternBit) :
    Option (BitVec 64) :=
  let same := left &&& Node.number (getMaskFromBin bits) == Node.number (getBinValue bits)
  match op with
  | .equal => some (truth same)
  | .notEqual => some (truth !same)
  | _ => none

/-- Bits `high` down to `low` of a word. -/
def bitsOf (value : BitVec 64) (high low : Nat) : BitVec 64 :=
  Node.number (value.toNat / 2 ^ low % 2 ^ (high - low + 1))

namespace Node

/-- The pattern of a binary literal with open bits. -/
def pattern : Node → Option (List PatternBit)
  | .bin bits => if isFixed bits then none else some bits
  | _ => none

/-- Words one behind another, the first most significant: every further one with its width. -/
def joinWords (value : BitVec 64) : List (BitVec 64 × Nat) → BitVec 64
  | [] => value
  | (next, width) :: rest => joinWords (value <<< width ||| next) rest

/-- The width of a node: of a field, a binary literal, a part and a concatenation. -/
def width (fields : List DiagramField) : Node → Option Nat
  | .id name _ => (lookupField fields name).map DiagramField.size
  | .bin bits => some bits.length
  | .part _ (.dec high _) (.dec low _) =>
      if low.value.toNat ≤ high.value.toNat then
        some (high.value.toNat - low.value.toNat + 1)
      else none
  | .slice arguments => widthList fields arguments
  | _ => none
where
  widthList (fields : List DiagramField) : List Node → Option Nat
    | [] => some 0
    | node :: nodes =>
        (width fields node).bind fun n => (widthList fields nodes).map fun m => n + m

mutual

/-- The value of a node on the fields of an opcode word. -/
def eval (fields : List DiagramField) (I : Interpretation) (w : BitVec 32) :
    Node → Option (BitVec 64)
  | .dec value _ => value.toWord
  | .hex value => some value
  | .bin bits => if isFixed bits then some (number (getBinValue bits)) else none
  | .bool value => some (truth value)
  | .float text => some (I.text text)
  | .sqstr text => some (I.text text)
  | .id name _ =>
      match lookupField fields name with
      | some field => some (number (field.field.get w.toNat))
      | none => some (I.id name)
  | .opcode => some (w.setWidth 64)
  | .call name arguments _ =>
      (evalList fields I w arguments).bind fun values =>
        if name = "IsOnes" then
          match arguments, values with
          | [argument], [value] =>
              (width fields argument).map fun n => truth (value == number (2 ^ n - 1))
          | _, _ => none
        else some (I.call name values)
  | .part primary high low =>
      (eval fields I w primary).bind fun value =>
        (eval fields I w high).bind fun high =>
          (eval fields I w low).bind fun low =>
            if low.toNat ≤ high.toNat then some (bitsOf value high.toNat low.toNat) else none
  | .slice arguments =>
      (evalList fields I w arguments).bind fun values =>
        (arguments.tail.mapM (width fields)).bind fun widths =>
          -- the grammar has no concatenation of less than two operands
          match values with
          | value :: next :: rest => some (joinWords value ((next :: rest).zip widths))
          | _ => none
  | .unary op operand => (eval fields I w operand).map (I.unary op)
  | .expression left op right _ =>
      match left.pattern, right.pattern with
      | none, none =>
          (eval fields I w left).bind fun left => (eval fields I w right).map (op.eval I left)
      | none, some bits => (eval fields I w left).bind fun left => op.evalPattern left bits
      | some bits, none => (eval fields I w right).bind fun right => op.evalPattern right bits
      -- nothing tells what two patterns have in common
      | some _, some _ => none
  | .inExpression left items =>
      (eval fields I w left).bind fun left =>
        (evalList fields I w items).map fun values => truth (values.contains left)

def evalList (fields : List DiagramField) (I : Interpretation) (w : BitVec 32) :
    List Node → Option (List (BitVec 64))
  | [] => some []
  | node :: nodes =>
      (eval fields I w node).bind fun value =>
        (evalList fields I w nodes).map fun values => value :: values

end

section Eval

variable (fields : List DiagramField) (I : Interpretation) (w : BitVec 32)

/-- A pattern with a bit that is not fixed has no value of its own. -/
theorem eval_bin (bits : List PatternBit) :
    eval fields I w (.bin bits) = if isFixed bits then some (number (getBinValue bits)) else none :=
  rfl

/-- A field of the diagram has the value of its bits in the word. -/
theorem eval_id {name : List Char} {field : DiagramField}
    (h : lookupField fields name = some field) (size : Option Nat) :
    eval fields I w (.id name size) = some (number (field.field.get w.toNat)) := by
  rw [eval, h]

/-- A name that is no field has the value that the interpretation gives it. -/
theorem eval_id_of_none {name : List Char} (h : lookupField fields name = none)
    (size : Option Nat) : eval fields I w (.id name size) = some (I.id name) := by
  rw [eval, h]

theorem eval_call {name : String} (h : name ≠ "IsOnes") (arguments : List Node)
    (size : Option Nat) :
    eval fields I w (.call name arguments size) =
      (evalList fields I w arguments).map (I.call name) := by
  show (evalList fields I w arguments).bind _ = _
  simp only [if_neg h]
  cases evalList fields I w arguments <;> rfl

/-- A part has a value only if its bounds are in order. -/
theorem eval_part (primary high low : Node) :
    eval fields I w (.part primary high low) =
      (eval fields I w primary).bind fun value =>
        (eval fields I w high).bind fun high =>
          (eval fields I w low).bind fun low =>
            if low.toNat ≤ high.toNat then some (bitsOf value high.toNat low.toNat) else none :=
  rfl

theorem eval_unary (op : String) (operand : Node) :
    eval fields I w (.unary op operand) = (eval fields I w operand).map (I.unary op) := rfl

/-- Two sides without a pattern are compared as words. -/
theorem eval_expression_of_none {left right : Node} (hleft : left.pattern = none)
    (hright : right.pattern = none) (op : Operator) (size : Option Nat) :
    eval fields I w (.expression left op right size) =
      (eval fields I w left).bind fun left => (eval fields I w right).map (op.eval I left) := by
  rw [eval, hleft, hright]

/-- A pattern on the right is compared bit by bit. -/
theorem eval_expression_of_some {left right : Node} {bits : List PatternBit}
    (hleft : left.pattern = none) (hright : right.pattern = some bits) (op : Operator)
    (size : Option Nat) :
    eval fields I w (.expression left op right size) =
      (eval fields I w left).bind fun left => op.evalPattern left bits := by
  rw [eval, hleft, hright]

theorem evalList_cons (node : Node) (nodes : List Node) :
    evalList fields I w (node :: nodes) =
      (eval fields I w node).bind fun value =>
        (evalList fields I w nodes).map fun values => value :: values := rfl

end Eval

end Node

/-- The operators that are folded from two numbers to a number. -/
def Operator.folds : Operator → Bool
  | .and | .or | .xor | .shiftLeft | .shiftRight => true
  | _ => false

namespace Node

mutual

/-- The visitor folds the node to a number. -/
def isConstant (fields : List DiagramField) : Node → Bool
  | .dec _ _ => true
  | .hex _ => true
  | .bin bits => isFixed bits
  | .id name _ => (lookupField fields name).any fun field => isFixed field.value
  | .part primary _ _ => isConstant fields primary
  | .slice arguments => allConstant fields arguments
  | .expression left op right _ => op.folds && isConstant fields left && isConstant fields right
  | _ => false

def allConstant (fields : List DiagramField) : List Node → Bool
  | [] => true
  | node :: nodes => isConstant fields node && allConstant fields nodes

end

/-- The text that the visitor makes of a node of numerals. -/
def text : Node → Option (List Char)
  | .dec (.text cs) _ => some cs
  | .expression left op right _ =>
      op.onTexts.bind fun f => (text left).bind fun cs => (text right).map (f cs)
  | _ => none

variable (fields : List DiagramField) (I : Interpretation) (w : BitVec 32)

/-- What two operands give as texts stands for what they give as numbers. -/
def TextsAgree (left : Node) (op : Operator) (right : Node) : Prop :=
  ∀ f cs ds, op.onTexts = some f → text left = some cs → text right = some ds →
    Scalar.leadingNumber (f cs ds) =
      (op.eval I (Scalar.text cs).value (Scalar.text ds).value).toNat

/-- The visitor gets the width of the node right: of a field, a binary literal and a
concatenation of such nodes. A number that was folded counts as wide as its digits. -/
inductive Sized : Node → Prop
  | id {name : List Char} {size : Option Nat} (h : (lookupField fields name).isSome) :
      Sized (.id name size)
  | bin {bits : List PatternBit} (h : isFixed bits = true) : Sized (.bin bits)
  | slice {arguments : List Node} (hargs : ∀ argument ∈ arguments, Sized argument)
      (h : isConstant fields (.slice arguments) = false) : Sized (.slice arguments)
  | constant {node : Node} (h : isConstant fields node = true)
      (hlen : ∀ v n, eval fields I w node = some v → width fields node = some n →
        getBitLength v.toNat = n) : Sized node

/-- The expressions whose value the transformer keeps. A part has literal bounds and nothing
of its operand above it, the operands behind the first of a concatenation and the one of
`IsOnes` have the size they should have, no pattern is compared from the left, an operator on
numerals alone gives the same on their texts, and there is no `IN`. -/
inductive Kept : Node → Prop
  | dec (value : Scalar) (size : Option Nat) : Kept (.dec value size)
  | hex (value : BitVec 64) : Kept (.hex value)
  | bin (bits : List PatternBit) : Kept (.bin bits)
  | bool (value : Bool) : Kept (.bool value)
  | float (text : String) : Kept (.float text)
  | sqstr (text : String) : Kept (.sqstr text)
  | id (name : List Char) (size : Option Nat) : Kept (.id name size)
  | opcode : Kept .opcode
  | call {name : String} {arguments : List Node} {size : Option Nat} (hname : name ≠ "part")
      (hargs : ∀ argument ∈ arguments, Kept argument)
      (hones : name = "IsOnes" → ∀ argument ∈ arguments, Sized fields I w argument) :
      Kept (.call name arguments size)
  | part {primary : Node} {high low : Scalar} {size size' : Option Nat}
      (hprimary : Kept primary)
      (hvalue : ∀ v, eval fields I w primary = some v →
        v >>> high.value = bitsOf v high.value.toNat low.value.toNat) :
      Kept (.part primary (.dec high size) (.dec low size'))
  | slice {arguments : List Node} (hargs : ∀ argument ∈ arguments, Kept argument)
      (htail : ∀ argument ∈ arguments.tail, Sized fields I w argument) : Kept (.slice arguments)
  | unary {op : String} {operand : Node} (h : Kept operand) : Kept (.unary op operand)
  | expression {left right : Node} {op : Operator} {size : Option Nat} (hleft : Kept left)
      (hright : Kept right) (hpattern : left.pattern = none)
      (htexts : TextsAgree I left op right) : Kept (.expression left op right size)

end Node

end Amed.Generator

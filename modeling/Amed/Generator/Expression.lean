import Amed.Generator.Encodedin

/-!
# Condition expressions

The syntax trees of the condition grammar and the visitor of `CExpression::Transformer`, which
replaces the fields of an instruction diagram by bits of the opcode.

## Implementation notes

Parser and visitor use one kind of node; `bool`, `opcode` and the sizes only come from the
visitor. A number that was computed is a 64-bit word; a number of the grammar is the text that the
lexer has found, and `&`, `|` and `^` of two texts go character by character, as in Perl. A visit
that ends with an error is `none`. The source text of a node is kept where nothing looks into it
(`float`, `sqstr`, the names of calls and unary operators). The flag `mask` of a number, which the
printer reads, is left out.
-/

namespace Amed.Generator

open TextRange

/-- The operators of the grammar with two operands. -/
inductive Operator
  | logicalOr | logicalAnd | or | xor | and | equal | notEqual | less | greater | lessEqual
  | greaterEqual | shiftLeft | shiftRight | add | sub | mul | div | mod
  deriving DecidableEq, Repr

/-- A number: a text of the grammar or of an operator on texts, or a computed word. -/
inductive Scalar
  | text (cs : List Char)
  | word (value : BitVec 64)
  deriving DecidableEq, Repr

/-- A node of a syntax tree. -/
inductive Node
  | dec (value : Scalar) (size : Option Nat)
  | hex (value : BitVec 64)
  | bin (bits : List PatternBit)
  | bool (value : Bool)
  | float (text : String)
  | sqstr (text : String)
  | id (name : List Char) (size : Option Nat)
  | opcode
  | call (name : String) (arguments : List Node) (size : Option Nat)
  | part (expression high low : Node)
  | slice (arguments : List Node)
  | unary (op : String) (expression : Node)
  | expression (left : Node) (op : Operator) (right : Node) (size : Option Nat)
  | inExpression (left : Node) (items : List Node)

/-- A number as a word; a larger one counts as the largest. -/
def Node.number (n : Nat) : BitVec 64 := BitVec.ofNat 64 (min n (2 ^ 64 - 1))

/-! ## Numbers and texts -/

namespace Scalar

def isBlank (c : Char) : Bool := c = ' ' || 9 ≤ c.toNat && c.toNat ≤ 13

/-- The number at the front of a text. -/
def leadingNumber (cs : List Char) : Nat :=
  numberOf ((cs.dropWhile isBlank).takeWhile Char.isDigit)

/-- A scalar where a number is asked for. -/
def value : Scalar → BitVec 64
  | .text cs => Node.number (leadingNumber cs)
  | .word value => value

/-- `&` of two texts: as long as the shorter one. -/
def andTexts (cs ds : List Char) : List Char :=
  List.zipWith (fun c d => Char.ofNat (c.toNat &&& d.toNat)) cs ds

/-- `|` and `^` of two texts: the rest of the longer one stays. -/
def zipTexts (f : Nat → Nat → Nat) : List Char → List Char → List Char
  | [], ds => ds
  | cs, [] => cs
  | c :: cs, d :: ds => Char.ofNat (f c.toNat d.toNat) :: zipTexts f cs ds

/-- A bitwise operator: one word makes the other operand a word. -/
def bitwise (onTexts : List Char → List Char → List Char)
    (onWords : BitVec 64 → BitVec 64 → BitVec 64) : Scalar → Scalar → Scalar
  | .text cs, .text ds => .text (onTexts cs ds)
  | left, right => .word (onWords left.value right.value)

end Scalar

namespace Node

/-- The size of a node as a number: none counts as 0. -/
def size : Node → Nat
  | .dec _ size => size.getD 0
  | .bool value => if value then 0 else 1
  | .id _ size => size.getD 0
  | .opcode => 32
  | .call _ _ size => size.getD 0
  | .expression _ _ _ size => size.getD 0
  | _ => 0

/-- `$size or $size = default` -/
def sizeOr (size : Option Nat) (default : Nat) : Nat :=
  if size.getD 0 = 0 then default else size.getD 0

/-- `make_dec`, and `make_mask`. -/
def makeDec (value : Scalar) (size : Option Nat) : Node :=
  .dec value (some (sizeOr size (getBitLength value.value.toNat)))

def makeWord (value : BitVec 64) (size : Option Nat) : Node := makeDec (.word value) size

/-- `make_expression`. -/
def makeExpression (left : Node) (op : Operator) (right : Node) (size : Option Nat) : Node :=
  .expression left op right (some (sizeOr size 32))

/-- `visit_id`. -/
def visitId (fields : List DiagramField) (name : List Char) (size : Option Nat) : Node :=
  match lookupField fields name with
  | some field =>
      if isFixed field.value then makeWord (number (getBinValue field.value)) (some field.size)
      else
        let mask := makeWord (number (getMaskOfSize field.size <<< field.pos)) none
        makeExpression (makeExpression .opcode .and mask none) .shiftRight
          (makeWord (number field.pos) none) (some field.size)
  | none => .id name (some (sizeOr size 32))

/-- `visit_bin`. -/
def visitBin (bits : List PatternBit) : Node :=
  if isFixed bits then makeWord (number (getBinValue bits)) (some bits.length) else .bin bits

/-- The end of `visit_isones`. -/
def visitIsOnes (arg : Node) : Node :=
  makeExpression arg .equal (makeWord (number (getMaskOfSize arg.size)) none) (some arg.size)

/-- The folded value of an operator on two numbers. -/
def foldDec (left : Scalar) (op : Operator) (right : Scalar) : Option Node :=
  match op with
  | .equal => some (.bool (left.value == right.value))
  | .notEqual => some (.bool (left.value != right.value))
  | .and => some (makeDec (.bitwise Scalar.andTexts (· &&& ·) left right) none)
  | .or => some (makeDec (.bitwise (Scalar.zipTexts (· ||| ·)) (· ||| ·) left right) none)
  | .xor => some (makeDec (.bitwise (Scalar.zipTexts (· ^^^ ·)) (· ^^^ ·) left right) none)
  | .shiftRight => some (makeWord (left.value >>> right.value) none)
  | .shiftLeft => some (makeWord (left.value <<< right.value) none)
  | _ => none

/-- The folded value of an operator on two truth values. -/
def foldBool (left : Bool) (op : Operator) (right : Bool) : Option Node :=
  match op with
  | .logicalOr => some (.bool (left || right))
  | .logicalAnd => some (.bool (left && right))
  | .equal => some (.bool (left == right))
  | .notEqual => some (.bool (left != right))
  | _ => none

/-- A comparison with a pattern. -/
def matchBin (left : Node) (op : Operator) (bits : List PatternBit) : Option Node :=
  if op = .equal ∨ op = .notEqual then
    some (makeExpression
      (makeExpression left .and (makeWord (number (getMaskFromBin bits)) none) none) op
      (makeWord (number (getBinValue bits)) none) none)
  else none

/-- The ends of `visit_logical_expression`, `visit_equality_expression`,
`visit_binary_expression` and `visit_shift_expression`, and of the visits of the other
operators, on the visited operands. -/
def foldExpression (left : Node) (op : Operator) (right : Node) (size : Option Nat) : Node :=
  let folded :=
    match left, right with
    | .dec left _, .dec right _ => foldDec left op right
    | .bool left, .bool right => foldBool left op right
    | left, .bin bits => matchBin left op bits
    | _, _ => none
  folded.getD (.expression left op right size)

/-- The shifts of the operands of a concatenation, and its size. -/
def shiftArguments : List Node → List Node × Nat
  | [] => ([], 0)
  | argument :: arguments =>
      let (shifted, size) := shiftArguments arguments
      (makeExpression argument .shiftLeft (makeWord (number size) none) none :: shifted,
        size + argument.size)

/-- The chain of `|` over the operands of a concatenation. -/
def orChain (size : Nat) : List Node → Option Node
  | left :: right :: arguments =>
      (orRest (right :: arguments)).map fun right => .expression left .or right (some size)
  | _ => none
where
  orRest : List Node → Option Node
    | [] => none
    | [argument] => some argument
    | left :: arguments =>
        (orRest arguments).map fun right => .expression left .or right (some 32)

mutual

/-- `visit`. A concatenation is put together from its visited operands and visited once more,
by `revisit`. -/
def visit (revisit : Node → Option Node) (fields : List DiagramField) : Node → Option Node
  | .hex value => some (makeWord value none)
  | .bin bits => some (visitBin bits)
  | .id name size => some (visitId fields name size)
  | .call name [] size =>
      -- there is no method `optimize_part`, and no node to visit for `IsOnes`
      if name = "part" ∨ name = "IsOnes" then none else some (.call name [] size)
  | .call name (argument :: arguments) size =>
      if name = "part" then none
      else
        (visit revisit fields argument).bind fun argument =>
          if name = "IsOnes" then some (visitIsOnes argument)
          else
            (visitList revisit fields arguments).map fun arguments =>
              .call name (argument :: arguments) size
  | .part primary (.dec high size) (.dec _ _) =>
      (visit revisit fields primary).map fun primary =>
        foldExpression primary .shiftRight (.dec high size) (some 32)
  | .part _ _ _ => none
  | .slice arguments =>
      (visitList revisit fields arguments).bind fun arguments =>
        let (shifted, size) := shiftArguments arguments
        (orChain size shifted).bind revisit
  | .unary op operand => (visit revisit fields operand).map (.unary op)
  | .expression left op right size =>
      (visit revisit fields left).bind fun left =>
        (visit revisit fields right).map fun right => foldExpression left op right size
  | .inExpression _ _ => none
  | node => some node

def visitList (revisit : Node → Option Node) (fields : List DiagramField) :
    List Node → Option (List Node)
  | [] => some []
  | node :: nodes =>
      (visit revisit fields node).bind fun node =>
        (visitList revisit fields nodes).map fun nodes => node :: nodes

end

section Visit

variable (revisit : Node → Option Node) (fields : List DiagramField)

theorem visit_call_nil (name : String) (size : Option Nat) :
    visit revisit fields (.call name [] size) =
      if name = "part" ∨ name = "IsOnes" then none else some (.call name [] size) := rfl

/-- `IsOnes` is expanded, and `part` has no visitor; any other call keeps its visited
arguments. -/
theorem visit_call_cons (name : String) (argument : Node) (arguments : List Node)
    (size : Option Nat) :
    visit revisit fields (.call name (argument :: arguments) size) =
      if name = "part" then none
      else
        (visit revisit fields argument).bind fun argument =>
          if name = "IsOnes" then some (visitIsOnes argument)
          else
            (visitList revisit fields arguments).map fun arguments =>
              .call name (argument :: arguments) size := rfl

/-- `part` of two literals becomes a shift to the right. -/
theorem visit_part (primary : Node) (high low : Scalar) (size size' : Option Nat) :
    visit revisit fields (.part primary (.dec high size) (.dec low size')) =
      (visit revisit fields primary).map fun primary =>
        foldExpression primary .shiftRight (.dec high size) (some 32) := rfl

/-- A concatenation becomes a chain of `|` over its operands, each shifted to its place. -/
theorem visit_arguments (arguments : List Node) :
    visit revisit fields (.slice arguments) =
      (visitList revisit fields arguments).bind fun arguments =>
        (orChain (shiftArguments arguments).2 (shiftArguments arguments).1).bind revisit := rfl

theorem visit_unary (op : String) (operand : Node) :
    visit revisit fields (.unary op operand) =
      (visit revisit fields operand).map (.unary op) := rfl

theorem visit_expression (left right : Node) (op : Operator) (size : Option Nat) :
    visit revisit fields (.expression left op right size) =
      (visit revisit fields left).bind fun left =>
        (visit revisit fields right).map fun right => foldExpression left op right size := rfl

theorem visitList_cons (node : Node) (nodes : List Node) :
    visitList revisit fields (node :: nodes) =
      (visit revisit fields node).bind fun node =>
        (visitList revisit fields nodes).map fun nodes => node :: nodes := rfl

end Visit

/-- The visit of a transformer with the given fields. The nodes visited once more hold no
concatenation. -/
def transform (fields : List DiagramField) : Node → Option Node :=
  visit (visit (fun _ => none) fields) fields

end Node

end Amed.Generator

import Mathlib.Data.List.TakeWhile
import Amed.Generator.Preservation
import Amed.Library.CValues

/-!
# Printed conditions

`CExpression::Printer` writes an expression as a C expression: every operator with two operands in
parentheses, everything else without.

## Implementation notes

The flag `mask` of a number is not part of a node: `mask` tells by the path to a number whether it
is set. The text of a hexadecimal number is not part of its node either; the transformer leaves
none. A division is written with the operator `/`, not with the word `DIV`.
-/

namespace Amed.Generator

open CSyntax Printing TextRange

/-- The text of an operator. -/
def Operator.text : Operator → List Char
  | .logicalOr => ['|', '|']
  | .logicalAnd => ['&', '&']
  | .or => ['|']
  | .xor => ['^']
  | .and => ['&']
  | .equal => ['=', '=']
  | .notEqual => ['!', '=']
  | .less => ['<']
  | .greater => ['>']
  | .lessEqual => ['<', '=']
  | .greaterEqual => ['>', '=']
  | .shiftLeft => ['<', '<']
  | .shiftRight => ['>', '>']
  | .add => ['+']
  | .sub => ['-']
  | .mul => ['*']
  | .div => ['/']
  | .mod => ['%']

def PatternBit.text : PatternBit → Char
  | .zero => '0'
  | .one => '1'
  | .any => 'x'

/-- A number as Perl prints it: a text of the grammar stays. -/
def Scalar.print : Scalar → List Char
  | .text cs => cs
  | .word value => decimal value.toNat

namespace Node

/-- `visit_dec`. -/
def visitDec (masked : Bool) (value : Scalar) : List Char :=
  if masked then '0' :: 'x' :: Printing.hex 8 value.value.toNat else value.print

/-- The flags of the `i`-th child of a node. -/
def child (mask : List Nat → Bool) (i : Nat) (path : List Nat) : Bool := mask (i :: path)

mutual

/-- `visit` of the printer: there is no method for `inexpression`. -/
def print (mask : List Nat → Bool) : Node → Option (List Char)
  | .dec value _ => some (visitDec (mask []) value)
  | .hex value => some ('0' :: 'x' :: Printing.hex 0 value.toNat)
  | .bin bits => some ('0' :: 'b' :: bits.map PatternBit.text)
  | .bool value => some (if value then ['t', 'r', 'u', 'e'] else ['f', 'a', 'l', 's', 'e'])
  | .float text => some text.toList
  | .sqstr text => some text.toList
  | .id name _ => some name
  | .opcode => some ['o', 'p', 'c', 'o', 'd', 'e']
  | .call name arguments _ =>
      (printList mask 0 arguments).map fun texts =>
        name.toList ++ '(' :: (commaBlank texts ++ [')'])
  | .part primary _ _ => print (child mask 0) primary
  -- a concatenation has no name, and its visited operands are not printed
  | .slice arguments => (printList mask 0 arguments).map fun _ => ['(', ')']
  | .unary op operand => (print (child mask 0) operand).map (op.toList ++ ·)
  | .expression left op right _ =>
      (print (child mask 0) left).bind fun left =>
        (print (child mask 1) right).map fun right =>
          '(' :: (left ++ ' ' :: (op.text ++ ' ' :: (right ++ [')'])))
  | .inExpression _ _ => none

def printList (mask : List Nat → Bool) : Nat → List Node → Option (List (List Char))
  | _, [] => some []
  | i, node :: nodes =>
      (print (child mask i) node).bind fun text =>
        (printList mask (i + 1) nodes).map fun texts => text :: texts

end

/-! ## What C reads -/

/-- A name that C takes for an identifier, and that is none of the printed words. -/
def isIdentifier (name : List Char) : Bool :=
  name.head?.any isLetter && name.all isLetterOrDigit

def reserved : List (List Char) :=
  [['o', 'p', 'c', 'o', 'd', 'e'], ['t', 'r', 'u', 'e'], ['f', 'a', 'l', 's', 'e']]

/-- A number that is printed as digits. -/
def isDigits : Scalar → Bool
  | .text cs => !cs.isEmpty && cs.all Char.isDigit
  | .word _ => true

/-- The sign an expression is printed with in front. -/
def frontSign : Node → Option String
  | .unary op _ => some op
  | _ => none

/-- A sign in front of an expression that is not printed with the same one in front; `!!` is two
signs all the same. -/
def signFits (op : String) (e : Node) : Bool :=
  op = "!" || (op = "+" || op = "-") && e.frontSign ≠ some op

mutual

/-- The expressions that are printed as C expressions. -/
def isPrintable : Node → Bool
  | .dec value _ => isDigits value
  | .bool _ => true
  | .opcode => true
  | .id name _ => isIdentifier name && !reserved.contains name
  | .call name arguments _ => isIdentifier name.toList && allPrintable arguments
  | .unary op e => signFits op e && isPrintable e
  | .expression left _ right _ => isPrintable left && isPrintable right
  | _ => false

def allPrintable : List Node → Bool
  | [] => true
  | node :: nodes => isPrintable node && allPrintable nodes

end

mutual

/-- The C expression that an expression is printed as. -/
def toC (mask : List Nat → Bool) : Node → Expr
  | .dec value _ => .number (visitDec (mask []) value)
  | .bool value => .word (if value then ['t', 'r', 'u', 'e'] else ['f', 'a', 'l', 's', 'e'])
  | .opcode => .word ['o', 'p', 'c', 'o', 'd', 'e']
  | .id name _ => .word name
  | .call name arguments _ => .call name.toList (allToC mask 0 arguments)
  | .unary op e => .unary (op.toList.headD ' ') (toC (child mask 0) e)
  | .expression left op right _ =>
      .binary op.text (toC (child mask 0) left) (toC (child mask 1) right)
  | _ => .word []

def allToC (mask : List Nat → Bool) : Nat → List Node → List Expr
  | _, [] => []
  | i, node :: nodes => toC (child mask i) node :: allToC mask (i + 1) nodes

end

theorem precedence_text (op : Operator) : ∃ level, precedence op.text = some level := by
  cases op <;> exact ⟨_, rfl⟩

theorem isLetterOrDigit_digitChar : ∀ d < 16, CSyntax.isLetterOrDigit d.digitChar = true := by
  decide

theorem print_digits {value : Scalar} (h : isDigits value = true) :
    value.print ≠ [] ∧ ∀ c ∈ value.print, c.isDigit = true := by
  cases value with
  | text cs =>
      rw [isDigits, Bool.and_eq_true, Bool.not_eq_true', List.isEmpty_eq_false_iff,
        List.all_eq_true] at h
      exact h
  | word value =>
      exact ⟨decimal_ne_nil value.toNat, forall_toDigits (by decide) (by decide) value.toNat⟩

theorem visitDec_cons (masked : Bool) {value : Scalar} (h : isDigits value = true) :
    ∃ c run, visitDec masked value = c :: run ∧ c.isDigit = true ∧
      ∀ d ∈ run, isLetterOrDigit d = true := by
  cases masked with
  | true =>
      refine ⟨'0', _, rfl, rfl, List.forall_mem_cons.mpr ⟨rfl, fun c hc => ?_⟩⟩
      rw [Printing.hex, List.leftpad, List.mem_append] at hc
      obtain hc | hc := hc
      · rw [List.eq_of_mem_replicate hc]
        rfl
      · exact forall_toDigits (by decide) (P := (isLetterOrDigit · = true))
          isLetterOrDigit_digitChar _ c hc
  | false =>
      obtain ⟨hne, hdigits⟩ := print_digits h
      obtain ⟨c, run, hrun⟩ := List.exists_cons_of_ne_nil hne
      rw [hrun] at hdigits
      obtain ⟨hc, hdigits⟩ := List.forall_mem_cons.mp hdigits
      refine ⟨c, run, hrun, hc, fun d hd => ?_⟩
      rw [isLetterOrDigit, hdigits d hd, Bool.or_true]

theorem isIdentifier_cons {name : List Char} (h : isIdentifier name = true) :
    ∃ c run, name = c :: run ∧ isLetter c = true ∧ ∀ d ∈ run, isLetterOrDigit d = true := by
  cases name with
  | nil => cases h
  | cons c run =>
      rw [isIdentifier, Bool.and_eq_true, List.all_eq_true] at h
      exact ⟨c, run, rfl, h.1, (List.forall_mem_cons.mp h.2).2⟩

/-- What the text of a printable expression starts with. -/
def Fronts (e : Node) (c : Char) : Prop :=
  c = '(' ∨ isLetterOrDigit c = true ∨
    c ∈ ['+', '-', '!'] ∧ ∃ op : String, e.frontSign = some op ∧ op.toList = [c]

/-- The text is cut into tokens that C reads as the operand. -/
structure IsPrinted (mask : List Nat → Bool) (e : Node) (text : List Char) : Prop where
  spells : ∃ tokens, Spells text tokens ∧ IsOperand tokens (toC mask e)
  front : ∃ c rest, text = c :: rest ∧ Fronts e c

theorem signFits_cases {op : String} {e : Node} (h : signFits op e = true) :
    ∃ sign ∈ ['+', '-', '!'], op.toList = [sign] ∧
      ∀ c, Fronts e c → c = '(' ∨ isLetterOrDigit c = true ∨
        c ∈ ['+', '-', '!'] ∧ (sign = '!' ∨ c ≠ sign) := by
  have hother {sign : Char} (hop : op.toList = [sign]) (hne : e.frontSign ≠ some op) (c : Char)
      (hc : Fronts e c) : c = '(' ∨ isLetterOrDigit c = true ∨
        c ∈ ['+', '-', '!'] ∧ (sign = '!' ∨ c ≠ sign) := by
    refine hc.imp_right (Or.imp_right fun hsign => ⟨hsign.1, Or.inr ?_⟩)
    rintro rfl
    obtain ⟨op', hfront, hop'⟩ := hsign.2
    exact hne (hfront.trans (congrArg some (String.toList_inj.mp (hop'.trans hop.symm))))
  simp only [signFits, Bool.or_eq_true, Bool.and_eq_true, decide_eq_true_eq] at h
  obtain rfl | ⟨rfl | rfl, hne⟩ := h
  · exact ⟨'!', by decide, rfl, fun c hc => hc.imp_right (Or.imp_right fun h => ⟨h.1, Or.inl rfl⟩)⟩
  · exact ⟨'+', by decide, rfl, hother rfl hne⟩
  · exact ⟨'-', by decide, rfl, hother rfl hne⟩

/-- The printed arguments of a call. -/
theorem printList_spec {arguments : List Node}
    (h : ∀ argument ∈ arguments, ∀ mask, isPrintable argument = true →
      ∃ text, print mask argument = some text ∧ IsPrinted mask argument text)
    (mask : List Nat → Bool) (i : Nat) (hprintable : allPrintable arguments = true) :
    ∃ texts tokens, printList mask i arguments = some texts ∧ List.Forall₂ Spells texts tokens ∧
      List.Forall₂ IsOperand tokens (allToC mask i arguments) := by
  induction arguments generalizing i with
  | nil => exact ⟨[], [], rfl, .nil, .nil⟩
  | cons node nodes ih =>
      rw [allPrintable, Bool.and_eq_true] at hprintable
      obtain ⟨text, htext, hprinted⟩ := h node (.head _) (child mask i) hprintable.1
      obtain ⟨tokens, hspells, hoperand⟩ := hprinted.spells
      obtain ⟨texts, more, htexts, hmore, hoperands⟩ :=
        ih (fun argument hargument => h argument (.tail _ hargument)) (i + 1) hprintable.2
      refine ⟨text :: texts, tokens :: more, ?_, .cons hspells hmore, .cons hoperand hoperands⟩
      rw [printList, htext, Option.bind_some, htexts, Option.map_some]

theorem isPrinted_number (mask : List Nat → Bool) {value : Scalar} (h : isDigits value = true)
    (size : Option Nat) : IsPrinted mask (.dec value size) (visitDec (mask []) value) := by
  obtain ⟨c, run, hrun, hc, hdigits⟩ := visitDec_cons (mask []) h
  refine ⟨⟨[.number (visitDec (mask []) value)], ?_, .number _⟩, c, run, hrun, .inr (.inl ?_)⟩
  · rw [hrun]
    exact .number hc hdigits
  · rw [isLetterOrDigit, hc, Bool.or_true]

theorem isPrinted_word {name : List Char} (hname : isIdentifier name = true)
    {mask : List Nat → Bool} {e : Node} (he : toC mask e = .word name) : IsPrinted mask e name := by
  obtain ⟨c, run, rfl, hc, hrun⟩ := isIdentifier_cons hname
  refine ⟨⟨[.word (c :: run)], .word hc hrun, he ▸ .word _⟩, c, run, rfl, .inr (.inl ?_)⟩
  rw [isLetterOrDigit, hc, Bool.true_or]

/-- A printable expression is printed as the C expression. -/
theorem print_spec (e : Node) : ∀ mask, isPrintable e = true →
    ∃ text, print mask e = some text ∧ IsPrinted mask e text := by
  induction e using induction_children with
  | step e ih => ?_
  intro mask hprintable
  cases e with
  | dec value size => exact ⟨_, rfl, isPrinted_number mask hprintable size⟩
  | bool value =>
      refine ⟨_, rfl, ?_⟩
      cases value
      · exact isPrinted_word rfl rfl
      · exact isPrinted_word rfl rfl
  | opcode => exact ⟨_, rfl, isPrinted_word rfl rfl⟩
  | id name size =>
      rw [isPrintable, Bool.and_eq_true] at hprintable
      exact ⟨_, rfl, isPrinted_word hprintable.1 rfl⟩
  | call name arguments size =>
      rw [isPrintable, Bool.and_eq_true] at hprintable
      obtain ⟨c, run, hname, hc, hrun⟩ := isIdentifier_cons hprintable.1
      obtain ⟨texts, tokens, htexts, hspells, hoperands⟩ :=
        @printList_spec arguments ih mask 0 hprintable.2
      refine ⟨_, by rw [print, htexts, Option.map_some], ⟨_, ?_, .call name.toList hoperands⟩, ?_⟩
      · rw [hname]
        exact Spells.call hc hrun hspells
      · rw [hname]
        refine ⟨c, _, rfl, .inr (.inl ?_)⟩
        rw [isLetterOrDigit, hc, Bool.true_or]
  | unary op operand =>
      rw [isPrintable, Bool.and_eq_true] at hprintable
      obtain ⟨sign, hsign, hop, hfits⟩ := signFits_cases hprintable.1
      obtain ⟨text, htext, ⟨tokens, hspells, hoperand⟩, d, rest, rfl, hfront⟩ :=
        ih operand (List.mem_singleton_self _) (child mask 0) hprintable.2
      refine ⟨sign :: d :: rest, by rw [print, htext, Option.map_some, hop]; rfl,
        ⟨_, .sign hsign hspells (hfits d hfront), ?_⟩, sign, _, rfl,
        .inr (.inr ⟨hsign, op, rfl, hop⟩)⟩
      have htoC : toC mask (.unary op operand) = .unary sign (toC (child mask 0) operand) := by
        rw [toC, hop, List.headD_cons]
      rw [htoC]
      refine .unary ?_ hoperand
      simp only [List.mem_cons, List.not_mem_nil, or_false] at hsign
      obtain rfl | rfl | rfl := hsign <;> decide
  | expression left op right size =>
      rw [isPrintable, Bool.and_eq_true] at hprintable
      obtain ⟨text, htext, ⟨tokens, hspells, hoperand⟩, -⟩ :=
        ih left (.head _) (child mask 0) hprintable.1
      obtain ⟨text', htext', ⟨tokens', hspells', hoperand'⟩, -⟩ :=
        ih right (.tail _ (.head _)) (child mask 1) hprintable.2
      obtain ⟨level, hlevel⟩ := precedence_text op
      exact ⟨_, by rw [print, htext, Option.bind_some, htext', Option.map_some],
        ⟨_, .binary hlevel hspells hspells', .binary hlevel hoperand hoperand'⟩,
        '(', _, rfl, .inl rfl⟩
  | _ => cases hprintable

end Node

/-! ## What the C expression is worth -/

/-- The operators that the transformer passes on, on words. -/
structure IsArithmetic (I : Interpretation) : Prop where
  less : ∀ a b, I.binary .less a b = truth (decide (a < b))
  greater : ∀ a b, I.binary .greater a b = truth (decide (b < a))
  lessEqual : ∀ a b, I.binary .lessEqual a b = truth (decide (a ≤ b))
  greaterEqual : ∀ a b, I.binary .greaterEqual a b = truth (decide (b ≤ a))
  add : ∀ a b, I.binary .add a b = a + b
  sub : ∀ a b, I.binary .sub a b = a - b
  mul : ∀ a b, I.binary .mul a b = a * b
  div : ∀ a b, I.binary .div a b = a / b
  mod : ∀ a b, I.binary .mod a b = a % b
  not : ∀ a, I.unary "!" a = truth (a == 0)
  plus : ∀ a, I.unary "+" a = a
  minus : ∀ a, I.unary "-" a = -a

/-- The operands on which an operator of C does what it does on words of 64 bits. -/
def Operator.InRange (op : Operator) (a b : BitVec 64) : Prop :=
  match op with
  | .add => a.toNat + b.toNat < 2 ^ 31
  | .sub => b ≤ a
  | .mul => a.toNat * b.toNat < 2 ^ 31
  | .div => b ≠ 0
  | .mod => b ≠ 0
  | .shiftLeft => b.toNat < 32 ∧ a.toNat * 2 ^ b.toNat < 2 ^ 31
  | .shiftRight => b.toNat < 32
  | _ => True

/-- The left operand leaves the right one out. -/
def Operator.skips (op : Operator) (a : BitVec 64) : Bool :=
  match op with
  | .logicalAnd => a == 0
  | .logicalOr => a != 0
  | _ => false

namespace Node

/-- A text that C reads as the number it is: with a zero in front it would be octal. -/
def IsLiteral (value : Scalar) : Prop := ∀ cs, value = .text cs → Canonical cs

mutual

/-- The numbers are literals of C, nothing but a zero is negated, and the operands of every operator
that C evaluates are in range. -/
def InRange (mask : List Nat → Bool) (I : Interpretation) (w : BitVec 32) : Node → Prop
  | .dec value _ =>
      (value.value.toNat < if mask [] then 2 ^ 32 else 2 ^ 31) ∧
        (mask [] = false → IsLiteral value)
  | .call _ arguments _ => AllInRange mask I w 0 arguments
  | .unary op operand =>
      InRange (child mask 0) I w operand ∧ (op = "-" → eval [] I w operand = some 0)
  | .expression left op right _ =>
      InRange (child mask 0) I w left ∧
        ∀ a ∈ eval [] I w left, op.skips a = false →
          InRange (child mask 1) I w right ∧ ∀ b ∈ eval [] I w right, op.InRange a b
  | _ => True

def AllInRange (mask : List Nat → Bool) (I : Interpretation) (w : BitVec 32) :
    Nat → List Node → Prop
  | _, [] => True
  | i, node :: nodes => InRange (child mask i) I w node ∧ AllInRange mask I w (i + 1) nodes

end

end Node

/-- The words and the functions of C stand for the names, and `opcode` for the word. -/
structure Implements (I : Interpretation) (w : BitVec 32) (words : List Char → Option Value)
    (calls : List Char → List Value → Option Value) : Prop where
  opcode : words ['o', 'p', 'c', 'o', 'd', 'e'] = some ⟨true, w⟩
  bool : ∀ b, words (if b then ['t', 'r', 'u', 'e'] else ['f', 'a', 'l', 's', 'e']) =
    some (.ofBool b)
  id : ∀ name, Node.isIdentifier name = true → name ∉ Node.reserved →
    ∃ v, words name = some v ∧ v.Is (I.id name).toNat
  call : ∀ name values numbers,
    List.Forall₂ (fun v (n : BitVec 64) => v.Is n.toNat) values numbers →
    ∃ v, calls (String.toList name) values = some v ∧ v.Is (I.call name numbers).toNat

theorem truth_toNat (b : Bool) : (truth b).toNat = if b then 1 else 0 := by
  cases b <;> rfl

theorem isTrue_word {v : Value} {n : BitVec 64} (h : v.Is n.toNat) : v.isTrue = (n != 0) := by
  rw [h.isTrue, Bool.eq_iff_iff, decide_eq_true_eq, bne_iff_ne, ne_eq, ne_eq, not_iff_not]
  exact BitVec.toNat_inj (y := 0)

section

variable {I : Interpretation} {x y : Value} {a b : BitVec 64}

/-- An operator that evaluates both operands. -/
theorem operator_spec (hI : IsArithmetic I) (hx : x.Is a.toNat) (hy : y.Is b.toNat) {op : Operator}
    (hand : op ≠ .logicalAnd) (hor : op ≠ .logicalOr) (hrange : op.InRange a b) :
    ∃ v, Value.operator op.text x y = some v ∧ v.Is (op.eval I a b).toNat := by
  have hcompare (f : Int → Int → Bool) (t : Bool) (ht : f a.toNat b.toNat = t) :
      ∃ v, Value.comparison f x y = some v ∧ v.Is (truth t).toNat := by
    rw [truth_toNat, ← ht]
    exact hx.comparison hy f
  have ha := hx.lt
  have hb := hy.lt
  have hxbits : x.bits.toNat = a.toNat := hx.bits
  have hybits : y.bits.toNat = b.toNat := hy.bits
  have hequal : ((a.toNat : Int) == b.toNat) = (a == b) := by
    rw [beq_eq_beq, Nat.cast_inj, BitVec.toNat_inj]
  cases op with
  | logicalOr => exact absurd rfl hor
  | logicalAnd => exact absurd rfl hand
  | or =>
      refine hx.bitwise hy ?_ fun h h' => ?_
      · rw [BitVec.toNat_or, hxbits, hybits]
        exact (BitVec.toNat_or ..).symm
      · exact (BitVec.toNat_or ..).trans_lt (Nat.or_lt_two_pow h h')
  | xor =>
      refine hx.bitwise hy ?_ fun h h' => ?_
      · rw [BitVec.toNat_xor, hxbits, hybits]
        exact (BitVec.toNat_xor ..).symm
      · exact (BitVec.toNat_xor ..).trans_lt (Nat.xor_lt_two_pow h h')
  | and =>
      refine hx.bitwise hy ?_ fun h h' => ?_
      · rw [BitVec.toNat_and, hxbits, hybits]
        exact (BitVec.toNat_and ..).symm
      · exact (BitVec.toNat_and ..).trans_lt (Nat.and_le_left.trans_lt h)
  | equal => exact hcompare (· == ·) (a == b) hequal
  | notEqual => exact hcompare (· != ·) (a != b) (congrArg not hequal)
  | less =>
      have h := hcompare (fun i k => decide (i < k)) (decide (a < b))
        (decide_eq_decide.mpr (Nat.cast_lt.trans BitVec.lt_def.symm))
      rwa [← hI.less] at h
  | greater =>
      have h := hcompare (fun i k => decide (k < i)) (decide (b < a))
        (decide_eq_decide.mpr (Nat.cast_lt.trans BitVec.lt_def.symm))
      rwa [← hI.greater] at h
  | lessEqual =>
      have h := hcompare (fun i k => decide (i ≤ k)) (decide (a ≤ b))
        (decide_eq_decide.mpr (Nat.cast_le.trans BitVec.le_def.symm))
      rwa [← hI.lessEqual] at h
  | greaterEqual =>
      have h := hcompare (fun i k => decide (k ≤ i)) (decide (b ≤ a))
        (decide_eq_decide.mpr (Nat.cast_le.trans BitVec.le_def.symm))
      rwa [← hI.greaterEqual] at h
  | shiftLeft =>
      obtain ⟨hcount, hsmall⟩ := hrange
      have hnat : (Operator.eval I .shiftLeft a b).toNat = a.toNat * 2 ^ b.toNat := by
        change (a <<< b.toNat).toNat = _
        rw [BitVec.toNat_shiftLeft, Nat.shiftLeft_eq, Nat.mod_eq_of_lt (by omega)]
      rw [hnat]
      exact hx.shift hy hcount (f := fun a n => a * 2 ^ n) (by push_cast; rfl) (by omega)
        fun _ => hsmall
  | shiftRight =>
      have hnat : (Operator.eval I .shiftRight a b).toNat = a.toNat / 2 ^ b.toNat := by
        change (a >>> b.toNat).toNat = _
        rw [BitVec.toNat_ushiftRight, Nat.shiftRight_eq_div_pow]
      have hle : a.toNat / 2 ^ b.toNat ≤ a.toNat := Nat.div_le_self _ _
      rw [hnat]
      exact hx.shift hy hrange (f := fun a n => a / 2 ^ n) (by push_cast; rfl) (by omega) (by omega)
  | add =>
      have hsum : a.toNat + b.toNat < 2 ^ 31 := hrange
      have heval : Operator.eval I .add a b = a + b := hI.add a b
      rw [heval, BitVec.toNat_add, Nat.mod_eq_of_lt (by omega)]
      exact hx.arithmetic hy (f := (· + ·)) (by push_cast; rfl) (by omega) fun _ => hsum
  | sub =>
      have hle : b.toNat ≤ a.toNat := BitVec.le_def.mp hrange
      have heval : Operator.eval I .sub a b = a - b := hI.sub a b
      rw [heval, BitVec.toNat_sub_of_le hrange]
      exact hx.arithmetic hy (f := (· - ·)) (by push_cast [hle]; rfl) (by omega) fun hu => by
        have := hx.signed (Value.common_left hu)
        omega
  | mul =>
      have hproduct : a.toNat * b.toNat < 2 ^ 31 := hrange
      have heval : Operator.eval I .mul a b = a * b := hI.mul a b
      rw [heval, BitVec.toNat_mul, Nat.mod_eq_of_lt (by omega)]
      exact hx.arithmetic hy (f := (· * ·)) (by push_cast; rfl) (by omega) fun _ => hproduct
  | div =>
      have hne : b.toNat ≠ 0 := fun h => hrange (BitVec.eq_of_toNat_eq h)
      have heval : Operator.eval I .div a b = a / b := hI.div a b
      rw [heval, BitVec.toNat_udiv]
      exact hx.division hy hne (f := Int.tdiv) (by rw [Int.ofNat_tdiv]) (Nat.div_le_self _ _)
  | mod =>
      have hne : b.toNat ≠ 0 := fun h => hrange (BitVec.eq_of_toNat_eq h)
      have heval : Operator.eval I .mod a b = a % b := hI.mod a b
      rw [heval, BitVec.toNat_umod]
      exact hx.division hy hne (f := Int.tmod) (by rw [Int.ofNat_tmod]) (Nat.mod_le _ _)

end

namespace Node

section

variable {fields : List DiagramField} {I : Interpretation} {w : BitVec 32}
  {words : List Char → Option Value} {calls : List Char → List Value → Option Value}

/-- The C expression that an expression is printed as has its value. -/
def IsEvaluated (I : Interpretation) (w : BitVec 32) (words : List Char → Option Value)
    (calls : List Char → List Value → Option Value) (e : Node) : Prop :=
  ∀ a, eval [] I w e = some a → ∀ mask, InRange mask I w e →
    ∃ v, CSyntax.eval words calls (toC mask e) = some v ∧ v.Is a.toNat

theorem evalList_spec {arguments : List Node}
    (h : ∀ argument ∈ arguments, IsEvaluated I w words calls argument) {numbers : List (BitVec 64)}
    (hnumbers : evalList [] I w arguments = some numbers) (mask : List Nat → Bool) (i : Nat)
    (hrange : AllInRange mask I w i arguments) :
    ∃ values, CSyntax.evalList words calls (allToC mask i arguments) = some values ∧
      List.Forall₂ (fun v (n : BitVec 64) => v.Is n.toNat) values numbers := by
  induction arguments generalizing numbers i with
  | nil =>
      cases hnumbers
      exact ⟨[], rfl, .nil⟩
  | cons node nodes ih =>
      rw [evalList_cons] at hnumbers
      obtain ⟨a, ha, hnumbers⟩ := Option.bind_eq_some_iff.mp hnumbers
      obtain ⟨rest, hrest, rfl⟩ := Option.map_eq_some_iff.mp hnumbers
      rw [AllInRange] at hrange
      obtain ⟨v, hv, his⟩ := h node (.head _) a ha _ hrange.1
      obtain ⟨values, hvs, hall⟩ := ih (fun argument hargument => h argument (.tail _ hargument))
        hrest (i + 1) hrange.2
      refine ⟨v :: values, ?_, .cons his hall⟩
      rw [allToC, CSyntax.evalList, hv, Option.bind_some, hvs, Option.map_some]

theorem leadingNumber_of_digits {cs : List Char} (h : ∀ c ∈ cs, c.isDigit = true) :
    Scalar.leadingNumber cs = numberOf cs := by
  have hdigit : ∀ k < 10, Scalar.isBlank k.digitChar = false := by decide
  have hblank : cs.dropWhile Scalar.isBlank = cs := by
    refine List.dropWhile_eq_self_iff.mpr fun hl => ?_
    obtain ⟨k, hk, hfirst⟩ := eq_digitChar (h _ (List.getElem_mem hl))
    rw [hfirst, hdigit k hk]
    exact Bool.false_ne_true
  rw [Scalar.leadingNumber, hblank, List.takeWhile_eq_self_iff.mpr h]

theorem toNat_number_eq (n : Nat) : (number n).toNat = min n (2 ^ 64 - 1) := by
  rw [number, BitVec.toNat_ofNat]
  omega

/-- The printed number is a literal with its value. -/
theorem literal_visitDec {masked : Bool} {value : Scalar}
    (h : value.value.toNat < if masked then 2 ^ 32 else 2 ^ 31)
    (hliteral : masked = false → IsLiteral value) :
    ∃ v, literal (visitDec masked value) = some v ∧ v.Is value.value.toNat := by
  cases masked with
  | true => exact literal_hex 8 h
  | false =>
      cases value with
      | text cs =>
          have hcs : Canonical cs := hliteral rfl cs rfl
          rw [Scalar.value, leadingNumber_of_digits hcs.digits, toNat_number_eq] at h ⊢
          have hlt : numberOf cs < 2 ^ 31 := by
            rw [if_neg Bool.false_ne_true] at h
            omega
          rw [Nat.min_eq_left (by omega), visitDec, if_neg Bool.false_ne_true, Scalar.print]
          have hdecimal := literal_decimal hlt
          rwa [← hcs.eq_decimal] at hdecimal
      | word value => exact literal_decimal h

/-- The operators that leave their right operand out. -/
theorem logical_spec {op : Operator} (hop : op = .logicalAnd ∨ op = .logicalOr) {x : Value}
    {a b : BitVec 64} {left right : Expr} (hleft : CSyntax.eval words calls left = some x)
    (hx : x.Is a.toNat)
    (hright : op.skips a = false → ∃ y, CSyntax.eval words calls right = some y ∧ y.Is b.toNat) :
    ∃ v, CSyntax.eval words calls (.binary op.text left right) = some v ∧
      v.Is (op.eval I a b).toNat := by
  have hbool (t : Bool) : (Value.ofBool t).Is (truth t).toNat := by
    rw [truth_toNat]
    exact Value.ofBool_is t
  rw [CSyntax.eval, hleft, Option.bind_some, isTrue_word hx]
  obtain rfl | rfl := hop
  · rw [Operator.text, if_pos rfl]
    have heval : Operator.eval I .logicalAnd a b = truth (a != 0 && b != 0) := rfl
    cases ha : a != 0 with
    | false =>
        rw [heval, ha, Bool.false_and, if_neg Bool.false_ne_true]
        exact ⟨_, rfl, hbool false⟩
    | true =>
        obtain ⟨y, hy, hyb⟩ := hright (by rw [Operator.skips, ← Bool.not_eq_true', ← bne, ha])
        rw [heval, ha, Bool.true_and, if_pos rfl, hy, Option.map_some, isTrue_word hyb]
        exact ⟨_, rfl, hbool _⟩
  · rw [Operator.text, if_neg (by decide), if_pos rfl]
    have heval : Operator.eval I .logicalOr a b = truth (a != 0 || b != 0) := rfl
    cases ha : a != 0 with
    | true =>
        rw [heval, ha, Bool.true_or, if_pos rfl]
        exact ⟨_, rfl, hbool true⟩
    | false =>
        obtain ⟨y, hy, hyb⟩ := hright ha
        rw [heval, ha, Bool.false_or, if_neg Bool.false_ne_true, hy, Option.map_some,
          isTrue_word hyb]
        exact ⟨_, rfl, hbool _⟩

theorem allPrintable_iff {nodes : List Node} :
    allPrintable nodes = true ↔ ∀ node ∈ nodes, isPrintable node = true := by
  induction nodes with
  | nil => simp [allPrintable]
  | cons node nodes ih => rw [allPrintable, Bool.and_eq_true, ih, List.forall_mem_cons]

/-- A sign in front of a word. -/
theorem sign_spec (hI : IsArithmetic I) {op : String} {e : Node} (hop : signFits op e = true)
    {v : Value} {a : BitVec 64} (hv : v.Is a.toNat) (hzero : op = "-" → a = 0) :
    ∃ u, Value.sign (op.toList.headD ' ') v = some u ∧ u.Is (I.unary op a).toNat := by
  simp only [signFits, Bool.or_eq_true, Bool.and_eq_true, decide_eq_true_eq] at hop
  obtain rfl | ⟨rfl | rfl, -⟩ := hop
  · refine ⟨_, rfl, ?_⟩
    rw [hI.not, isTrue_word hv, bne, Bool.not_not, truth_toNat]
    exact Value.ofBool_is _
  · exact ⟨v, rfl, by rwa [hI.plus]⟩
  · obtain rfl := hzero rfl
    have hneg : I.unary "-" 0 = 0 := hI.minus 0
    rw [hneg]
    have hbits : v.bits = 0 := BitVec.eq_of_toNat_eq hv.bits
    obtain ⟨unsigned, bits⟩ := v
    obtain rfl : bits = 0 := hbits
    cases unsigned
    · exact ⟨_, rfl, rfl, fun _ => by decide⟩
    · exact ⟨_, rfl, rfl, fun hu => Bool.noConfusion hu⟩

/-- The C expression of a flat expression has its value. -/
theorem eval_spec (hI : IsArithmetic I) (hC : Implements I w words calls) (e : Node) :
    isPrintable e = true → Flat fields e → IsEvaluated I w words calls e := by
  induction e using induction_children with
  | step e ih => ?_
  intro hprintable hflat
  cases hflat with
  | dec value size =>
      intro a ha mask hrange
      rw [← Scalar.value_of_toWord ha]
      exact literal_visitDec hrange.1 hrange.2
  | bool value =>
      rintro _ ⟨⟩ mask -
      refine ⟨.ofBool value, hC.bool value, ?_⟩
      rw [truth_toNat]
      exact Value.ofBool_is value
  | float text => cases hprintable
  | sqstr text => cases hprintable
  | @id name size h =>
      simp only [isPrintable, Bool.and_eq_true, Bool.not_eq_true', ← Bool.not_eq_true,
        List.contains_iff_mem] at hprintable
      intro a ha mask _
      rw [eval_id_of_none [] I w rfl, Option.some_inj] at ha
      exact ha ▸ hC.id name hprintable.1 hprintable.2
  | opcode =>
      rintro _ ⟨⟩ mask -
      refine ⟨⟨true, w⟩, hC.opcode, ?_, fun hu => Bool.noConfusion hu⟩
      rw [BitVec.toNat_setWidth, Nat.mod_eq_of_lt (by omega)]
  | @call name arguments size hname hones hargs =>
      rw [isPrintable, Bool.and_eq_true] at hprintable
      intro a ha mask hrange
      rw [eval_call [] I w hones] at ha
      obtain ⟨numbers, hnumbers, rfl⟩ := Option.map_eq_some_iff.mp ha
      rw [InRange] at hrange
      obtain ⟨values, hvs, hall⟩ := @evalList_spec I w words calls arguments
        (fun argument hargument => ih argument hargument
          (allPrintable_iff.mp hprintable.2 argument hargument) (hargs argument hargument))
        numbers hnumbers mask 0 hrange
      obtain ⟨v, hv, his⟩ := hC.call name values numbers hall
      refine ⟨v, ?_, his⟩
      rw [toC, CSyntax.eval, hvs, Option.bind_some, hv]
  | @unary op operand h =>
      rw [isPrintable, Bool.and_eq_true] at hprintable
      intro u hu mask hrange
      rw [eval_unary] at hu
      obtain ⟨a, ha, rfl⟩ := Option.map_eq_some_iff.mp hu
      rw [InRange] at hrange
      obtain ⟨v, hv, his⟩ := ih operand (List.mem_singleton_self _) hprintable.2 h a ha _ hrange.1
      obtain ⟨u, hu, hisu⟩ := sign_spec hI hprintable.1 his fun hop =>
        Option.some.inj (ha.symm.trans (hrange.2 hop))
      exact ⟨u, by rw [toC, CSyntax.eval, hv, Option.bind_some, hu], hisu⟩
  | @expression left right op size hl hr =>
      rw [isPrintable, Bool.and_eq_true] at hprintable
      intro u hu mask hrange
      rw [eval_expression_of_none [] I w hl.pattern hr.pattern] at hu
      obtain ⟨a, ha, hu⟩ := Option.bind_eq_some_iff.mp hu
      obtain ⟨b, hb, rfl⟩ := Option.map_eq_some_iff.mp hu
      have hright := ih right (.tail _ (.head _)) hprintable.2 hr b hb
      rw [InRange] at hrange
      obtain ⟨x, hx, hxa⟩ := ih left (.head _) hprintable.1 hl a ha _ hrange.1
      rw [toC]
      by_cases hop : op = .logicalAnd ∨ op = .logicalOr
      · exact logical_spec hop hx hxa fun hskip => hright _ (hrange.2 a ha hskip).1
      · rw [not_or] at hop
        have hskip : op.skips a = false := by
          cases op <;> first | rfl | exact absurd rfl hop.1 | exact absurd rfl hop.2
        obtain ⟨hright', hop'⟩ := hrange.2 a ha hskip
        obtain ⟨y, hy, hyb⟩ := hright _ hright'
        obtain ⟨v, hv, his⟩ := operator_spec hI hxa hyb hop.1 hop.2 (hop' b hb)
        refine ⟨v, ?_, his⟩
        have htext : op.text ≠ ['&', '&'] ∧ op.text ≠ ['|', '|'] := by
          cases op <;> first | decide | exact absurd rfl hop.1 | exact absurd rfl hop.2
        rw [CSyntax.eval, hx, Option.bind_some, if_neg htext.1, if_neg htext.2, hy,
          Option.bind_some, hv]

end

/-- The fields of the bit-field instructions. -/
def bitfieldDiagram : InstructionDiagram where
  fields := [⟨['i', 'm', 'm', 'r'], 16, 6, List.replicate 6 .any⟩,
    ⟨['i', 'm', 'm', 's'], 10, 6, List.replicate 6 .any⟩]
  size_pos := by decide
  fits := by decide
  apart := List.pairwise_pair.mpr (.inr (by decide))

/-- `imms + 1 == immr` -/
def lslCondition : Node :=
  .expression (.expression (.id ['i', 'm', 'm', 's'] none) .add (.dec (.text ['1']) none) none) .equal
    (.id ['i', 'm', 'm', 'r'] none) none

/-- The masks of the condition after the transformer. -/
def lslMask (path : List Nat) : Bool := path = [0, 0, 0, 1] || path = [1, 0, 1]

/-- The operators on words, and no names. -/
def wordInterpretation : Interpretation where
  id := fun _ => 0
  text := fun _ => 0
  call := fun _ _ => 0
  unary := fun op a => if op = "!" then truth (a == 0) else if op = "-" then -a else a
  binary := fun op a b =>
    match op with
    | .less => truth (decide (a < b))
    | .greater => truth (decide (b < a))
    | .lessEqual => truth (decide (a ≤ b))
    | .greaterEqual => truth (decide (b ≤ a))
    | .add => a + b
    | .sub => a - b
    | .mul => a * b
    | .div => a / b
    | .mod => a % b
    | _ => 0

theorem wordInterpretation_isArithmetic : IsArithmetic wordInterpretation where
  less := fun _ _ => rfl
  greater := fun _ _ => rfl
  lessEqual := fun _ _ => rfl
  greaterEqual := fun _ _ => rfl
  add := fun _ _ => rfl
  sub := fun _ _ => rfl
  mul := fun _ _ => rfl
  div := fun _ _ => rfl
  mod := fun _ _ => rfl
  not := fun _ => rfl
  plus := fun _ => rfl
  minus := fun _ => rfl

/-- The words of C without names. -/
def opcodeWords (w : BitVec 32) (name : List Char) : Option Value :=
  if name = ['o', 'p', 'c', 'o', 'd', 'e'] then some ⟨true, w⟩
  else some (.ofBool (name = ['t', 'r', 'u', 'e']))

theorem opcodeWords_implements (w : BitVec 32) :
    Implements wordInterpretation w (opcodeWords w) fun _ _ => some (.ofBool false) where
  opcode := rfl
  bool := fun b => by cases b <;> rfl
  id := fun name _ hname => by
    have hopcode : name ≠ ['o', 'p', 'c', 'o', 'd', 'e'] := by
      rintro rfl
      exact hname (by decide)
    have htrue : name ≠ ['t', 'r', 'u', 'e'] := by
      rintro rfl
      exact hname (by decide)
    refine ⟨.ofBool false, ?_, Value.ofBool_is false⟩
    rw [opcodeWords, if_neg hopcode, decide_eq_false htrue]
  call := fun _ _ _ _ => ⟨_, rfl, Value.ofBool_is false⟩

theorem inRange_dec {mask : List Nat → Bool} {I : Interpretation} {w : BitVec 32}
    {value : Scalar} {size : Option Nat} (h : value.value.toNat < 2 ^ 31)
    (hliteral : IsLiteral value) : InRange mask I w (.dec value size) := by
  rw [InRange]
  refine ⟨?_, fun _ => hliteral⟩
  split
  · exact h.trans (by decide)
  · exact h

theorem inRange_field {mask : List Nat → Bool} {I : Interpretation} {w : BitVec 32}
    {value n : BitVec 64} {s₁ s₂ s₃ s₄ : Option Nat} (hvalue : value.toNat < 2 ^ 31)
    (hn : n.toNat < 32) :
    InRange mask I w
      (.expression (.expression .opcode .and (.dec (.word value) s₁) s₂) .shiftRight
        (.dec (.word n) s₃) s₄) := by
  refine ⟨⟨trivial, fun _ _ _ => ⟨inRange_dec hvalue nofun, fun _ _ => trivial⟩⟩, fun _ _ _ =>
    ⟨inRange_dec (hn.trans (by decide)) nofun, fun b hb => ?_⟩⟩
  cases hb
  exact hn

/-- The text of the condition is the one in the table of `LSL`. -/
example : (transform bitfieldDiagram.fields lslCondition).bind (print lslMask) =
    some "((((opcode & 0x0000fc00) >> 10) + 1) == ((opcode & 0x003f0000) >> 16))".toList := by
  decide

end Node

end Amed.Generator

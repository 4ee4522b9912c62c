import Mathlib.Tactic.Ring
import Amed.Library.CSyntax
import Amed.Library.Numerals

/-!
# The values of C expressions

The values of `int` and `unsigned int`, and the value of an expression over the values of its words
and of the functions it calls. An overflow of `int`, a division by zero and a shift by more than
the width have no value, nor has a literal that no such type holds.
-/

namespace Amed.CSyntax

/-- A value of `int` or of `unsigned int`. -/
structure Value where
  unsigned : Bool
  bits : BitVec 32
  deriving DecidableEq, Repr

namespace Value

/-- The number that is stored, as one of the type. -/
def asType (unsigned : Bool) (v : Value) : Int := if unsigned then v.bits.toNat else v.bits.toInt

/-- A number in a type: it wraps around in `unsigned int`. -/
def store (unsigned : Bool) (i : Int) : Option Value :=
  if unsigned then some ⟨true, BitVec.ofInt 32 i⟩
  else if -2 ^ 31 ≤ i ∧ i < 2 ^ 31 then some ⟨false, BitVec.ofInt 32 i⟩
  else none

def ofBool (b : Bool) : Value := ⟨false, if b then 1 else 0⟩

def isTrue (v : Value) : Bool := v.bits ≠ 0

/-- The type two operands are converted to. -/
def common (a b : Value) : Bool := a.unsigned || b.unsigned

def arithmetic (f : Int → Int → Int) (a b : Value) : Option Value :=
  store (common a b) (f (a.asType (common a b)) (b.asType (common a b)))

def division (f : Int → Int → Int) (a b : Value) : Option Value :=
  if b.bits = 0 then none else arithmetic f a b

def comparison (f : Int → Int → Bool) (a b : Value) : Option Value :=
  some (ofBool (f (a.asType (common a b)) (b.asType (common a b))))

def bitwise (f : BitVec 32 → BitVec 32 → BitVec 32) (a b : Value) : Option Value :=
  some ⟨common a b, f a.bits b.bits⟩

/-- A shift: the type is that of the left operand, which is not negative. -/
def shift (f : Int → Nat → Int) (a b : Value) : Option Value :=
  if b.asType b.unsigned < 0 ∨ 32 ≤ b.asType b.unsigned ∨ a.asType a.unsigned < 0 then none
  else store a.unsigned (f (a.asType a.unsigned) (b.asType b.unsigned).toNat)

/-- The operators that evaluate both operands. -/
def operators : List (List Char × (Value → Value → Option Value)) :=
  [(['|'], bitwise (· ||| ·)), (['^'], bitwise (· ^^^ ·)), (['&'], bitwise (· &&& ·)),
    (['=', '='], comparison (· == ·)), (['!', '='], comparison (· != ·)),
    (['<'], comparison fun a b => decide (a < b)), (['>'], comparison fun a b => decide (b < a)),
    (['<', '='], comparison fun a b => decide (a ≤ b)),
    (['>', '='], comparison fun a b => decide (b ≤ a)),
    (['<', '<'], shift fun a n => a * 2 ^ n), (['>', '>'], shift fun a n => a / 2 ^ n),
    (['+'], arithmetic (· + ·)), (['-'], arithmetic (· - ·)), (['*'], arithmetic (· * ·)),
    (['/'], division Int.tdiv), (['%'], division Int.tmod)]

def operator (op : List Char) (a b : Value) : Option Value :=
  (operators.lookup op).bind fun f => f a b

def sign (c : Char) (v : Value) : Option Value :=
  if c = '+' then some v
  else if c = '-' then store v.unsigned (-v.asType v.unsigned)
  else if c = '!' then some (ofBool !v.isTrue)
  else if c = '~' then some { v with bits := ~~~v.bits }
  else none

end Value

/-- The value of a literal without a suffix, which is no octal one. -/
def literal : List Char → Option Value
  | '0' :: 'x' :: digits =>
      (Printing.readNumeral ('0' :: 'x' :: digits)).bind fun n =>
        if n < 2 ^ 31 then some ⟨false, BitVec.ofNat 32 n⟩
        else if n < 2 ^ 32 then some ⟨true, BitVec.ofNat 32 n⟩
        else none
  | '0' :: _ :: _ => none
  | digits =>
      (Printing.readNumeral digits).bind fun n =>
        if n < 2 ^ 31 then some ⟨false, BitVec.ofNat 32 n⟩ else none

section Eval

variable (words : List Char → Option Value) (calls : List Char → List Value → Option Value)

mutual

/-- The value of an expression. The right operand of `&&` and `||` is only evaluated where the left
one leaves it open. -/
def eval : Expr → Option Value
  | .number text => literal text
  | .word text => words text
  | .call name arguments => (evalList arguments).bind (calls name)
  | .unary op operand => (eval operand).bind (Value.sign op)
  | .binary op left right =>
      (eval left).bind fun a =>
        if op = ['&', '&'] then
          if a.isTrue then (eval right).map fun b => .ofBool b.isTrue else some (.ofBool false)
        else if op = ['|', '|'] then
          if a.isTrue then some (.ofBool true) else (eval right).map fun b => .ofBool b.isTrue
        else (eval right).bind (Value.operator op a)

def evalList : List Expr → Option (List Value)
  | [] => some []
  | e :: es => (eval e).bind fun v => (evalList es).map fun vs => v :: vs

end

end Eval

namespace Value

/-! ## Natural numbers -/

/-- The value stands for a natural number. -/
structure Is (v : Value) (n : Nat) : Prop where
  bits : v.bits.toNat = n
  signed : v.unsigned = false → n < 2 ^ 31

theorem Is.lt {v : Value} {n : Nat} (h : v.Is n) : n < 2 ^ 32 := h.bits ▸ v.bits.isLt

theorem Is.asType {v : Value} {n : Nat} (h : v.Is n) {u : Bool}
    (hu : u = false → v.unsigned = false) : v.asType u = n := by
  cases u with
  | true => exact congrArg Int.ofNat h.bits
  | false =>
      have hlt := h.signed (hu rfl)
      change v.bits.toInt = n
      rw [BitVec.toInt_eq_toNat_of_lt (by rw [h.bits]; omega), h.bits]

theorem common_left {a b : Value} (h : common a b = false) : a.unsigned = false :=
  (Bool.or_eq_false_iff.mp h).1

theorem common_right {a b : Value} (h : common a b = false) : b.unsigned = false :=
  (Bool.or_eq_false_iff.mp h).2

/-- A natural number that the type holds is stored as it is. -/
theorem store_is {u : Bool} {n : Nat} (h : n < 2 ^ 32) (hsigned : u = false → n < 2 ^ 31) :
    ∃ v, store u n = some v ∧ v.Is n := by
  have hbits : (BitVec.ofInt 32 n).toNat = n := by
    rw [BitVec.ofInt_natCast, BitVec.toNat_ofNat, Nat.mod_eq_of_lt h]
  cases u with
  | true => exact ⟨_, rfl, hbits, fun hu => Bool.noConfusion hu⟩
  | false =>
      have hlt := hsigned rfl
      refine ⟨⟨false, BitVec.ofInt 32 n⟩, ?_, hbits, fun _ => hlt⟩
      rw [store, if_neg Bool.false_ne_true, if_pos ⟨by omega, by omega⟩]

theorem ofBool_is (b : Bool) : (ofBool b).Is (if b then 1 else 0) := by
  cases b with
  | true => exact ⟨rfl, fun _ => by decide⟩
  | false => exact ⟨rfl, fun _ => by decide⟩

theorem Is.isTrue {v : Value} {n : Nat} (h : v.Is n) : v.isTrue = decide (n ≠ 0) := by
  rw [Value.isTrue, decide_eq_decide, ne_eq, ne_eq, not_iff_not, ← h.bits]
  exact BitVec.toNat_inj.symm

theorem ofNat_is {n : Nat} (unsigned : Bool) (h : n < 2 ^ 32)
    (hsigned : unsigned = false → n < 2 ^ 31) : Is ⟨unsigned, BitVec.ofNat 32 n⟩ n :=
  ⟨by rw [BitVec.toNat_ofNat, Nat.mod_eq_of_lt h], hsigned⟩

end Value

/-! ## Literals -/

/-- A numeral of more than one digit does not start with a zero. -/
theorem decimal_zero {n : Nat} {run : List Char} (h : Printing.decimal n = '0' :: run) :
    run = [] := by
  have hhead : ∀ n, n ≠ 0 → (Nat.toDigits 10 n).head? ≠ some '0' := by
    intro n
    induction n using Nat.strongRecOn with
    | _ n ih =>
        intro hn
        rw [Nat.toDigits_eq_if (by decide)]
        split
        · rename_i hlt
          intro heq
          exact (by decide : ∀ d < 10, d ≠ 0 → d.digitChar ≠ '0') n hlt hn (Option.some.inj heq)
        · rename_i hlt
          have hdiv := ih (n / 10) (Nat.div_lt_self (by omega) (by decide)) (by omega)
          rwa [List.head?_append_of_ne_nil _ Nat.toDigits_ne_nil]
  by_cases hn : n = 0
  · subst hn
    cases h
    rfl
  · exact absurd (by rw [Printing.decimal] at h; rw [h]; rfl) (hhead n hn)

theorem literal_decimal {n : Nat} (h : n < 2 ^ 31) :
    ∃ v, literal (Printing.decimal n) = some v ∧ v.Is n := by
  have hread := Printing.readNumeral_decimal n
  have hx := Printing.x_not_mem_decimal n
  refine ⟨_, ?_, Value.ofNat_is false (by omega) fun _ => h⟩
  rw [literal.eq_def]
  split
  · rename_i digits heq
    rw [heq] at hx
    simp at hx
  · rename_i c rest _ heq
    cases decimal_zero heq
  · rw [hread, Option.bind_some, if_pos h]

theorem literal_hex (width : Nat) {n : Nat} (h : n < 2 ^ 32) :
    ∃ v, literal ('0' :: 'x' :: Printing.hex width n) = some v ∧ v.Is n := by
  rw [literal, Printing.readNumeral_hex, Option.bind_some]
  by_cases hn : n < 2 ^ 31
  · exact ⟨_, if_pos hn, Value.ofNat_is false h fun _ => hn⟩
  · refine ⟨_, (if_neg hn).trans (if_pos h), Value.ofNat_is true h fun hu => Bool.noConfusion hu⟩

namespace Value

section Operators

variable {a b : Value} {n m : Nat}

theorem Is.arithmetic (ha : a.Is n) (hb : b.Is m) {f : Int → Int → Int} {k : Nat}
    (hf : f n m = k) (hk : k < 2 ^ 32) (hsigned : common a b = false → k < 2 ^ 31) :
    ∃ v, arithmetic f a b = some v ∧ v.Is k := by
  rw [Value.arithmetic, ha.asType common_left, hb.asType common_right, hf]
  exact store_is hk hsigned

theorem Is.division (ha : a.Is n) (hb : b.Is m) (hm : m ≠ 0) {f : Int → Int → Int} {k : Nat}
    (hf : f n m = k) (hk : k ≤ n) : ∃ v, division f a b = some v ∧ v.Is k := by
  have hne : b.bits ≠ 0 := by
    intro hzero
    have hbits := hb.bits
    rw [hzero] at hbits
    exact hm hbits.symm
  rw [Value.division, if_neg hne]
  exact ha.arithmetic hb hf (hk.trans_lt ha.lt)
    fun hu => hk.trans_lt (ha.signed (common_left hu))

theorem Is.comparison (ha : a.Is n) (hb : b.Is m) (f : Int → Int → Bool) :
    ∃ v, comparison f a b = some v ∧ v.Is (if f n m then 1 else 0) := by
  rw [Value.comparison, ha.asType common_left, hb.asType common_right]
  exact ⟨_, rfl, ofBool_is _⟩

theorem Is.bitwise (ha : a.Is n) (hb : b.Is m) {f : BitVec 32 → BitVec 32 → BitVec 32} {k : Nat}
    (hf : (f a.bits b.bits).toNat = k) (hk : n < 2 ^ 31 → m < 2 ^ 31 → k < 2 ^ 31) :
    ∃ v, bitwise f a b = some v ∧ v.Is k :=
  ⟨_, rfl, hf, fun hu => hk (ha.signed (common_left hu)) (hb.signed (common_right hu))⟩

theorem Is.shift (ha : a.Is n) (hb : b.Is m) (hm : m < 32) {f : Int → Nat → Int} {k : Nat}
    (hf : f n m = k) (hk : k < 2 ^ 32) (hsigned : n < 2 ^ 31 → k < 2 ^ 31) :
    ∃ v, shift f a b = some v ∧ v.Is k := by
  rw [Value.shift, ha.asType id, hb.asType id, if_neg (by omega), Int.toNat_natCast, hf]
  exact store_is hk fun hu => hsigned (ha.signed hu)

end Operators

end Value

end Amed.CSyntax

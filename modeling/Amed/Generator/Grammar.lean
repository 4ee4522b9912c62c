import Mathlib.Data.List.Basic

/-!
# The grammar of the condition expressions

The productions of `Grammar.eyp`, and the token lists that are derived from them. An optional
part of a production (`items?`, `argumentExpressionList?`) is two productions here.
-/

namespace Amed.Generator

/-- The tokens of the grammar by their names, and the name `TOKENIZER` gives the end of the
input. -/
inductive Kind
  | ltlt | gtgt | andand | oror | ge | le | eqeq | noteq
  | lparen | rparen | lbrace | rbrace | eq | plus | minus | star | slash | mod | and | or | not
  | gt | lt | til | caret | comma | colon
  | bin | hex | float | dec
  | id | lt2 | gt2 | isIn
  | sqstr
  | eof
  deriving DecidableEq, Repr

/-- A token and its text. -/
structure Token where
  kind : Kind
  value : List Char
  deriving DecidableEq, Repr

inductive Nonterminal
  | expression | logicalOrExpression | logicalAndExpression | orExpression | xorExpression
  | andExpression | equalityExpression | relationalExpression | shiftExpression | addExpression
  | mulExpression | unaryExpression | unaryOperator | postfixExpression | inExpression | array
  | items | item | sliceExpression | sliceExpressionList | partExpression | part
  | primaryExpression | call | id | dec | argumentExpressionList
  deriving DecidableEq, Repr

/-- A symbol of a production: a token or a nonterminal. -/
inductive Symbol
  | t (kind : Kind)
  | n (nonterminal : Nonterminal)
  deriving DecidableEq, Repr

/-- The productions of `Grammar.eyp`. -/
def productions : Nonterminal → List (List Symbol)
  | .expression => [[.n .logicalOrExpression]]
  | .logicalOrExpression =>
      [[.n .logicalOrExpression, .t .oror, .n .logicalAndExpression],
        [.n .logicalAndExpression]]
  | .logicalAndExpression =>
      [[.n .logicalAndExpression, .t .andand, .n .orExpression],
        [.n .orExpression]]
  | .orExpression =>
      [[.n .orExpression, .t .or, .n .xorExpression],
        [.n .xorExpression]]
  | .xorExpression =>
      [[.n .xorExpression, .t .caret, .n .andExpression],
        [.n .andExpression]]
  | .andExpression =>
      [[.n .andExpression, .t .and, .n .equalityExpression],
        [.n .equalityExpression]]
  | .equalityExpression =>
      [[.n .equalityExpression, .t .eqeq, .n .relationalExpression],
        [.n .equalityExpression, .t .noteq, .n .relationalExpression],
        [.n .relationalExpression]]
  | .relationalExpression =>
      [[.n .relationalExpression, .t .lt, .n .shiftExpression],
        [.n .relationalExpression, .t .gt, .n .shiftExpression],
        [.n .relationalExpression, .t .le, .n .shiftExpression],
        [.n .relationalExpression, .t .ge, .n .shiftExpression],
        [.n .shiftExpression]]
  | .shiftExpression =>
      [[.n .shiftExpression, .t .ltlt, .n .addExpression],
        [.n .shiftExpression, .t .gtgt, .n .addExpression],
        [.n .addExpression]]
  | .addExpression =>
      [[.n .addExpression, .t .plus, .n .mulExpression],
        [.n .addExpression, .t .minus, .n .mulExpression],
        [.n .mulExpression]]
  | .mulExpression =>
      [[.n .mulExpression, .t .star, .n .unaryExpression],
        [.n .mulExpression, .t .slash, .n .unaryExpression],
        [.n .mulExpression, .t .mod, .n .unaryExpression],
        [.n .unaryExpression]]
  | .unaryExpression =>
      [[.n .unaryOperator, .n .postfixExpression],
        [.n .postfixExpression]]
  | .unaryOperator => [[.t .plus], [.t .minus], [.t .not]]
  | .postfixExpression => [[.n .inExpression]]
  | .inExpression =>
      [[.n .sliceExpression, .t .isIn, .n .array],
        [.n .sliceExpression]]
  | .array => [[.t .lbrace, .n .items, .t .rbrace], [.t .lbrace, .t .rbrace]]
  | .items => [[.n .items, .t .comma, .n .item], [.n .item]]
  | .item => [[.n .expression]]
  | .sliceExpression => [[.n .sliceExpressionList]]
  | .sliceExpressionList =>
      [[.n .sliceExpressionList, .t .colon, .n .partExpression],
        [.n .partExpression]]
  | .partExpression =>
      [[.n .primaryExpression, .t .lt2, .n .part, .t .gt2],
        [.n .primaryExpression, .t .lt2, .n .part, .t .colon, .n .part, .t .gt2],
        [.n .primaryExpression]]
  | .part => [[.n .id], [.n .dec], [.n .call]]
  | .primaryExpression =>
      [[.t .lparen, .n .expression, .t .rparen], [.t .bin], [.t .hex], [.t .float], [.t .sqstr],
        [.n .id], [.n .dec], [.n .call]]
  | .call =>
      [[.t .id, .t .lparen, .n .argumentExpressionList, .t .rparen],
        [.t .id, .t .lparen, .t .rparen]]
  | .id => [[.t .id]]
  | .dec => [[.t .dec]]
  | .argumentExpressionList =>
      [[.n .argumentExpressionList, .t .comma, .n .expression],
        [.n .expression]]

/-- The token lists derived from a list of symbols. -/
inductive Yields : List Symbol → List Token → Prop
  | nil : Yields [] []
  | token {symbols : List Symbol} {w : List Token} (a : Token) :
      Yields symbols w → Yields (.t a.kind :: symbols) (a :: w)
  | expand {n : Nonterminal} {production symbols : List Symbol} {u w : List Token} :
      production ∈ productions n → Yields production u → Yields symbols w →
        Yields (.n n :: symbols) (u ++ w)

/-- The expressions of the grammar, as tokens. -/
def IsExpression (w : List Token) : Prop := Yields [.n .expression] w

namespace Token

/-- An opening angle bracket or less-than sign. -/
def isLess (a : Token) : Bool := a.kind = .lt || a.kind = .lt2

/-- A closing angle bracket or greater-than sign. -/
def isGreater (a : Token) : Bool := a.kind = .gt || a.kind = .gt2

def isAngle (a : Token) : Bool := a.isLess || a.isGreater

end Token

/-! ## What follows a less-than sign -/

/-- The first token is there and is no angle bracket. -/
def StartsPlain (w : List Token) : Prop := ∃ a ∈ w.head?, a.isAngle = false

/-- Behind each `<` there is a token that is no angle bracket. -/
def Followed (w : List Token) : Prop :=
  ∀ u a v, w = u ++ a :: v → a.isLess = true → StartsPlain v

/-- A symbol that derives token lists that start with no angle bracket. -/
def Symbol.startsPlain : Symbol → Bool
  | .t kind => !(Token.mk kind []).isAngle
  | .n _ => true

/-- Each `<` of a list of symbols is followed by a symbol that starts with no angle bracket. -/
def wellFollowed : List Symbol → Bool
  | [] => true
  | .n _ :: symbols => wellFollowed symbols
  | .t kind :: symbols =>
      (!(Token.mk kind []).isLess || symbols.head?.any Symbol.startsPlain) && wellFollowed symbols

theorem productions_wellFollowed (n : Nonterminal) :
    ∀ production ∈ productions n,
      wellFollowed production = true ∧ production.head?.any Symbol.startsPlain = true := by
  cases n <;> decide

theorem StartsPlain.append {u : List Token} (h : StartsPlain u) (v : List Token) :
    StartsPlain (u ++ v) := by
  obtain ⟨a, ha, hplain⟩ := h
  cases u with
  | nil => cases ha
  | cons b u => exact ⟨a, ha, hplain⟩

theorem Followed.nil : Followed [] := by
  intro u a v h
  simp at h

theorem Followed.append {u v : List Token} (hu : Followed u) (hv : Followed v) :
    Followed (u ++ v) := by
  intro x a y heq hless
  obtain ⟨z, rfl, hz⟩ | ⟨z, rfl, hz⟩ := List.append_eq_append_iff.mp heq
  · exact hv z a y hz hless
  · obtain ⟨rfl, rfl⟩ | ⟨z, rfl, rfl⟩ := List.cons_eq_append_iff.mp hz
    · exact hv [] a y rfl hless
    · exact (hu x a z rfl hless).append v

theorem Followed.cons {a : Token} {w : List Token} (hw : Followed w)
    (ha : a.isLess = true → StartsPlain w) : Followed (a :: w) := by
  intro x b y heq hless
  obtain ⟨rfl, hrest⟩ | ⟨x, rfl, rfl⟩ := List.cons_eq_append_iff.mp heq
  · cases hrest
    exact ha hless
  · exact hw x b y rfl hless

/-- What follows a `<` stays where a list is cut behind it. -/
theorem Followed.tail {u v : List Token} (h : Followed (u ++ v)) : Followed v := by
  intro x a y heq hless
  exact h (u ++ x) a y (by rw [heq, List.append_assoc]) hless

theorem Yields.followed {symbols : List Symbol} {w : List Token} (h : Yields symbols w)
    (hsymbols : wellFollowed symbols = true) :
    Followed w ∧ (symbols.head?.any Symbol.startsPlain = true → StartsPlain w) := by
  induction h with
  | nil => exact ⟨Followed.nil, fun hnone => nomatch hnone⟩
  | @token symbols w a _ ih =>
      have hparts : (!a.isLess || symbols.head?.any Symbol.startsPlain) = true ∧
          wellFollowed symbols = true := Bool.and_eq_true_iff.mp hsymbols
      obtain ⟨hw, hstart⟩ := ih hparts.2
      refine ⟨hw.cons fun hless => hstart ?_, fun hplain => ⟨a, rfl, ?_⟩⟩
      · rw [hless] at hparts
        exact hparts.1
      · exact Bool.not_eq_true' _ ▸ hplain
  | @expand n production symbols u w hmem _ _ ihu ihw =>
      obtain ⟨hproduction, hhead⟩ := productions_wellFollowed n production hmem
      obtain ⟨hu, hstart⟩ := ihu hproduction
      obtain ⟨hw, -⟩ := ihw hsymbols
      exact ⟨hu.append hw, fun _ => (hstart hhead).append w⟩

theorem productions_ne_eof (n : Nonterminal) :
    ∀ production ∈ productions n, Symbol.t .eof ∉ production := by
  cases n <;> decide

theorem Yields.ne_eof {symbols : List Symbol} {w : List Token} (h : Yields symbols w)
    (hsymbols : Symbol.t .eof ∉ symbols) : ∀ a ∈ w, a.kind ≠ .eof := by
  induction h with
  | nil => exact fun a ha => nomatch ha
  | @token symbols w a _ ih =>
      obtain ⟨hhead, htail⟩ := List.ne_and_not_mem_of_not_mem_cons hsymbols
      intro b hb heof
      obtain rfl | hb := List.mem_cons.mp hb
      · exact hhead (by rw [heof])
      · exact ih htail b hb heof
  | @expand n production symbols u w hmem _ _ ihu ihw =>
      intro a ha
      obtain ha | ha := List.mem_append.mp ha
      · exact ihu (productions_ne_eof n production hmem) a ha
      · exact ihw (List.ne_and_not_mem_of_not_mem_cons hsymbols).2 a ha

/-- No token of an expression is the end of the input. -/
theorem IsExpression.ne_eof {w : List Token} (h : IsExpression w) : ∀ a ∈ w, a.kind ≠ .eof :=
  Yields.ne_eof h (by decide)

/-- In an expression each `<` is followed by a token that is no angle bracket. -/
theorem IsExpression.followed {w : List Token} (h : IsExpression w) : Followed w :=
  (Yields.followed h rfl).1

/-! ## Slices -/

theorem Yields.unit {n : Nonterminal} (m : Nonterminal) {w : List Token}
    (h : [.n m] ∈ productions n) (hw : Yields [.n m] w) : Yields [.n n] w := by
  have hexpand := Yields.expand h hw .nil
  rwa [List.append_nil] at hexpand

/-- A part expression is an expression. -/
theorem IsExpression.of_part {w : List Token} (h : Yields [.n .partExpression] w) :
    IsExpression w := by
  apply Yields.unit .logicalOrExpression (by decide)
  apply Yields.unit .logicalAndExpression (by decide)
  apply Yields.unit .orExpression (by decide)
  apply Yields.unit .xorExpression (by decide)
  apply Yields.unit .andExpression (by decide)
  apply Yields.unit .equalityExpression (by decide)
  apply Yields.unit .relationalExpression (by decide)
  apply Yields.unit .shiftExpression (by decide)
  apply Yields.unit .addExpression (by decide)
  apply Yields.unit .mulExpression (by decide)
  apply Yields.unit .unaryExpression (by decide)
  apply Yields.unit .postfixExpression (by decide)
  apply Yields.unit .inExpression (by decide)
  apply Yields.unit .sliceExpression (by decide)
  apply Yields.unit .sliceExpressionList (by decide)
  exact Yields.unit .partExpression (by decide) h

/-- A name or a number, as a primary or as a bound. -/
theorem Yields.atom {n : Nonterminal} {symbols : List Symbol} {w : List Token} (a : Token)
    (ha : a.kind = .id ∨ a.kind = .dec) (hn : n = .primaryExpression ∨ n = .part)
    (hw : Yields symbols w) : Yields (.n n :: symbols) (a :: w) := by
  have hatom : ∀ m, [.t a.kind] ∈ productions m → Yields [.n m] [a] := fun m hm =>
    .expand hm (.token a .nil) .nil
  obtain ha | ha := ha
  · have hid := hatom .id (by rw [ha]; decide)
    refine Yields.expand (u := [a]) (show [Symbol.n .id] ∈ productions n from ?_) hid hw
    obtain rfl | rfl := hn <;> decide
  · have hdec := hatom .dec (by rw [ha]; decide)
    refine Yields.expand (u := [a]) (show [Symbol.n .dec] ∈ productions n from ?_) hdec hw
    obtain rfl | rfl := hn <;> decide

/-- An expression that is one part expression. -/
theorem IsExpression.of_production {production : List Symbol} {w : List Token}
    (h : production ∈ productions .partExpression) (hw : Yields production w) :
    IsExpression w := by
  have hpart := Yields.expand h hw .nil
  rw [List.append_nil] at hpart
  exact .of_part hpart

end Amed.Generator

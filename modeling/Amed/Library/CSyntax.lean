import Mathlib.Data.List.Basic

/-!
# The syntax of C expressions

A text is cut into tokens by the longest match, and the tokens are read as an expression by the
precedence of the operators. Of the expressions those with two operands, the prefixed signs and
calls are read; an assignment, a cast, a conditional or an access to a member is not.

## Implementation notes

Both readers count their calls down from a bound. More calls read nothing else, so the text is what
they read with some bound.
-/

namespace Amed.CSyntax

/-! ## Tokens -/

inductive Token
  | number (text : List Char)
  | word (text : List Char)
  | punct (text : List Char)
  deriving DecidableEq, Repr

def isBlank (c : Char) : Bool :=
  c = ' ' || c = '\t' || c = '\n' || c = '\x0b' || c = '\x0c' || c = '\r'

def isLetter (c : Char) : Bool := c.isAlpha || c = '_'

def isLetterOrDigit (c : Char) : Bool := isLetter c || c.isDigit

/-- The punctuators of three characters. -/
def punctuators3 : List (List Char) := [['<', '<', '='], ['>', '>', '='], ['.', '.', '.']]

/-- The punctuators of two characters. -/
def punctuators2 : List (List Char) :=
  [['-', '>'], ['+', '+'], ['-', '-'], ['<', '<'], ['>', '>'], ['<', '='], ['>', '='], ['=', '='],
    ['!', '='], ['&', '&'], ['|', '|'], ['*', '='], ['/', '='], ['%', '='], ['+', '='], ['-', '='],
    ['&', '='], ['^', '='], ['|', '='], ['#', '#']]

/-- The punctuators of one character. -/
def punctuators1 : List Char :=
  ['[', ']', '(', ')', '\x7b', '\x7d', '.', '&', '*', '+', '-', '~', '!', '/', '%', '<', '>', '^',
    '|', '?', ':', ';', '=', ',', '#']

/-- The rest of a number behind a character of it: a sign belongs to it behind an `e` or a `p`. -/
def numberRest : Char → List Char → List Char × List Char
  | _, [] => ([], [])
  | last, c :: text =>
      if isLetterOrDigit c || c = '.' || ((c = '+' || c = '-') && last ∈ ['e', 'E', 'p', 'P']) then
        let (run, rest) := numberRest c text
        (c :: run, rest)
      else ([], c :: text)

/-- The punctuator in front of a text, which is no comment. -/
def matchPunct (text : List Char) : Option (Token × List Char) :=
  if [['/', '/'], ['/', '*']].contains (text.take 2) then none
  else if punctuators3.contains (text.take 3) then some (.punct (text.take 3), text.drop 3)
  else if punctuators2.contains (text.take 2) then some (.punct (text.take 2), text.drop 2)
  else
    match text with
    | c :: rest => if c ∈ punctuators1 then some (.punct [c], rest) else none
    | [] => none

/-- The token in front of a text. -/
def matchToken : List Char → Option (Token × List Char)
  | c :: text =>
      if c.isDigit then
        let (run, rest) := numberRest c text
        some (.number (c :: run), rest)
      else if isLetter c then
        some (.word (c :: text.takeWhile isLetterOrDigit), text.dropWhile isLetterOrDigit)
      else matchPunct (c :: text)
  | [] => none

/-- The tokens of a text, by `n` calls. -/
def tokensBy : Nat → List Char → Option (List Token)
  | 0, _ => none
  | n + 1, text =>
      if text.dropWhile isBlank = [] then some []
      else
        (matchToken (text.dropWhile isBlank)).bind fun found =>
          (tokensBy n found.2).map (found.1 :: ·)

/-- The tokens of a text. -/
def Tokens (text : List Char) (tokens : List Token) : Prop := ∃ n, tokensBy n text = some tokens

theorem tokensBy_succ {n : Nat} {text : List Char} {tokens : List Token}
    (h : tokensBy n text = some tokens) : tokensBy (n + 1) text = some tokens := by
  induction n generalizing text tokens with
  | zero => cases h
  | succ n ih =>
      rw [tokensBy] at h ⊢
      split at h
      · rename_i hend
        rw [if_pos hend]
        exact h
      · rename_i hend
        rw [if_neg hend]
        obtain ⟨found, hfound, h⟩ := Option.bind_eq_some_iff.mp h
        obtain ⟨more, hmore, rfl⟩ := Option.map_eq_some_iff.mp h
        rw [hfound, Option.bind_some, ih hmore]
        rfl

theorem tokensBy_le {n m : Nat} {text : List Char} {tokens : List Token}
    (h : tokensBy n text = some tokens) (hle : n ≤ m) : tokensBy m text = some tokens := by
  induction hle with
  | refl => exact h
  | step _ ih => exact tokensBy_succ ih

theorem Tokens.unique {text : List Char} {tokens tokens' : List Token} (h : Tokens text tokens)
    (h' : Tokens text tokens') : tokens = tokens' := by
  obtain ⟨n, hn⟩ := h
  obtain ⟨m, hm⟩ := h'
  have hn' := tokensBy_le hn (Nat.le_max_left n m)
  have hm' := tokensBy_le hm (Nat.le_max_right n m)
  exact Option.some.inj (hn'.symm.trans hm')

theorem Tokens.nil : Tokens [] [] := ⟨1, rfl⟩

theorem Tokens.blank {c : Char} (hc : isBlank c = true) {text : List Char} {tokens : List Token}
    (h : Tokens text tokens) : Tokens (c :: text) tokens := by
  obtain ⟨n, hn⟩ := h
  refine ⟨n, ?_⟩
  cases n with
  | zero => cases hn
  | succ n =>
      rw [tokensBy] at hn ⊢
      rwa [List.dropWhile_cons_of_pos hc]

theorem Tokens.token {text rest : List Char} {token : Token} {tokens : List Token}
    (hhead : ∀ c ∈ text.head?, isBlank c = false) (hmatch : matchToken text = some (token, rest))
    (h : Tokens rest tokens) : Tokens text (token :: tokens) := by
  obtain ⟨n, hn⟩ := h
  refine ⟨n + 1, ?_⟩
  have hdrop : text.dropWhile isBlank = text := by
    cases text with
    | nil => rfl
    | cons c text =>
        exact List.dropWhile_cons_of_neg (by rw [hhead c rfl]; exact Bool.false_ne_true)
  have hne : text ≠ [] := by
    rintro rfl
    cases hmatch
  rw [tokensBy, hdrop, if_neg hne, hmatch, Option.bind_some, hn]
  rfl

/-! ## Expressions -/

inductive Expr
  | number (text : List Char)
  | word (text : List Char)
  | call (name : List Char) (arguments : List Expr)
  | unary (op : Char) (operand : Expr)
  | binary (op : List Char) (left right : Expr)

/-- The operators with two operands and their precedences, the loosest first. -/
def precedences : List (List Char × Nat) :=
  [(['|', '|'], 1), (['&', '&'], 2), (['|'], 3), (['^'], 4), (['&'], 5), (['=', '='], 6),
    (['!', '='], 6), (['<'], 7), (['>'], 7), (['<', '='], 7), (['>', '='], 7), (['<', '<'], 8),
    (['>', '>'], 8), (['+'], 9), (['-'], 9), (['*'], 10), (['/'], 10), (['%'], 10)]

def precedence (op : List Char) : Option Nat := precedences.lookup op

/-- The signs in front of an operand. -/
def signs : List Char := ['+', '-', '!', '~']

/-- The operator in front of the tokens, and its precedence. -/
def operatorAt : List Token → Option (List Char × Nat × List Token)
  | .punct op :: tokens => (precedence op).map fun level => (op, level, tokens)
  | _ => none

mutual

/-- An expression whose operators bind at least as tight as the level. -/
def parseBinary : Nat → Nat → List Token → Option (Expr × List Token)
  | 0, _, _ => none
  | n + 1, level, tokens =>
      (parseUnary n tokens).bind fun left => parseRest n level left.1 left.2

/-- The operators behind a left operand, which group from the left. -/
def parseRest : Nat → Nat → Expr → List Token → Option (Expr × List Token)
  | 0, _, _, _ => none
  | n + 1, level, left, tokens =>
      match operatorAt tokens with
      | none => some (left, tokens)
      | some (op, tight, behind) =>
          if level ≤ tight then
            (parseBinary n (tight + 1) behind).bind fun right =>
              parseRest n level (.binary op left right.1) right.2
          else some (left, tokens)

/-- An operand with its signs. -/
def parseUnary : Nat → List Token → Option (Expr × List Token)
  | 0, _ => none
  | n + 1, tokens =>
      match tokens with
      | .number text :: tokens => some (.number text, tokens)
      | .word name :: .punct ['('] :: tokens =>
          (parseArguments n tokens).map fun arguments => (.call name arguments.1, arguments.2)
      | .word name :: tokens => some (.word name, tokens)
      | .punct ['('] :: tokens =>
          (parseBinary n 0 tokens).bind fun inner =>
            if inner.2.head? = some (.punct [')']) then some (inner.1, inner.2.tail) else none
      | .punct [sign] :: tokens =>
          if sign ∈ signs then
            (parseUnary n tokens).map fun operand => (.unary sign operand.1, operand.2)
          else none
      | _ => none

/-- The arguments of a call, up to the closing parenthesis. -/
def parseArguments : Nat → List Token → Option (List Expr × List Token)
  | 0, _ => none
  | n + 1, tokens =>
      if tokens.head? = some (.punct [')']) then some ([], tokens.tail) else parseItems n tokens

/-- One argument or more. -/
def parseItems : Nat → List Token → Option (List Expr × List Token)
  | 0, _ => none
  | n + 1, tokens =>
      (parseBinary n 0 tokens).bind fun item =>
        if item.2.head? = some (.punct [')']) then some ([item.1], item.2.tail)
        else if item.2.head? = some (.punct [',']) then
          (parseItems n item.2.tail).map fun items => (item.1 :: items.1, items.2)
        else none

end

/-- The expression that a text is read as. -/
def Reads (text : List Char) (e : Expr) : Prop :=
  ∃ tokens, Tokens text tokens ∧ ∃ n, parseBinary n 0 tokens = some (e, [])

/-- What one bound reads, a larger one reads. -/
structure Grows (n : Nat) : Prop where
  binary : ∀ level tokens r, parseBinary n level tokens = some r →
    parseBinary (n + 1) level tokens = some r
  rest : ∀ level left tokens r, parseRest n level left tokens = some r →
    parseRest (n + 1) level left tokens = some r
  unary : ∀ tokens r, parseUnary n tokens = some r → parseUnary (n + 1) tokens = some r
  arguments : ∀ tokens r, parseArguments n tokens = some r → parseArguments (n + 1) tokens = some r
  items : ∀ tokens r, parseItems n tokens = some r → parseItems (n + 1) tokens = some r

theorem Grows.succ {n : Nat} (h : Grows n) : Grows (n + 1) where
  binary level tokens r hr := by
    rw [parseBinary] at hr ⊢
    obtain ⟨left, hleft, hr⟩ := Option.bind_eq_some_iff.mp hr
    rw [h.unary _ _ hleft, Option.bind_some, h.rest _ _ _ _ hr]
  rest level left tokens r hr := by
    rw [parseRest] at hr ⊢
    split at hr
    · exact hr
    · split at hr
      · rename_i hlevel
        rw [if_pos hlevel]
        obtain ⟨right, hright, hr⟩ := Option.bind_eq_some_iff.mp hr
        rw [h.binary _ _ _ hright, Option.bind_some, h.rest _ _ _ _ hr]
      · rename_i hlevel
        rw [if_neg hlevel]
        exact hr
  unary tokens r hr := by
    rw [parseUnary.eq_def] at hr ⊢
    dsimp only at hr ⊢
    split at hr
    · exact hr
    · obtain ⟨arguments, harguments, hr⟩ := Option.map_eq_some_iff.mp hr
      rw [h.arguments _ _ harguments, Option.map_some, hr]
    · exact hr
    · obtain ⟨inner, hinner, hr⟩ := Option.bind_eq_some_iff.mp hr
      rw [h.binary _ _ _ hinner, Option.bind_some, hr]
    · split at hr
      · rename_i hsign
        rw [if_pos hsign]
        obtain ⟨operand, hoperand, hr⟩ := Option.map_eq_some_iff.mp hr
        rw [h.unary _ _ hoperand, Option.map_some, hr]
      · cases hr
    · cases hr
  arguments tokens r hr := by
    rw [parseArguments] at hr ⊢
    split at hr
    · rename_i hend
      rw [if_pos hend]
      exact hr
    · rename_i hend
      rw [if_neg hend]
      exact h.items _ _ hr
  items tokens r hr := by
    rw [parseItems] at hr ⊢
    obtain ⟨item, hitem, hr⟩ := Option.bind_eq_some_iff.mp hr
    rw [h.binary _ _ _ hitem, Option.bind_some]
    split at hr
    · rename_i hend
      rw [if_pos hend]
      exact hr
    · rename_i hend
      rw [if_neg hend]
      split at hr
      · rename_i hcomma
        rw [if_pos hcomma]
        obtain ⟨items, hitems, hr⟩ := Option.map_eq_some_iff.mp hr
        rw [h.items _ _ hitems, Option.map_some, hr]
      · cases hr

theorem grows : ∀ n, Grows n
  | 0 => ⟨nofun, nofun, nofun, nofun, nofun⟩
  | n + 1 => (grows n).succ

theorem parseBinary_le {n m level : Nat} {tokens : List Token} {r : Expr × List Token}
    (h : parseBinary n level tokens = some r) (hle : n ≤ m) :
    parseBinary m level tokens = some r := by
  induction hle with
  | refl => exact h
  | step _ ih => exact (grows _).binary _ _ _ ih

theorem parseUnary_le {n m : Nat} {tokens : List Token} {r : Expr × List Token}
    (h : parseUnary n tokens = some r) (hle : n ≤ m) : parseUnary m tokens = some r := by
  induction hle with
  | refl => exact h
  | step _ ih => exact (grows _).unary _ _ ih

theorem parseItems_le {n m : Nat} {tokens : List Token} {r : List Expr × List Token}
    (h : parseItems n tokens = some r) (hle : n ≤ m) : parseItems m tokens = some r := by
  induction hle with
  | refl => exact h
  | step _ ih => exact (grows _).items _ _ ih

/-- A text is read as one expression. -/
theorem Reads.unique {text : List Char} {e e' : Expr} (h : Reads text e) (h' : Reads text e') :
    e = e' := by
  obtain ⟨tokens, htokens, n, hn⟩ := h
  obtain ⟨tokens', htokens', m, hm⟩ := h'
  obtain rfl := htokens.unique htokens'
  have hn' := parseBinary_le hn (Nat.le_max_left n m)
  have hm' := parseBinary_le hm (Nat.le_max_right n m)
  exact congrArg Prod.fst (Option.some.inj (hn'.symm.trans hm'))

/-! ## Operands -/

/-- The tokens are read as an operand, whatever follows that opens no parenthesis. -/
def IsOperand (tokens : List Token) (e : Expr) : Prop :=
  ∀ rest, rest.head? ≠ some (.punct ['(']) → ∃ n, parseUnary n (tokens ++ rest) = some (e, rest)

theorem IsOperand.number (text : List Char) : IsOperand [.number text] (.number text) :=
  fun _ _ => ⟨1, rfl⟩

theorem IsOperand.word (text : List Char) : IsOperand [.word text] (.word text) := by
  intro rest hrest
  refine ⟨1, ?_⟩
  rw [List.singleton_append, parseUnary.eq_def]
  dsimp only
  split
  · rename_i heq
    cases heq
  · rename_i heq
    cases heq
    exact absurd rfl hrest
  · rename_i heq
    cases heq
    rfl
  · rename_i heq
    cases heq
  · rename_i heq
    cases heq
  · rename_i hword _ _
    exact absurd rfl (hword text rest)

theorem IsOperand.unary {sign : Char} (hsign : sign ∈ signs) {tokens : List Token} {e : Expr}
    (h : IsOperand tokens e) : IsOperand (.punct [sign] :: tokens) (.unary sign e) := by
  intro rest hrest
  obtain ⟨n, hn⟩ := h rest hrest
  refine ⟨n + 1, ?_⟩
  have hne : sign ≠ '(' := by
    rintro rfl
    exact absurd hsign (by decide)
  rw [List.cons_append, parseUnary.eq_def]
  dsimp only
  split
  · rename_i heq
    cases heq
  · rename_i heq
    cases heq
  · rename_i heq
    cases heq
  · rename_i heq
    cases heq
    exact absurd rfl hne
  · rename_i heq
    cases heq
    rw [if_pos hsign, hn]
    rfl
  · rename_i hother
    exact absurd rfl (hother sign _)

/-- An operand that no operator of the level follows. -/
theorem IsOperand.parseBinary {tokens : List Token} {e : Expr} (h : IsOperand tokens e)
    (rest : List Token) (level : Nat) (hrest : rest.head? ≠ some (.punct ['(']))
    (hend : ∀ op tight behind, operatorAt rest = some (op, tight, behind) → ¬level ≤ tight) :
    ∃ n, parseBinary n level (tokens ++ rest) = some (e, rest) := by
  obtain ⟨n, hn⟩ := h rest hrest
  refine ⟨n + 2, ?_⟩
  rw [CSyntax.parseBinary, parseUnary_le hn (Nat.le_succ n), Option.bind_some, parseRest]
  split
  · rfl
  · rename_i heq
    rw [if_neg (hend _ _ _ heq)]

theorem operatorAt_closing (rest : List Token) : operatorAt (.punct [')'] :: rest) = none := rfl

theorem operatorAt_comma (rest : List Token) : operatorAt (.punct [','] :: rest) = none := rfl

/-- Two operands and their operator in parentheses are one operand. -/
theorem IsOperand.binary {op : List Char} {level : Nat} (hop : precedence op = some level)
    {left right : List Token} {a b : Expr} (ha : IsOperand left a) (hb : IsOperand right b) :
    IsOperand (.punct ['('] :: (left ++ .punct op :: (right ++ [.punct [')']])))
      (.binary op a b) := by
  intro rest _
  have hne : op ≠ ['('] := by
    rintro rfl
    cases hop
  have hoperator : operatorAt (.punct op :: (right ++ .punct [')'] :: rest)) =
      some (op, level, right ++ .punct [')'] :: rest) := by
    rw [operatorAt, hop]
    rfl
  obtain ⟨n, hn⟩ := ha (.punct op :: (right ++ .punct [')'] :: rest)) (by simpa using hne)
  obtain ⟨m, hm⟩ := hb.parseBinary (.punct [')'] :: rest) (level + 1) (by simp)
    fun op tight behind h => by
      rw [operatorAt_closing] at h
      cases h
  refine ⟨n + m + 4, ?_⟩
  have hinner : CSyntax.parseBinary (n + m + 3) 0
      (left ++ .punct op :: (right ++ .punct [')'] :: rest)) =
        some (.binary op a b, .punct [')'] :: rest) := by
    rw [CSyntax.parseBinary, parseUnary_le hn (by omega), Option.bind_some, parseRest, hoperator]
    dsimp only
    rw [if_pos (Nat.zero_le level), parseBinary_le hm (by omega), Option.bind_some, parseRest,
      operatorAt_closing]
  rw [List.cons_append, List.append_assoc, List.cons_append, List.append_assoc,
    List.singleton_append, parseUnary]
  rw [hinner]
  rfl

/-- An operand does not start with a closing parenthesis. -/
theorem IsOperand.head {tokens : List Token} {e : Expr} (h : IsOperand tokens e)
    (rest : List Token) : (tokens ++ rest).head? ≠ some (.punct [')']) := by
  have hclosing : ∀ n tokens, parseUnary n (.punct [')'] :: tokens) = none := by
    intro n tokens
    cases n <;> rfl
  obtain ⟨n, hn⟩ := h [] nofun
  rw [List.append_nil] at hn
  cases tokens with
  | nil =>
      cases n with
      | zero => cases hn
      | succ n => cases hn
  | cons token tokens =>
      intro hhead
      cases hhead
      rw [hclosing] at hn
      cases hn

/-- The arguments of a call with commas between them. -/
def commaSeparated (arguments : List (List Token)) : List Token :=
  [Token.punct [',']].intercalate arguments

theorem parseItems_commaSeparated {arguments : List (List Token)} {es : List Expr}
    (h : List.Forall₂ IsOperand arguments es) (hne : arguments ≠ []) (rest : List Token) :
    ∃ n, parseItems n (commaSeparated arguments ++ .punct [')'] :: rest) = some (es, rest) := by
  induction h with
  | nil => exact absurd rfl hne
  | @cons tokens e arguments es htokens hmore ih =>
      cases arguments with
      | nil =>
          cases hmore
          obtain ⟨n, hn⟩ := htokens.parseBinary (.punct [')'] :: rest) 0 (by simp)
            fun op tight behind h => by
              rw [operatorAt_closing] at h
              cases h
          refine ⟨n + 1, ?_⟩
          have hjoined : commaSeparated [tokens] = tokens := by simp [commaSeparated]
          rw [hjoined, parseItems, hn]
          rfl
      | cons tokens' arguments =>
          obtain ⟨m, hm⟩ := ih (List.cons_ne_nil _ _)
          have hjoined : commaSeparated (tokens :: tokens' :: arguments) =
              tokens ++ .punct [','] :: commaSeparated (tokens' :: arguments) := by
            simp [commaSeparated]
          obtain ⟨n, hn⟩ := htokens.parseBinary
            (.punct [','] :: (commaSeparated (tokens' :: arguments) ++ .punct [')'] :: rest)) 0
            (by simp) fun op tight behind h => by
              rw [operatorAt_comma] at h
              cases h
          refine ⟨n + m + 1, ?_⟩
          rw [hjoined, List.append_assoc, List.cons_append, parseItems,
            parseBinary_le hn (by omega), Option.bind_some]
          refine (if_neg (by simp)).trans ((if_pos rfl).trans ?_)
          rw [List.tail_cons, parseItems_le hm (by omega)]
          rfl

/-- A call of operands is an operand. -/
theorem IsOperand.call (name : List Char) {arguments : List (List Token)} {es : List Expr}
    (h : List.Forall₂ IsOperand arguments es) :
    IsOperand (.word name :: .punct ['('] :: (commaSeparated arguments ++ [.punct [')']]))
      (.call name es) := by
  intro rest _
  rw [List.cons_append, List.cons_append, List.append_assoc, List.singleton_append]
  cases h with
  | nil => exact ⟨3, rfl⟩
  | @cons tokens e arguments es htokens hmore =>
      obtain ⟨n, hn⟩ := parseItems_commaSeparated (.cons htokens hmore) (List.cons_ne_nil _ _) rest
      refine ⟨n + 2, ?_⟩
      have hhead : (commaSeparated (tokens :: arguments) ++ .punct [')'] :: rest).head? ≠
          some (.punct [')']) := by
        cases arguments with
        | nil =>
            have hjoined : commaSeparated [tokens] = tokens := by simp [commaSeparated]
            rw [hjoined]
            exact htokens.head _
        | cons tokens' arguments =>
            have hjoined : commaSeparated (tokens :: tokens' :: arguments) =
                tokens ++ .punct [','] :: commaSeparated (tokens' :: arguments) := by
              simp [commaSeparated]
            rw [hjoined, List.append_assoc]
            exact htokens.head _
      rw [parseUnary, parseArguments, if_neg hhead, hn]
      rfl

/-- An operand is an expression. -/
theorem IsOperand.reads {text : List Char} {tokens : List Token} {e : Expr}
    (h : IsOperand tokens e) (htokens : Tokens text tokens) : Reads text e := by
  obtain ⟨n, hn⟩ := h.parseBinary [] 0 nofun nofun
  rw [List.append_nil] at hn
  exact ⟨tokens, htokens, n, hn⟩

/-! ## Spelling -/

/-- What may stand behind an operand: a blank, a closing parenthesis or a comma. -/
def Stops (rest : List Char) : Prop := ∀ c ∈ rest.head?, c = ' ' ∨ c = ')' ∨ c = ','

/-- The text is cut into the tokens, whatever follows that may stand behind an operand. -/
def Spells (text : List Char) (tokens : List Token) : Prop :=
  ∀ rest more, Stops rest → Tokens rest more → Tokens (text ++ rest) (tokens ++ more)

theorem Spells.tokens {text : List Char} {tokens : List Token} (h : Spells text tokens) :
    Tokens text tokens := by
  have hnil := h [] [] (fun c hc => nomatch hc) .nil
  rwa [List.append_nil, List.append_nil] at hnil

theorem Stops.not_run {rest : List Char} (h : Stops rest) {c : Char} (hc : c ∈ rest.head?) :
    isLetterOrDigit c = false ∧ c ≠ '.' ∧ c ≠ '+' ∧ c ≠ '-' := by
  obtain rfl | rfl | rfl := h c hc <;> decide

theorem numberRest_run {run rest : List Char} (hrun : ∀ c ∈ run, isLetterOrDigit c = true)
    (hrest : Stops rest) (last : Char) : numberRest last (run ++ rest) = (run, rest) := by
  induction run generalizing last with
  | nil =>
      cases rest with
      | nil => rfl
      | cons c rest =>
          obtain ⟨h1, h2, h3, h4⟩ := hrest.not_run (c := c) rfl
          rw [List.nil_append, numberRest]
          simp [h1, h2, h3, h4]
  | cons c run ih =>
      obtain ⟨hc, hrun⟩ := List.forall_mem_cons.mp hrun
      rw [List.cons_append, numberRest, hc, ih hrun]
      rfl

theorem isBlank_of_isLetterOrDigit {c : Char} (h : isLetterOrDigit c = true) :
    isBlank c = false := by
  by_contra hblank
  rw [Bool.not_eq_false] at hblank
  simp only [isBlank, Bool.or_eq_true, decide_eq_true_eq] at hblank
  obtain ((((rfl | rfl) | rfl) | rfl) | rfl) | rfl := hblank <;> exact absurd h (by decide)

/-- A number in front of a stop is one token. -/
theorem Spells.number {c : Char} (hc : c.isDigit = true) {run : List Char}
    (hrun : ∀ c ∈ run, isLetterOrDigit c = true) : Spells (c :: run) [.number (c :: run)] := by
  intro rest more hrest hmore
  have hletter : isLetterOrDigit c = true := by rw [isLetterOrDigit, hc, Bool.or_true]
  have hmatch : matchToken (c :: (run ++ rest)) = some (.number (c :: run), rest) := by
    rw [matchToken, if_pos hc, numberRest_run hrun hrest]
  refine .token (fun d hd => ?_) hmatch hmore
  cases hd
  exact isBlank_of_isLetterOrDigit hletter

theorem isLetter_digitChar : ∀ d < 10, isLetter (Char.ofNat (48 + d)) = false := by decide

theorem isLetter_of_isDigit {c : Char} (h : c.isDigit = true) : isLetter c = false := by
  obtain ⟨hlow, hhigh⟩ := Char.isDigit_iff_toNat.mp h
  have hlow : 48 ≤ c.toNat := hlow
  have hhigh : c.toNat ≤ 57 := hhigh
  have hd := isLetter_digitChar (c.toNat - 48) (by omega)
  rwa [Nat.add_sub_cancel' hlow, Char.ofNat_toNat] at hd

/-- A word in front of a stop or of an opening parenthesis is one token. -/
theorem matchToken_word {c : Char} (hc : isLetter c = true) {run : List Char}
    (hrun : ∀ c ∈ run, isLetterOrDigit c = true) {rest : List Char}
    (hrest : ∀ c ∈ rest.head?, isLetterOrDigit c = false) :
    matchToken (c :: (run ++ rest)) = some (.word (c :: run), rest) := by
  have hdigit : c.isDigit = false := by
    by_contra hdigit
    rw [Bool.not_eq_false] at hdigit
    exact Bool.false_ne_true ((isLetter_of_isDigit hdigit).symm.trans hc)
  have hstop : rest.takeWhile isLetterOrDigit = [] ∧ rest.dropWhile isLetterOrDigit = rest := by
    cases rest with
    | nil => exact ⟨rfl, rfl⟩
    | cons d rest =>
        have hd := hrest d rfl
        exact ⟨List.takeWhile_cons_of_neg (by simp [hd]), List.dropWhile_cons_of_neg (by simp [hd])⟩
  rw [matchToken, hdigit, if_neg Bool.false_ne_true, if_pos hc,
    List.takeWhile_append_of_pos hrun, List.dropWhile_append_of_pos hrun, hstop.1, hstop.2,
    List.append_nil]

theorem Spells.word {c : Char} (hc : isLetter c = true) {run : List Char}
    (hrun : ∀ c ∈ run, isLetterOrDigit c = true) : Spells (c :: run) [.word (c :: run)] := by
  intro rest more hrest hmore
  have hletter : isLetterOrDigit c = true := by rw [isLetterOrDigit, hc, Bool.true_or]
  refine .token (fun d hd => ?_) (matchToken_word hc hrun fun d hd => (hrest.not_run hd).1) hmore
  cases hd
  exact isBlank_of_isLetterOrDigit hletter

/-- A character that starts no longer punctuator is a token for itself. -/
theorem Tokens.single {c : Char} (hc : c ∈ ['(', ')', ',']) {rest : List Char}
    {more : List Token} (h : Tokens rest more) : Tokens (c :: rest) (.punct [c] :: more) := by
  have hmatch : matchToken (c :: rest) = some (.punct [c], rest) := by
    simp only [List.mem_cons, List.not_mem_nil, or_false] at hc
    obtain rfl | rfl | rfl := hc <;> rfl
  refine .token (fun d hd => ?_) hmatch h
  cases hd
  simp only [List.mem_cons, List.not_mem_nil, or_false] at hc
  obtain rfl | rfl | rfl := hc <;> rfl

/-- An operator between blanks is a token. -/
theorem Tokens.operator {op : List Char} {level : Nat} (hop : precedence op = some level)
    {rest : List Char} {more : List Token} (h : Tokens (' ' :: rest) more) :
    Tokens (op ++ ' ' :: rest) (.punct op :: more) := by
  have hmem : op ∈ precedences.map Prod.fst := by
    obtain ⟨before, behind, heq, -⟩ := List.lookup_eq_some_iff.mp hop
    rw [heq]
    simp
  simp only [precedences, List.map_cons, List.map_nil, List.mem_cons, List.not_mem_nil,
    or_false] at hmem
  obtain rfl | rfl | rfl | rfl | rfl | rfl | rfl | rfl | rfl | rfl | rfl | rfl | rfl | rfl | rfl |
    rfl | rfl | rfl := hmem <;>
    exact .token (fun d hd => by cases hd; rfl) rfl h

theorem stops_blank (rest : List Char) : Stops (' ' :: rest) := by
  intro c hc
  cases hc
  exact .inl rfl

theorem stops_closing (rest : List Char) : Stops (')' :: rest) := by
  intro c hc
  cases hc
  exact .inr (.inl rfl)

theorem stops_comma (rest : List Char) : Stops (',' :: rest) := by
  intro c hc
  cases hc
  exact .inr (.inr rfl)

/-- A sign in front of a character with which it makes no longer punctuator. -/
theorem matchToken_sign {sign d : Char} (hsign : sign ∈ ['+', '-', '!'])
    (hd : d = '(' ∨ isLetterOrDigit d = true ∨
      d ∈ ['+', '-', '!'] ∧ (sign = '!' ∨ d ≠ sign)) (rest : List Char) :
    matchToken (sign :: d :: rest) = some (.punct [sign], d :: rest) := by
  have hpairs : [sign, d] ∉ [['/', '/'], ['/', '*']] ∧ [sign, d] ∉ punctuators2 := by
    simp only [List.mem_cons, List.not_mem_nil, or_false] at hsign hd
    obtain rfl | hletter | ⟨hother, hne⟩ := hd
    · obtain rfl | rfl | rfl := hsign <;> decide
    · have hne : d ∉ ['=', '>', '+', '-'] := by
        intro hmem
        simp only [List.mem_cons, List.not_mem_nil, or_false] at hmem
        obtain rfl | rfl | rfl | rfl := hmem <;> exact absurd hletter (by decide)
      simp only [List.mem_cons, List.not_mem_nil, or_false, not_or] at hne
      obtain rfl | rfl | rfl := hsign <;> simp [punctuators2, hne]
    · obtain rfl | rfl | rfl := hsign <;> obtain rfl | rfl | rfl := hother <;>
        first | decide | exact absurd hne (by decide)
  have htriple : (sign :: d :: rest).take 3 ∉ punctuators3 := by
    simp only [List.mem_cons, List.not_mem_nil, or_false] at hsign
    obtain rfl | rfl | rfl := hsign <;> simp [punctuators3]
  have hkind : sign.isDigit = false ∧ isLetter sign = false ∧ sign ∈ punctuators1 := by
    simp only [List.mem_cons, List.not_mem_nil, or_false] at hsign
    obtain rfl | rfl | rfl := hsign <;> decide
  rw [matchToken, hkind.1, hkind.2.1, if_neg Bool.false_ne_true, if_neg Bool.false_ne_true,
    matchPunct, if_neg (by simpa using hpairs.1), if_neg (by simpa using htriple),
    if_neg (by simpa using hpairs.2)]
  exact if_pos hkind.2.2

theorem Spells.sign {sign d : Char} (hsign : sign ∈ ['+', '-', '!']) {text : List Char}
    {tokens : List Token} (h : Spells (d :: text) tokens)
    (hd : d = '(' ∨ isLetterOrDigit d = true ∨
      d ∈ ['+', '-', '!'] ∧ (sign = '!' ∨ d ≠ sign)) :
    Spells (sign :: d :: text) (.punct [sign] :: tokens) := by
  intro rest more hrest hmore
  refine .token (fun c hc => ?_) (matchToken_sign hsign hd _) (h rest more hrest hmore)
  cases hc
  simp only [List.mem_cons, List.not_mem_nil, or_false] at hsign
  obtain rfl | rfl | rfl := hsign <;> rfl

/-- Two operands and their operator in parentheses. -/
theorem Spells.binary {op : List Char} {level : Nat} (hop : precedence op = some level)
    {left right : List Char} {tokens tokens' : List Token} (hleft : Spells left tokens)
    (hright : Spells right tokens') :
    Spells ('(' :: (left ++ ' ' :: (op ++ ' ' :: (right ++ [')']))))
      (.punct ['('] :: (tokens ++ .punct op :: (tokens' ++ [.punct [')']]))) := by
  intro rest more hrest hmore
  have hend : Tokens (')' :: rest) (.punct [')'] :: more) := .single (by decide) hmore
  have hright' := (hright _ _ (stops_closing rest) hend).blank (c := ' ') rfl
  have hop' := (Tokens.operator hop hright').blank (c := ' ') rfl
  have hleft' := hleft _ _ (stops_blank _) hop'
  have hwhole := Tokens.single (c := '(') (by decide) hleft'
  simpa using hwhole

/-- Arguments with commas and blanks between them. -/
def commaBlank (texts : List (List Char)) : List Char := [',', ' '].intercalate texts

theorem spells_commaBlank {texts : List (List Char)} {arguments : List (List Token)}
    (h : List.Forall₂ Spells texts arguments) :
    Spells (commaBlank texts) (commaSeparated arguments) := by
  induction h with
  | nil => exact fun _ _ _ hmore => hmore
  | @cons text tokens texts arguments htext hmore ih =>
      cases hmore with
      | nil => simpa [commaBlank, commaSeparated] using htext
      | @cons text' tokens' texts arguments htext' hmore' =>
          intro rest more hrest hmore
          have hcomma := Tokens.single (c := ',') (by decide)
            ((ih rest more hrest hmore).blank (c := ' ') rfl)
          have hwhole := htext _ _ (stops_comma _) hcomma
          simpa [commaBlank, commaSeparated] using hwhole

/-- A call. -/
theorem Spells.call {c : Char} (hc : isLetter c = true) {run : List Char}
    (hrun : ∀ c ∈ run, isLetterOrDigit c = true) {texts : List (List Char)}
    {arguments : List (List Token)} (h : List.Forall₂ Spells texts arguments) :
    Spells (c :: run ++ '(' :: (commaBlank texts ++ [')']))
      (.word (c :: run) :: .punct ['('] :: (commaSeparated arguments ++ [.punct [')']])) := by
  intro rest more hrest hmore
  have hletter : isLetterOrDigit c = true := by rw [isLetterOrDigit, hc, Bool.true_or]
  have hend : Tokens (')' :: rest) (.punct [')'] :: more) := .single (by decide) hmore
  have hitems := spells_commaBlank h _ _ (stops_closing rest) hend
  have hopen := Tokens.single (c := '(') (by decide) hitems
  have hword : matchToken (c :: (run ++ '(' :: (commaBlank texts ++ ')' :: rest))) =
      some (.word (c :: run), '(' :: (commaBlank texts ++ ')' :: rest)) :=
    matchToken_word hc hrun fun d hd => by cases hd; rfl
  have hwhole := Tokens.token (fun d hd => by
    cases hd
    exact isBlank_of_isLetterOrDigit hletter) hword hopen
  simpa using hwhole

end Amed.CSyntax

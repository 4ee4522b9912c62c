import Amed.Generator.Encodedin
import Amed.Generator.Grammar

/-!
# The lexer of the condition expressions

`Lexer.pl`. `TOKENIZER` cuts a text into tokens; `EXPRESSION_LEXER` hands them to the parser and
guesses at each `<` which angle brackets are those of a bit slice. For that `resolveLT2` reads
ahead and keeps what it has read in a cache.

## Implementation notes

A text is a list of ASCII characters. What `TOKENIZER` returns does not depend on the cache, so
the lexer reads from the list of the tokens that are still to come. The undefined value at the
end of the input is the empty text.
-/

namespace Amed.Generator

/-! ## The tokens of a text -/

/-- What `TOKENIZER` returns at the end of the input. -/
def endOfInput : Token := ⟨.eof, []⟩

def isSpace (c : Char) : Bool :=
  c = ' ' || c = '\t' || c = '\n' || c = '\x0b' || c = '\x0c' || c = '\r'

def isBinary (c : Char) : Bool := c = '0' || c = '1' || c = 'x'

def isHex (c : Char) : Bool :=
  c.isDigit || ('a' ≤ c && c ≤ 'f') || ('A' ≤ c && c ≤ 'F')

def twoSymbol : Char → Char → Option Kind
  | '&', '&' => some .andand
  | '|', '|' => some .oror
  | '>', '>' => some .gtgt
  | '<', '<' => some .ltlt
  | '>', '=' => some .ge
  | '<', '=' => some .le
  | '=', '=' => some .eqeq
  | '!', '=' => some .noteq
  | _, _ => none

def oneSymbol : Char → Option Kind
  | ',' => some .comma
  | ':' => some .colon
  | '(' => some .lparen
  | ')' => some .rparen
  | '\x7b' => some .lbrace
  | '\x7d' => some .rbrace
  | '=' => some .eq
  | '+' => some .plus
  | '-' => some .minus
  | '*' => some .star
  | '/' => some .slash
  | '%' => some .mod
  | '&' => some .and
  | '|' => some .or
  | '^' => some .caret
  | '!' => some .not
  | '>' => some .gt
  | '<' => some .lt
  | '~' => some .til
  | _ => none

/-- `%keywords` -/
def keyword (word : List Char) : Kind :=
  if word = ['i', 'n'] ∨ word = ['I', 'N'] then .isIn
  else if word = ['D', 'I', 'V'] then .slash
  else .id

def matchTwo : List Char → Option (Token × List Char)
  | c :: d :: rest => (twoSymbol c d).map fun kind => (⟨kind, [c, d]⟩, rest)
  | _ => none

def matchOne : List Char → Option (Token × List Char)
  | c :: rest => (oneSymbol c).map fun kind => (⟨kind, [c]⟩, rest)
  | [] => none

/-- `'([^']*)'`; the value is what stands between the quotes. -/
def matchString : List Char → Option (Token × List Char)
  | '\'' :: rest =>
      match rest.dropWhile (· ≠ '\'') with
      | _ :: behind => some (⟨.sqstr, rest.takeWhile (· ≠ '\'')⟩, behind)
      | [] => none
  | _ => none

/-- `([..]+)`: a run of one character or more. -/
def matchRun (p : Char → Bool) (text : List Char) : Option (List Char × List Char) :=
  if text.takeWhile p = [] then none
  else some (text.takeWhile p, text.dropWhile p)

/-- `(0b[01x]+)` -/
def matchBinary : List Char → Option (Token × List Char)
  | '0' :: 'b' :: rest =>
      (matchRun isBinary rest).map fun (run, rest) => (⟨.bin, '0' :: 'b' :: run⟩, rest)
  | _ => none

/-- `(0x[a-f0-9A-F]+)` -/
def matchHex : List Char → Option (Token × List Char)
  | '0' :: 'x' :: rest =>
      (matchRun isHex rest).map fun (run, rest) => (⟨.hex, '0' :: 'x' :: run⟩, rest)
  | _ => none

/-- `(\d+\.\d+)` -/
def matchFloat (text : List Char) : Option (Token × List Char) :=
  match matchRun Char.isDigit text with
  | some (whole, '.' :: rest) =>
      (matchRun Char.isDigit rest).map fun (run, rest) => (⟨.float, whole ++ '.' :: run⟩, rest)
  | _ => none

/-- `(\d+)` -/
def matchDecimal (text : List Char) : Option (Token × List Char) :=
  (matchRun Char.isDigit text).map fun (run, rest) => (⟨.dec, run⟩, rest)

/-- `(\w+)` -/
def matchWord (text : List Char) : Option (Token × List Char) :=
  (matchRun isWord text).map fun (run, rest) => (⟨keyword run, run⟩, rest)

/-- The patterns of `TOKENIZER`, in its order. -/
def matchToken (text : List Char) : Option (Token × List Char) :=
  matchTwo text <|> matchOne text <|> matchString text <|> matchBinary text <|> matchHex text <|>
    matchFloat text <|> matchDecimal text <|> matchWord text

/-- `TOKENIZER`: a token and the text behind it. -/
def tokenizer (text : List Char) : Token × List Char :=
  let text := text.dropWhile isSpace
  (matchToken text).getD (endOfInput, text)

/-- The tokens `TOKENIZER` returns before the end of the input, by `n` calls. -/
def tokensBy : Nat → List Char → List Token
  | 0, _ => []
  | n + 1, text =>
      let (token, rest) := tokenizer text
      if token.kind = .eof then [] else token :: tokensBy n rest

/-- The tokens `TOKENIZER` returns before the end of the input. -/
def tokens (text : List Char) : List Token := tokensBy (text.length + 1) text

/-- A pattern leaves a shorter text, and finds no token that only the lexer gives out. -/
def Finds (text : List Char) (r : Option (Token × List Char)) : Prop :=
  ∀ found ∈ r, found.2.length < text.length ∧
    found.1.kind ≠ .lt2 ∧ found.1.kind ≠ .gt2 ∧ found.1.kind ≠ .eof

/-- Of two patterns the first that matches is taken, and it finds a token if either does. -/
theorem Finds.orElse {text : List Char} {r r' : Option (Token × List Char)}
    (h : Finds text r) (h' : Finds text r') : Finds text (r <|> r') := by
  intro found hfound
  cases r with
  | none => exact h' found hfound
  | some _ => exact h found hfound

/-- A run that matches takes at least one character. -/
theorem matchRun_length {p : Char → Bool} {text run rest : List Char}
    (h : matchRun p text = some (run, rest)) : rest.length < text.length := by
  unfold matchRun at h
  split at h
  · cases h
  · rename_i hrun
    cases h
    have hlength := congrArg List.length (List.takeWhile_append_dropWhile (p := p) (l := text))
    have hpos := List.length_pos_iff.mpr hrun
    rw [List.length_append] at hlength
    omega

/-- A run behind `k` characters. -/
theorem Finds.run {p : Char → Bool} {text rest : List Char} (token : List Char → Token)
    (hle : rest.length ≤ text.length) (hkind : ∀ run, (token run).kind ≠ .lt2 ∧
      (token run).kind ≠ .gt2 ∧ (token run).kind ≠ .eof) :
    Finds text ((matchRun p rest).map fun r => (token r.1, r.2)) := by
  intro found hfound
  obtain ⟨⟨run, behind⟩, hrun, rfl⟩ := Option.map_eq_some_iff.mp hfound
  exact ⟨(matchRun_length hrun).trans_le hle, hkind run⟩

theorem matchTwo_finds (text : List Char) : Finds text (matchTwo text) := by
  intro found hfound
  unfold matchTwo at hfound
  split at hfound
  · rename_i c d rest
    obtain ⟨kind, hkind, rfl⟩ := Option.map_eq_some_iff.mp hfound
    refine ⟨by simp only [List.length_cons]; omega, ?_⟩
    unfold twoSymbol at hkind
    split at hkind <;> cases hkind <;> simp
  · cases hfound

theorem matchOne_finds (text : List Char) : Finds text (matchOne text) := by
  intro found hfound
  unfold matchOne at hfound
  split at hfound
  · rename_i c rest
    obtain ⟨kind, hkind, rfl⟩ := Option.map_eq_some_iff.mp hfound
    refine ⟨by simp, ?_⟩
    unfold oneSymbol at hkind
    split at hkind <;> cases hkind <;> simp
  · cases hfound

theorem matchString_finds (text : List Char) : Finds text (matchString text) := by
  intro found hfound
  unfold matchString at hfound
  split at hfound
  · rename_i rest
    split at hfound
    · rename_i quote behind hbehind
      cases hfound
      have hle := (List.dropWhile_suffix (fun c => decide (c ≠ '\'')) (l := rest)).length_le
      rw [hbehind, List.length_cons] at hle
      refine ⟨?_, by simp⟩
      rw [List.length_cons]
      exact (Nat.lt_of_succ_le hle).trans (Nat.lt_succ_self _)
    · cases hfound
  · cases hfound

theorem matchBinary_finds (text : List Char) : Finds text (matchBinary text) := by
  unfold matchBinary
  split
  · exact .run (fun run => ⟨.bin, '0' :: 'b' :: run⟩) (by simp; omega) (by simp)
  · exact fun found hfound => nomatch hfound

theorem matchHex_finds (text : List Char) : Finds text (matchHex text) := by
  unfold matchHex
  split
  · exact .run (fun run => ⟨.hex, '0' :: 'x' :: run⟩) (by simp; omega) (by simp)
  · exact fun found hfound => nomatch hfound

theorem matchFloat_finds (text : List Char) : Finds text (matchFloat text) := by
  unfold matchFloat
  split
  · rename_i whole rest hrun
    have hlength := matchRun_length hrun
    rw [List.length_cons] at hlength
    exact .run (fun run => ⟨.float, whole ++ '.' :: run⟩) (by omega) (by simp)
  · exact fun found hfound => nomatch hfound

/-- A word is one of the two operators that are spelled as words, or a name. -/
theorem keyword_cases (word : List Char) :
    keyword word = .isIn ∨ keyword word = .slash ∨ keyword word = .id := by
  unfold keyword
  split
  · exact Or.inl rfl
  · split
    · exact Or.inr (Or.inl rfl)
    · exact Or.inr (Or.inr rfl)

/-- Every pattern takes at least one character and gives no double angle bracket. -/
theorem matchToken_finds (text : List Char) : Finds text (matchToken text) := by
  refine (matchTwo_finds text).orElse ((matchOne_finds text).orElse ((matchString_finds text).orElse
    ((matchBinary_finds text).orElse ((matchHex_finds text).orElse ((matchFloat_finds text).orElse
      (Finds.orElse ?_ ?_))))))
  · exact .run (fun run => ⟨.dec, run⟩) le_rfl (by simp)
  · refine .run (fun run => ⟨keyword run, run⟩) le_rfl fun run => ?_
    obtain h | h | h := keyword_cases run <;> simp [h]

/-- Behind the white space a token takes at least one character, or the text ends. -/
theorem tokenizer_finds {text : List Char} (h : (tokenizer text).1.kind ≠ .eof) :
    (tokenizer text).2.length < text.length ∧
      (tokenizer text).1.kind ≠ .lt2 ∧ (tokenizer text).1.kind ≠ .gt2 := by
  have hle := (List.dropWhile_suffix isSpace (l := text)).length_le
  unfold tokenizer at h ⊢
  dsimp only at h ⊢
  cases hmatch : matchToken (text.dropWhile isSpace) with
  | none =>
      rw [hmatch] at h
      exact absurd rfl h
  | some found =>
      obtain ⟨hlength, hlt2, hgt2, -⟩ := matchToken_finds _ found hmatch
      exact ⟨hlength.trans_le hle, hlt2, hgt2⟩

/-- A token as `TOKENIZER` returns it. -/
def Token.IsRaw (a : Token) : Prop := a.kind ≠ .lt2 ∧ a.kind ≠ .gt2 ∧ a.kind ≠ .eof

/-- The tokenizer knows no double angle brackets: the lexer makes them of its tokens. -/
theorem tokensBy_isRaw (n : Nat) (text : List Char) : ∀ a ∈ tokensBy n text, a.IsRaw := by
  induction n generalizing text with
  | zero => exact fun a ha => nomatch ha
  | succ n ih =>
      unfold tokensBy
      dsimp only
      split
      · exact fun a ha => nomatch ha
      · rename_i hkind
        obtain ⟨-, hlt2, hgt2⟩ := tokenizer_finds hkind
        intro a ha
        obtain rfl | ha := List.mem_cons.mp ha
        · exact ⟨hlt2, hgt2, hkind⟩
        · exact ih _ a ha

/-! ## The lexer -/

/-- `YYInput`, as the tokens to come, and the cache of `YYData`. -/
structure Lexer where
  input : List Token
  cache : List Token

/-- The next token of `TOKENIZER`. -/
def nextToken : List Token → Token × List Token
  | [] => (endOfInput, [])
  | token :: input => (token, input)

def setKind (kind : Kind) (token : Token) : Token := { token with kind := kind }

/-- The variables of `resolveLT2` and the cache. `LTCacheStack` holds positions in the cache. -/
structure Scan where
  level : Int
  stack : List Int
  ltCacheStack : List Nat
  operators : Int → Nat
  cache : List Token

/-- The branch of `GT`. -/
def Scan.examineGT (s : Scan) : Scan × Bool :=
  if s.stack.head? = some s.level ∧ s.operators s.level = 0 then
    ({ s with
        stack := s.stack.tail
        ltCacheStack := s.ltCacheStack.tail
        cache := (s.cache.modify (s.ltCacheStack.headD 0) (setKind .lt2)).modify
          (s.cache.length - 1) (setKind .gt2) },
      s.level = 0)
  else ({ s with stack := s.stack.tail }, false)

/-- The body of the loop, for the token that is read last; `true` leaves the loop. -/
def Scan.examine (s : Scan) (token : Token) : Scan × Bool :=
  match token.kind with
  | .lparen => ({ s with level := s.level + 1 }, false)
  | .rparen => ({ s with level := s.level - 1 }, false)
  | .lt =>
      ({ s with
          stack := s.level :: s.stack
          ltCacheStack := (s.cache.length - 1) :: s.ltCacheStack }, false)
  | .gt => s.examineGT
  | .colon => (s, false)
  | .id => (s, false)
  | _ =>
      ({ s with
          operators := fun level =>
            if level = s.level then s.operators level + 1 else s.operators level }, false)

/-- `readForward` in the loop, and the body. -/
def Scan.read (s : Scan) (token : Token) : Scan × Bool :=
  { s with cache := s.cache ++ [token] }.examine token

/-- The loop of `resolveLT2`. The end of the input is examined too, and ends the loop. -/
def scanLoop : List Token → Scan → Lexer
  | [], s => ⟨[], (s.read endOfInput).1.cache⟩
  | token :: input, s =>
      match s.read token with
      | (s, true) => ⟨input, s.cache⟩
      | (s, false) => scanLoop input s

/-- The state in which the loop is entered. -/
def Scan.start (position : Nat) (cache : List Token) : Scan :=
  ⟨0, [0], [position], fun _ => 0, cache⟩

/-- `resolveLT2`: the first token behind the `<` is not examined. -/
def resolveLT2 (lexer : Lexer) : Lexer :=
  let (token, input) := nextToken lexer.input
  let cache := lexer.cache ++ [token]
  if token.kind = .eof then ⟨input, cache⟩
  else scanLoop input (.start (lexer.cache.length - 1) cache)

/-- The two `shift`s of the cache. -/
def Lexer.shift (lexer : Lexer) : Token × Lexer :=
  match lexer.cache with
  | [] => (endOfInput, lexer)
  | token :: cache => (token, { lexer with cache := cache })

/-- `EXPRESSION_LEXER`. -/
def expressionLexer (lexer : Lexer) : Token × Lexer :=
  match lexer.cache with
  | _ :: _ => lexer.shift
  | [] =>
      let (token, input) := nextToken lexer.input
      if token.kind = .lt then (resolveLT2 ⟨input, [token]⟩).shift
      else (token, ⟨input, []⟩)

/-- What `n` calls of `EXPRESSION_LEXER` deliver. -/
def deliver : Nat → Lexer → List Token
  | 0, _ => []
  | n + 1, lexer =>
      let (token, lexer) := expressionLexer lexer
      token :: deliver n lexer

/-- The lexer delivers the tokens of the text as those of the expression, and then its end. -/
def Delivers (text : List Char) (w : List Token) : Prop :=
  deliver (w.length + 1) ⟨tokens text, []⟩ = w ++ [endOfInput]

instance (text : List Char) (w : List Token) : Decidable (Delivers text w) :=
  inferInstanceAs (Decidable (_ = _))

end Amed.Generator

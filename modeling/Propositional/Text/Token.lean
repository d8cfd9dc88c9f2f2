import Propositional.Symbol

/-!
# Tokens

The words of both notations: parentheses, variable names and operators, and the end of the input.
A token is read off the front of the remaining characters; a variable name takes all the digits
that follow its letter. All tokens are ASCII, so a token is as many bytes long as its text has
characters.

`Lexer` is the state of reading: the characters that remain and the byte column, counted from 1,
at which they begin. A read that fails, and a read at the end of the input, leave it as it was.

## Main definitions

* `Token`, `Token.text`: the tokens and how they are written.
* `SyntaxFault`, `SyntaxError`: what can be wrong with a text, and at which column.
* `Lexer`, `Lexer.read`, `Lexer.next`: reading the next token, the end of the input included or
  refused.

## Main results

* `Lexer.length_next`: a token that is read shortens the remaining text.
-/

namespace Propositional

/-- The words of a text, and its end. -/
inductive Token
  | openParen
  | closeParen
  | var (name : String)
  | operator (op : Operator)
  | endOfInput
  deriving DecidableEq

/-- How the token is written. The end of the input, which has no characters, is called `EOF`. -/
def Token.text : Token → String
  | openParen => "("
  | closeParen => ")"
  | var name => name
  | operator op => op.symbol
  | endOfInput => "EOF"

/-- What can be wrong with a text. -/
inductive SyntaxFault
  | unexpectedChar (c : Char)
  | incompleteArrow
  | unexpectedToken (token : Token)
  | unexpectedEnd
  | trailingInput (rest : String)
  | tooDeep (limit : Nat)
  deriving DecidableEq

/-- The text of the fault, without its place. -/
def SyntaxFault.message : SyntaxFault → String
  | unexpectedChar c => s!"unexpected character: '{c}'"
  | incompleteArrow => "expected '>' after '-'"
  | unexpectedToken token => s!"unexpected token: '{token.text}'"
  | unexpectedEnd => "unexpected end of input"
  | trailingInput rest => s!"unexpected input after formula: '{rest}'"
  | tooDeep limit => s!"formula exceeds the maximum nesting depth of {limit}"

/-- A fault and the byte column, counted from 1, at which it was found. -/
structure SyntaxError where
  fault : SyntaxFault
  column : Nat
  deriving DecidableEq

/-- The text of the error. -/
def SyntaxError.message (e : SyntaxError) : String :=
  s!"parser error: {e.fault.message} (at column {e.column})"

/-- The tokens that are one character other than a letter of a variable name. -/
def Token.ofChar? : Char → Option Token
  | '(' => some .openParen
  | ')' => some .closeParen
  | 'T' => some (.operator (.constant true))
  | 'F' => some (.operator (.constant false))
  | '~' => some (.operator .negation)
  | '&' => some (.operator (.binary .and))
  | '|' => some (.operator (.binary .or))
  | _ => none

/-- The state of reading a text: what remains of it, and the byte column at which that begins. -/
structure Lexer where
  column : Nat
  rest : List Char

namespace Lexer

/-- The state before the first character. -/
def ofString (s : String) : Lexer := ⟨1, s.toList⟩

/-- The text that has not been read. -/
def remaining (l : Lexer) : String := String.ofList l.rest

/-- Reads the next token, which at the end of the text is `Token.endOfInput`. The column of the
token is that of the state before it. -/
def read (l : Lexer) : Except SyntaxError (Token × Lexer) :=
  match l.rest with
  | [] => .ok (.endOfInput, l)
  | '-' :: '>' :: rest => .ok (.operator (.binary .implies), ⟨l.column + 2, rest⟩)
  | c :: rest =>
    if c = '-' then .error ⟨.incompleteArrow, l.column⟩
    else if isVariableLetter c then
      let digits := rest.takeWhile Char.isDigit
      .ok (.var (String.ofList (c :: digits)),
        ⟨l.column + 1 + digits.length, rest.dropWhile Char.isDigit⟩)
    else
      match Token.ofChar? c with
      | some token => .ok (token, ⟨l.column + 1, rest⟩)
      | none => .error ⟨.unexpectedChar c, l.column⟩

/-- Reads the next token, where the end of the text is an error. -/
def next (l : Lexer) : Except SyntaxError (Token × Lexer) :=
  match l.read with
  | .error e => .error e
  | .ok (.endOfInput, _) => .error ⟨.unexpectedEnd, l.column⟩
  | .ok (token, l') => .ok (token, l')

theorem length_read {l l' : Lexer} {token : Token} (h : l.read = .ok (token, l')) :
    token = .endOfInput ∧ l' = l ∨ l'.rest.length < l.rest.length := by
  obtain ⟨column, rest⟩ := l
  unfold read at h
  split at h
  · rename_i hrest
    simp only [Except.ok.injEq, Prod.mk.injEq] at h
    exact .inl ⟨h.1.symm, h.2.symm⟩
  · rename_i rest' hrest
    simp only [Except.ok.injEq, Prod.mk.injEq] at h
    simp only at hrest
    rw [← h.2]
    simp only [hrest, List.length_cons]
    omega
  · rename_i c rest' _ hrest
    simp only at hrest
    right
    split at h
    · simp at h
    · split at h
      · simp only [Except.ok.injEq, Prod.mk.injEq] at h
        rw [← h.2]
        simp only [hrest, List.length_cons]
        exact Nat.lt_succ_of_le (List.dropWhile_suffix _).sublist.length_le
      · split at h
        · simp only [Except.ok.injEq, Prod.mk.injEq] at h
          rw [← h.2]
          simp [hrest]
        · simp at h

/-- A token that is read shortens the remaining text. -/
theorem length_next {l l' : Lexer} {token : Token} (h : l.next = .ok (token, l')) :
    l'.rest.length < l.rest.length := by
  unfold next at h
  split at h
  · simp at h
  · simp at h
  · rename_i token' l'' hne hread
    simp only [Except.ok.injEq, Prod.mk.injEq] at h
    obtain ⟨rfl, rfl⟩ := h
    rcases length_read hread with ⟨rfl, -⟩ | hlt
    · simp at hne
    · exact hlt

end Lexer

end Propositional

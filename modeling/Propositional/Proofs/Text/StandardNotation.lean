import Propositional.Proofs.Text.Reading
import Propositional.Text.Parser

/-!
# The Standard Notation, Written and Read

The printer and the parser of the standard notation are inverse to each other. Both are
compared with `Formula.standardTokens`, the tokens of a formula by recursion.

The reader's half rests on one invariant: a state knows everything that it has been fed.
`Standard.State.consumed` reconstructs those tokens from the open operations on the stack
and the formulas that were finished, and each token that is fed is appended to them
(`Standard.consumed_feed`). In the state `done f` they are the tokens of `f`, so no other
tokens lead there; conversely the tokens of a formula lead from an expected operand to
the state after that operand (`Standard.feedAll_standardTokens`).

`StandardText` is the grammar of the notation over bare strings, independent of formulas
and tokens.

## Main results

* `Standard.reads`: the reader reads the standard notation.
* `parse_eq_ok_iff`: `parse` returns `f` exactly for the text of a well-formed `f`.
* `parse_text_roundtrip`: the round trip in both directions, and the language of
  `isFormula`.
-/

namespace Propositional

namespace Formula

/-- The tokens of a formula in standard notation. -/
def standardTokens : Formula → List Token
  | var name => [.var name]
  | const value => [.operator (.constant value)]
  | not f => .operator .negation :: f.standardTokens
  | binary c f g =>
      .openParen :: f.standardTokens ++ .operator (.binary c) :: g.standardTokens ++
        [.closeParen]

/-- The text of a formula is the text of its tokens. -/
theorem toList_text (f : Formula) : f.text.toList = Token.chars f.standardTokens := by
  rw [text_eq]
  induction f with
  | var name => simp [standardForm, standardTokens, Token.text]
  | const value => simp [standardForm, standardTokens, Token.text]
  | not f ih => simp [standardForm, standardTokens, Token.text, Operator.symbol, ih]
  | binary c f g ihf ihg =>
      simp [standardForm, standardTokens, Token.text, Operator.symbol, ihf, ihg]

/-- The tokens of a formula can stand in a text exactly if its variables have valid
names. -/
theorem wellFormed_standardTokens (f : Formula) :
    (∀ t ∈ f.standardTokens, t.WellFormed) ↔ f.WellFormed := by
  induction f with
  | var name => simp [standardTokens, Token.WellFormed, WellFormed]
  | const value => simp [standardTokens, Token.WellFormed, WellFormed]
  | not f ih => simpa [standardTokens, Token.WellFormed, WellFormed] using ih
  | binary c f g ihf ihg =>
      rw [WellFormed, ← ihf, ← ihg]
      simp [standardTokens, Token.WellFormed, or_imp, forall_and]

/-- The tokens spell the text. -/
theorem spelling_text : Reader.Spelling text standardTokens :=
  ⟨toList_text, wellFormed_standardTokens⟩

end Formula

namespace Standard

/-! ### What a state has been fed -/

/-- The tokens that open an operation, up to the operand that it waits for. -/
def Frame.tokens : Frame → List Token
  | negation => [.operator .negation]
  | opened => [.openParen]
  | joined first c => .openParen :: first.standardTokens ++ [.operator (.binary c)]

/-- The tokens of all open operations, the outermost first. -/
def pendingTokens : List Frame → List Token
  | [] => []
  | frame :: pending => pendingTokens pending ++ frame.tokens

/-- All tokens that lead to a state. -/
def State.consumed : State → List Token
  | operand pending => pendingTokens pending
  | connective first pending =>
      pendingTokens pending ++ .openParen :: first.standardTokens
  | closing c first second pending =>
      pendingTokens pending ++ .openParen :: first.standardTokens ++
        .operator (.binary c) :: second.standardTokens
  | done f => f.standardTokens

/-- A formula that ends some of the open operations has been fed along with them. -/
theorem consumed_finish (f : Formula) (pending : List Frame) :
    (finish f pending).consumed = pendingTokens pending ++ f.standardTokens := by
  induction pending generalizing f with
  | nil => rfl
  | cons frame pending ih =>
      cases frame with
      | negation => simp [finish, ih, pendingTokens, Frame.tokens, Formula.standardTokens]
      | opened => simp [finish, State.consumed, pendingTokens, Frame.tokens]
      | joined first c => simp [finish, State.consumed, pendingTokens, Frame.tokens]

/-- **A state knows what it has been fed**: a token that is taken is appended. -/
theorem consumed_feed {s s' : State} {t : Token} (h : feed s t = some s') :
    s'.consumed = s.consumed ++ [t] := by
  unfold feed at h
  split at h <;> cases h
  · rw [consumed_finish]; rfl
  · rw [consumed_finish]; rfl
  · rfl
  · rfl
  · simp [State.consumed, pendingTokens, Frame.tokens]
  · rw [consumed_finish]
    simp [State.consumed, Formula.standardTokens]

/-- So the tokens that lead to a state are known there. -/
theorem remembers : reader.Remembers State.consumed :=
  ⟨rfl, consumed_feed⟩

/-! ### The tokens of a formula -/

/-- The tokens of a formula lead from an expected operand to the state after it. -/
theorem feedAll_standardTokens (f : Formula) (pending : List Frame) :
    reader.feedAll (.operand pending) f.standardTokens = some (finish f pending) := by
  induction f generalizing pending with
  | var name => rfl
  | const value => rfl
  | not f ih => exact ih (.negation :: pending)
  | binary c f g ihf ihg =>
      have hfirst := ihf (.opened :: pending)
      have hsecond := ihg (.joined f c :: pending)
      have hopen : reader.feed (.operand pending) .openParen =
          some (.operand (.opened :: pending)) := rfl
      have hjoin : reader.feed (finish f (.opened :: pending)) (.operator (.binary c)) =
          some (.operand (.joined f c :: pending)) := rfl
      have hclose : reader.feed (finish g (.joined f c :: pending)) .closeParen =
          some (finish (.binary c f g) pending) := rfl
      simp only [Formula.standardTokens, List.cons_append, List.append_assoc,
        Reader.feedAll_cons, Reader.feedAll_append, Reader.feedAll_nil, Option.bind_some,
        hopen, hfirst, hjoin, hsecond, hclose]

/-- **The reader reads the standard notation.** -/
theorem reads : reader.Reads Formula.standardTokens where
  complete f := ⟨.done f, feedAll_standardTokens f [], rfl⟩
  sound := by
    intro ts s f hfeed hres
    have hts : s.consumed = ts := remembers.consumed_eq hfeed
    cases s with
    | done g =>
        obtain rfl := Option.some.inj hres
        exact hts.symm
    | operand | connective | closing => exact absurd hres (by simp [reader, result?])
  closed := by
    intro s f hres t
    cases s with
    | done g => rfl
    | operand | connective | closing => exact absurd hres (by simp [reader, result?])

end Standard

/-! ### Parsing whole texts -/

/-- Parsing is reading a whole text in standard notation. -/
theorem parse_eq_whole (s : String) (limit : Option Nat) :
    parse s limit = Standard.reader.whole limit s := by
  simp only [parse, Reader.whole, Parser.formula, Parser.ofString, Parser.expectEnd,
    Parser.remaining]
  rcases Standard.reader.run limit Standard.reader.start (.ofString s) with ⟨e | f, l⟩
  · rfl
  · cases hrest : l.rest <;> simp [hrest, Except.map]

/-- Parsing a prefix is reading a formula in standard notation off the start of a text. -/
theorem parsePrefix_eq_front (s : String) (limit : Option Nat) :
    parsePrefix s limit = Standard.reader.front limit s := by
  simp only [parsePrefix, Reader.front, Parser.formula, Parser.ofString, Parser.remaining]
  rcases Standard.reader.run limit Standard.reader.start (.ofString s) with ⟨e | f, l⟩ <;> rfl

/-- The parser returns `f` exactly for the text of `f`, and only well-formed formulas. -/
theorem parse_eq_ok_iff {s : String} {f : Formula} :
    parse s = .ok f ↔ f.WellFormed ∧ f.text = s := by
  rw [parse_eq_whole, Standard.reads.whole_eq_ok_iff Formula.spelling_text]

/-- A text is a formula exactly if it is the text of a well-formed one. -/
theorem isFormula_iff {s : String} :
    isFormula s = true ↔ ∃ f : Formula, f.WellFormed ∧ f.text = s := by
  rw [isFormula, parse_eq_whole, Standard.reads.isOk_whole_iff Formula.spelling_text]

/-! ### The grammar -/

/-- The texts of the standard notation. A variable is a letter from `p` to `z` with any
number of digits after it. -/
inductive StandardText : String → Prop
  | var {letter : Char} {digits : List Char} :
      'p' ≤ letter → letter ≤ 'z' → (∀ d ∈ digits, '0' ≤ d ∧ d ≤ '9') →
      StandardText (String.ofList (letter :: digits))
  | verum : StandardText "T"
  | falsum : StandardText "F"
  | negation {s : String} : StandardText s → StandardText ("~" ++ s)
  | binary {s t symbol : String} : symbol ∈ ["&", "|", "->"] → StandardText s →
      StandardText t → StandardText ("(" ++ s ++ symbol ++ t ++ ")")

/-- The symbols between the operands are those of the connectives. -/
theorem Connective.exists_symbol_iff {symbol : String} :
    symbol ∈ ["&", "|", "->"] ↔ ∃ c : Connective, c.symbol = symbol := by
  constructor
  · intro h
    simp only [List.mem_cons, List.not_mem_nil, or_false] at h
    rcases h with rfl | rfl | rfl
    · exact ⟨.and, rfl⟩
    · exact ⟨.or, rfl⟩
    · exact ⟨.implies, rfl⟩
  · rintro ⟨c, rfl⟩
    cases c <;> simp [Connective.symbol]

/-- The texts of well-formed formulas follow the grammar. -/
theorem Formula.standardText_text {f : Formula} (h : f.WellFormed) : StandardText f.text := by
  rw [text_eq]
  induction f with
  | var name =>
      obtain ⟨c, digits, rfl, hc, hdigits⟩ := isVariable_iff.mp h
      simp only [isVariableLetter, Bool.and_eq_true, decide_eq_true_eq] at hc
      exact .var hc.1 hc.2 fun d hd => isDigit_iff.mp (hdigits d hd)
  | const value =>
      cases value with
      | true => exact .verum
      | false => exact .falsum
  | not f ih => exact .negation (ih h)
  | binary c f g ihf ihg =>
      exact .binary (Connective.exists_symbol_iff.mpr ⟨c, rfl⟩) (ihf h.1) (ihg h.2)

/-- Every text of the grammar is the text of a well-formed formula. -/
theorem StandardText.exists_formula {s : String} (h : StandardText s) :
    ∃ f : Formula, f.WellFormed ∧ f.text = s := by
  simp only [Formula.text_eq]
  induction h with
  | var hp hz hdigits =>
      refine ⟨.var _, isVariable_iff.mpr ⟨_, _, rfl, ?_, ?_⟩, rfl⟩
      · simp [isVariableLetter, hp, hz]
      · exact fun d hd => isDigit_iff.mpr (hdigits d hd)
  | verum => exact ⟨.const true, trivial, rfl⟩
  | falsum => exact ⟨.const false, trivial, rfl⟩
  | negation _ ih =>
      obtain ⟨f, hf, rfl⟩ := ih
      exact ⟨.not f, hf, rfl⟩
  | binary hsymbol _ _ ihs iht =>
      obtain ⟨c, rfl⟩ := Connective.exists_symbol_iff.mp hsymbol
      obtain ⟨f, hf, rfl⟩ := ihs
      obtain ⟨g, hg, rfl⟩ := iht
      exact ⟨.binary c f g, ⟨hf, hg⟩, rfl⟩

/-- **The standard notation round trip.** The text of a well-formed formula is parsed to
that formula; a text that is parsed is the text of the formula it is parsed to; and the
texts that are formulas are exactly those of the grammar. -/
theorem parse_text_roundtrip :
    (∀ f : Formula, f.WellFormed → parse f.text = .ok f) ∧
      (∀ (s : String) (f : Formula), parse s = .ok f → f.WellFormed ∧ f.text = s) ∧
      ∀ s : String, isFormula s = true ↔ StandardText s := by
  refine ⟨fun f hf => parse_eq_ok_iff.mpr ⟨hf, rfl⟩, fun s f h => parse_eq_ok_iff.mp h, ?_⟩
  intro s
  rw [isFormula_iff]
  constructor
  · rintro ⟨f, hf, rfl⟩
    exact Formula.standardText_text hf
  · intro h
    exact h.exists_formula

end Propositional

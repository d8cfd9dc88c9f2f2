import Propositional.Proofs.Text.Reading
import Propositional.Text.Parser

/-!
# The Polish Notation, Written and Read

The printer and the parser of the polish notation are inverse to each other. Each symbol
of the notation is one token, so the tokens of a formula are the symbols of its
subformulas in preorder (`Formula.polishTokens`), and where a variable name meets the next
symbol no token begins with a digit.

The reader's half rests on the same invariant as for the standard notation: a state knows
everything that it has been fed. An operator that waits for its second operand holds the
first one, so `Polish.State.consumed` can write down both the operators that wait and the
operands they have. In the state `done f` nothing waits and the tokens are those of `f`.

## Main results

* `Polish.reads`: the reader reads the polish notation.
* `parsePolish_eq_ok_iff`: `parsePolish` returns `f` exactly for the text of a well-formed
  `f`.
* `parsePolish_polish_roundtrip`: the round trip in both directions, and the texts for
  which `isPolishFormula` holds.
-/

namespace Propositional

namespace Formula

/-- The token of the symbol at the root. -/
def rootToken : Formula → Token
  | var name => .var name
  | const value => .operator (.constant value)
  | not _ => .operator .negation
  | binary c _ _ => .operator (.binary c)

/-- The tokens of a formula in polish notation: the symbols in preorder. -/
def polishTokens (f : Formula) : List Token :=
  f.preorderForm.map rootToken

@[simp] theorem polishTokens_var (name : String) : (var name).polishTokens = [.var name] := rfl

@[simp] theorem polishTokens_const (value : Bool) :
    (const value).polishTokens = [.operator (.constant value)] := rfl

@[simp] theorem polishTokens_not (f : Formula) :
    (not f).polishTokens = .operator .negation :: f.polishTokens := rfl

@[simp] theorem polishTokens_binary (c : Connective) (f g : Formula) :
    (binary c f g).polishTokens =
      .operator (.binary c) :: (f.polishTokens ++ g.polishTokens) := by
  simp [polishTokens, preorderForm, rootToken]

/-- The token of a symbol is written as that symbol. -/
theorem text_rootToken (f : Formula) : f.rootToken.text = f.root := by
  cases f <;> rfl

/-- In polish notation a formula is written as its symbols in preorder. -/
theorem polish_eq_join (f : Formula) : f.polish = String.join (f.preorder.map root) := by
  rw [polish, foldl_preorderStart, preorder_eq, String.join, List.foldl_map]

/-- The text of a formula is the text of its tokens. -/
theorem toList_polish (f : Formula) : f.polish.toList = Token.chars f.polishTokens := by
  rw [polish_eq_join, preorder_eq, String.toList_join, Token.chars, polishTokens,
    List.flatMap_map, List.flatMap_map]
  simp only [text_rootToken]

/-- The tokens of a formula can stand in a text exactly if its variables have valid
names. -/
theorem wellFormed_polishTokens (f : Formula) :
    (∀ t ∈ f.polishTokens, t.WellFormed) ↔ f.WellFormed := by
  induction f with
  | var name => simp [Token.WellFormed, WellFormed]
  | const value => simp [Token.WellFormed, WellFormed]
  | not f ih => simpa [Token.WellFormed, WellFormed] using ih
  | binary c f g ihf ihg =>
      rw [WellFormed, ← ihf, ← ihg]
      simp [Token.WellFormed, or_imp, forall_and]

/-- The tokens spell the text. -/
theorem spelling_polish : Reader.Spelling polish polishTokens :=
  ⟨toList_polish, wellFormed_polishTokens⟩

end Formula

namespace Polish

/-! ### What a state has been fed -/

/-- The tokens of an operator that waits and of the operand that it has. -/
def Frame.tokens : Frame → List Token
  | negation => [.operator .negation]
  | first c => [.operator (.binary c)]
  | second c operand => .operator (.binary c) :: operand.polishTokens

/-- The tokens of all operators that wait, the outermost first. -/
def pendingTokens : List Frame → List Token
  | [] => []
  | frame :: pending => pendingTokens pending ++ frame.tokens

/-- All tokens that lead to a state. -/
def State.consumed : State → List Token
  | operand pending => pendingTokens pending
  | done f => f.polishTokens

/-- A formula that ends some of the operators has been fed along with them. -/
theorem consumed_finish (f : Formula) (pending : List Frame) :
    (finish f pending).consumed = pendingTokens pending ++ f.polishTokens := by
  induction pending generalizing f with
  | nil => rfl
  | cons frame pending ih =>
      cases frame with
      | negation => simp [finish, ih, pendingTokens, Frame.tokens]
      | first c => simp [finish, State.consumed, pendingTokens, Frame.tokens]
      | second c operand => simp [finish, ih, pendingTokens, Frame.tokens]

/-- A token that is taken is appended to what the state has been fed. -/
theorem consumed_feed {s s' : State} {t : Token} (h : feed s t = some s') :
    s'.consumed = s.consumed ++ [t] := by
  unfold feed at h
  split at h <;> cases h
  · rw [consumed_finish]; rfl
  · rw [consumed_finish]; rfl
  · rfl
  · rfl

/-- So the tokens that lead to a state are known there. -/
theorem remembers : reader.Remembers State.consumed :=
  ⟨rfl, consumed_feed⟩

/-! ### The tokens of a formula -/

/-- The tokens of a formula lead from an expected operand to the state after it. -/
theorem feedAll_polishTokens (f : Formula) (pending : List Frame) :
    reader.feedAll (.operand pending) f.polishTokens = some (finish f pending) := by
  induction f generalizing pending with
  | var name => rfl
  | const value => rfl
  | not f ih => exact ih (.negation :: pending)
  | binary c f g ihf ihg =>
      have hopen : reader.feed (.operand pending) (.operator (.binary c)) =
          some (.operand (.first c :: pending)) := rfl
      -- The first operand does not end the connective, but moves into its frame.
      have hfirst : reader.feedAll (.operand (.first c :: pending)) f.polishTokens =
          some (.operand (.second c f :: pending)) := ihf (.first c :: pending)
      have hsecond : reader.feedAll (.operand (.second c f :: pending)) g.polishTokens =
          some (finish (.binary c f g) pending) := ihg (.second c f :: pending)
      rw [Formula.polishTokens_binary, Reader.feedAll_cons, hopen, Option.bind_some,
        Reader.feedAll_append, hfirst, Option.bind_some, hsecond]

/-- **The reader reads the polish notation.** -/
theorem reads : reader.Reads Formula.polishTokens where
  complete f := ⟨.done f, feedAll_polishTokens f [], rfl⟩
  sound := by
    intro ts s f hfeed hres
    have hts : s.consumed = ts := remembers.consumed_eq hfeed
    cases s with
    | done g =>
        obtain rfl := Option.some.inj hres
        exact hts.symm
    | operand => exact absurd hres (by simp [reader, result?])
  closed := by
    intro s f hres t
    cases s with
    | done g => rfl
    | operand => exact absurd hres (by simp [reader, result?])

end Polish

/-! ### Parsing whole texts -/

/-- Parsing is reading a whole text in polish notation. -/
theorem parsePolish_eq_whole (s : String) (limit : Option Nat) :
    parsePolish s limit = Polish.reader.whole limit s := by
  simp only [parsePolish, Reader.whole, Parser.polishFormula, Parser.ofString,
    Parser.expectEnd, Parser.remaining]
  rcases Polish.reader.run limit Polish.reader.start (.ofString s) with ⟨e | f, l⟩
  · rfl
  · cases hrest : l.rest <;> simp [hrest, Except.map]

/-- The parser returns `f` exactly for the text of `f`, and only well-formed formulas. -/
theorem parsePolish_eq_ok_iff {s : String} {f : Formula} :
    parsePolish s = .ok f ↔ f.WellFormed ∧ f.polish = s := by
  rw [parsePolish_eq_whole, Polish.reads.whole_eq_ok_iff Formula.spelling_polish]

/-- A text is a formula exactly if it is the text of a well-formed one. -/
theorem isPolishFormula_iff {s : String} :
    isPolishFormula s = true ↔ ∃ f : Formula, f.WellFormed ∧ f.polish = s := by
  rw [isPolishFormula, parsePolish_eq_whole,
    Polish.reads.isOk_whole_iff Formula.spelling_polish]

/-- **The polish notation round trip.** The text of a well-formed formula is parsed to
that formula; a text that is parsed is the text of the formula it is parsed to; and the
texts that are formulas are exactly the symbols of a formula in preorder, one after the
other. -/
theorem parsePolish_polish_roundtrip :
    (∀ f : Formula, f.WellFormed → parsePolish f.polish = .ok f) ∧
      (∀ (s : String) (f : Formula), parsePolish s = .ok f → f.WellFormed ∧ f.polish = s) ∧
      ∀ s : String, isPolishFormula s = true ↔
        ∃ f : Formula, f.WellFormed ∧ String.join (f.preorder.map Formula.root) = s := by
  refine ⟨fun f hf => parsePolish_eq_ok_iff.mpr ⟨hf, rfl⟩,
    fun s f h => parsePolish_eq_ok_iff.mp h, fun s => ?_⟩
  simp only [isPolishFormula_iff, Formula.polish_eq_join]

end Propositional

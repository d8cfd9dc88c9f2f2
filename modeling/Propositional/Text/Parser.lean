import Propositional.Text.Polish
import Propositional.Text.Standard

/-!
# Parsing

A parser is a position in a text together with a bound on the nesting depth. It can be asked for
formulas in either notation, one after the other, and for the end of the text. A call that fails
leaves the parser where its lexer stopped.

On top of it stand the one-shot functions: `parse` and `parsePolish` read a text that is one whole
formula, `parsePrefix` reads a formula off the start of a text and returns the rest.

## Main definitions

* `Parser`, with `Parser.formula`, `Parser.polishFormula` and `Parser.expectEnd`.
* `parse`, `parsePolish`, `parsePrefix`, `isFormula`, `isPolishFormula`.
-/

namespace Propositional

/-- A position in a text, and the depth that formulas read there may not exceed. -/
structure Parser where
  lexer : Lexer
  maxDepth : Option Nat

namespace Parser

/-- The parser at the start of a text. -/
def ofString (s : String) (maxDepth : Option Nat := none) : Parser :=
  ⟨Lexer.ofString s, maxDepth⟩

/-- The text that has not been read. -/
def remaining (p : Parser) : String :=
  p.lexer.remaining

/-- Reads one formula in standard notation. -/
def formula (p : Parser) : Except SyntaxError Formula × Parser :=
  let (result, lexer) := Standard.reader.run p.maxDepth Standard.reader.start p.lexer
  (result, { p with lexer })

/-- Reads one formula in polish notation. -/
def polishFormula (p : Parser) : Except SyntaxError Formula × Parser :=
  let (result, lexer) := Polish.reader.run p.maxDepth Polish.reader.start p.lexer
  (result, { p with lexer })

/-- Checks that nothing remains to be read. -/
def expectEnd (p : Parser) : Except SyntaxError Unit :=
  if p.lexer.rest.isEmpty then .ok ()
  else .error ⟨.trailingInput p.remaining, p.lexer.column⟩

end Parser

/-- Reads a text that is one formula in standard notation. -/
def parse (s : String) (maxDepth : Option Nat := none) : Except SyntaxError Formula :=
  match (Parser.ofString s maxDepth).formula with
  | (.error e, _) => .error e
  | (.ok f, p) => p.expectEnd.map fun _ => f

/-- Reads a text that is one formula in polish notation. -/
def parsePolish (s : String) (maxDepth : Option Nat := none) : Except SyntaxError Formula :=
  match (Parser.ofString s maxDepth).polishFormula with
  | (.error e, _) => .error e
  | (.ok f, p) => p.expectEnd.map fun _ => f

/-- Reads a formula in standard notation off the start of a text, and returns it with the rest. -/
def parsePrefix (s : String) (maxDepth : Option Nat := none) :
    Except SyntaxError (Formula × String) :=
  match (Parser.ofString s maxDepth).formula with
  | (.error e, _) => .error e
  | (.ok f, p) => .ok (f, p.remaining)

/-- Whether the text is a formula in standard notation. -/
def isFormula (s : String) : Bool :=
  (parse s).isOk

/-- Whether the text is a formula in polish notation. -/
def isPolishFormula (s : String) : Bool :=
  (parsePolish s).isOk

end Propositional

import Propositional.Formula.Traversal
import Propositional.Text.Reader

/-!
# The Polish Notation

In polish notation an operator stands before its operands and there are neither parentheses nor
blanks: the text of a formula is the symbols of its subformulas in preorder. The arities alone
tell where each operand ends, and a variable name ends where its digits do, so a formula has
exactly one text.

The reader keeps the operators that wait for an operand, innermost first, each with the operand it
already has. It has its result as soon as a formula is complete and no operator waits.

## Main definitions

* `Formula.polish`: the text of a formula; `Formula.polishForm` is the same by recursion.
* `Polish.State`, `Polish.feed`, `Polish.reader`: the automaton that reads the notation.

## Main results

* `Formula.polish_eq`: the printer writes the text that the recursion defines.
-/

namespace Propositional

namespace Formula

/-- The text of a formula in polish notation, by recursion. -/
def polishForm : Formula → String
  | var name => name
  | const value => (Operator.constant value).symbol
  | not f => "~" ++ f.polishForm
  | binary c f g => c.symbol ++ f.polishForm ++ g.polishForm

/-- The text of a formula in polish notation. -/
def polish (f : Formula) : String :=
  f.preorderStart.foldl (fun written g => written ++ g.root) ""

/-- The symbols in preorder, written one after the other, are the text that the recursion
defines. -/
theorem foldl_root (f : Formula) (written : String) :
    f.preorderForm.foldl (fun written g => written ++ g.root) written =
      written ++ f.polishForm := by
  induction f generalizing written with
  | var name => rfl
  | const value => rfl
  | not f ih =>
    rw [preorderForm, List.foldl_cons, ih, String.append_assoc]
    rfl
  | binary c f g ihf ihg =>
    rw [preorderForm, List.foldl_cons, List.foldl_append, ihf, ihg]
    simp only [root, polishForm, String.append_assoc]

/-- The printer writes the text that the recursion defines. -/
theorem polish_eq (f : Formula) : f.polish = f.polishForm := by
  rw [polish, foldl_preorderStart, foldl_root, String.empty_append]

end Formula

namespace Polish

/-- An operator that waits for an operand. -/
inductive Frame
  /-- A negation that waits for its operand. -/
  | negation
  /-- A connective that waits for both operands. -/
  | first (connective : Connective)
  /-- A connective with its first operand, that waits for the second. -/
  | second (connective : Connective) (operand : Formula)

/-- The states of the reader. The operators that wait stand in `pending`, innermost first. -/
inductive State
  /-- An operand is to be read. -/
  | operand (pending : List Frame)
  /-- A formula has been read and no operator waits. -/
  | done (f : Formula)

/-- The state after a formula has been read as an operand of the innermost operator that waits. It
ends every operator of which it is the last operand. -/
def finish (f : Formula) : List Frame → State
  | [] => .done f
  | .negation :: pending => finish (.not f) pending
  | .first c :: pending => .operand (.second c f :: pending)
  | .second c first :: pending => finish (.binary c first f) pending

/-- The state after a token, unless the token is refused. -/
def feed : State → Token → Option State
  | .operand pending, .var name => some (finish (.var name) pending)
  | .operand pending, .operator (.constant value) => some (finish (.const value) pending)
  | .operand pending, .operator .negation => some (.operand (.negation :: pending))
  | .operand pending, .operator (.binary c) => some (.operand (.first c :: pending))
  | _, _ => none

/-- The formula that has been read, once no operator waits. -/
def result? : State → Option Formula
  | .done f => some f
  | .operand _ => none

/-- The number of operators that wait where an operand is to be read. -/
def enclosing? : State → Option Nat
  | .operand pending => some pending.length
  | .done _ => none

/-- The reader of the polish notation. -/
def reader : Reader State where
  start := .operand []
  feed := feed
  result? := result?
  enclosing? := enclosing?

end Polish

end Propositional

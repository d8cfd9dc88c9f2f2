import Propositional.Formula.Construction
import Propositional.Substitution.Operators
import Propositional.Text.Parser
import Propositional.TruthTable.Basic

/-!
# Analysis of a Text

The analysis of a text parses it and tells whether the formula is a tautology, a contradiction, and
satisfiable. No tautology is a contradiction, so that a tautology is not checked a second time.

## Main definitions

* `Error`: the errors of the library, with their text `Error.message`.
* `Analysis`, `Analysis.ofFormula`, `analyze`.
-/

namespace Propositional

/-- What can go wrong, from reading a text to enumerating models. -/
inductive Error
  | ofText (e : SyntaxError)
  | ofParts (e : FormulaError)
  | ofSubstitution (e : SubstitutionError)
  | ofSemantics (e : SemanticsError)
  deriving DecidableEq

/-- The text of the error. -/
def Error.message : Error → String
  | ofText e => e.message
  | ofParts e => e.message
  | ofSubstitution e => e.message
  | ofSemantics e => e.message

/-- What is found out about a formula. -/
structure Analysis where
  formula : Formula
  isTautology : Bool
  isContradiction : Bool
  isSatisfiable : Bool
  deriving DecidableEq

/-- The analysis of a formula. -/
def Analysis.ofFormula (f : Formula) (config : PoolConfig) : Except SemanticsError Analysis := do
  let isTautology ← f.isTautology config
  let isContradiction ← if isTautology then pure false else f.isContradiction config
  return ⟨f, isTautology, isContradiction, !isContradiction⟩

/-- The analysis of a text in standard notation. -/
def analyze (s : String) (maxDepth : Option Nat) (config : PoolConfig) : Except Error Analysis := do
  let f ← (parse s maxDepth).mapError Error.ofText
  (Analysis.ofFormula f config).mapError Error.ofSemantics

end Propositional

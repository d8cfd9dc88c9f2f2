import Propositional.Formula.Basic

/-!
# Checked Construction of Formulas

Formulas are built from a symbol and a list of operands, both of which may be wrong: the symbol
may be no variable, constant or operator, and an operator may be given the wrong number of
operands. Each builder either returns a formula with the given root and operands or says what is
wrong.

## Main definitions

* `FormulaError`, with its text `FormulaError.message`.
* `Formula.ofOperator?`, `Formula.ofName?`, `Formula.ofRoot?`: the checked builders.

## Main results

* `Formula.operands_of_ofOperator?`: a formula that is built has the operands it was built from.
-/

namespace Propositional

/-- What can be wrong with the parts a formula is to be built from. -/
inductive FormulaError
  | invalidArity (symbol : String) (expected got : Nat)
  | invalidVariable (name : String)
  | unknownSymbol (symbol : String)
  deriving DecidableEq

/-- The text of the error. -/
def FormulaError.message : FormulaError → String
  | invalidArity symbol expected got => s!"symbol '{symbol}' expects {expected} operands, got {got}"
  | invalidVariable name => s!"'{name}' is not a valid variable name"
  | unknownSymbol symbol => s!"'{symbol}' is not a variable, constant or operator"

namespace Formula

/-- The formula with the given operator and operands. -/
def ofOperator? (op : Operator) (operands : List Formula) : Except FormulaError Formula :=
  match op, operands with
  | .constant value, [] => .ok (const value)
  | .negation, [f] => .ok (not f)
  | .binary c, [f, g] => .ok (binary c f g)
  | _, _ => .error (.invalidArity op.symbol op.arity operands.length)

/-- The variable with the given name. -/
def ofName? (name : String) : Except FormulaError Formula :=
  if isVariable name then .ok (var name) else .error (.invalidVariable name)

/-- The formula with the given symbol, a variable name or an operator, at its root. -/
def ofRoot? (symbol : String) (operands : List Formula) : Except FormulaError Formula :=
  if isVariable symbol then
    if operands.isEmpty then .ok (var symbol)
    else .error (.invalidArity symbol 0 operands.length)
  else
    match Operator.ofSymbol? symbol with
    | some op => ofOperator? op operands
    | none => .error (.unknownSymbol symbol)

/-- A formula that is built has the operands it was built from. -/
theorem operands_of_ofOperator? {op : Operator} {operands : List Formula} {f : Formula}
    (h : ofOperator? op operands = .ok f) :
    f.operator? = some op ∧ f.operands = operands := by
  unfold ofOperator? at h
  split at h <;> simp at h <;> subst h <;> simp [operator?, Formula.operands]

end Formula

end Propositional

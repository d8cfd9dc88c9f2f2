import Propositional.Program
import Propositional.WorkerPool.Collection
import Propositional.WorkerPool.Search

/-!
# Truth Tables

The truth table of a formula lists its values in all models over its own variables, in the order
of their numbers. A formula is a tautology if all of these are true, a contradiction if its
negation is a tautology, and satisfiable unless it is a contradiction. Formulas with too many
variables are refused.

## Main definitions

* `Formula.truthTable`: the truth table.
* `Formula.truthValuesOver`: the values in all models over any list of variables.
* `Formula.isTautology`, `Formula.isContradiction`, `Formula.isSatisfiable`.
-/

namespace Propositional.Formula

/-- The values of the formula in the models, each of which may fail to cover it. -/
def truthValues (f : Formula) (models : List Model) : List (Except SemanticsError Bool) :=
  models.map f.evaluate

/-- The values of the formula in all models over the variables, which must be variables that can
be enumerated and cover the formula. -/
def truthValuesOver (f : Formula) (vars : List String) : Except SemanticsError (List Bool) := do
  (← Enumeration.ofVariables vars).traverse f.evaluate

/-- The values of the formula in all models over its own variables. -/
def truthTable (f : Formula) (config : PoolConfig) : Except SemanticsError (List Bool) := do
  let count ← numModels f.vars.length
  let program ← Program.compile f f.vars
  return config.valuesBelow count program.eval

/-- Whether the formula is true in all models over its own variables. -/
def isTautology (f : Formula) (config : PoolConfig) : Except SemanticsError Bool := do
  let count ← numModels f.vars.length
  let program ← Program.compile f f.vars
  return config.holdsBelow count program.eval

/-- Whether the formula is false in all models over its own variables. -/
def isContradiction (f : Formula) (config : PoolConfig) : Except SemanticsError Bool :=
  (not f).isTautology config

/-- Whether the formula is true in some model over its own variables. -/
def isSatisfiable (f : Formula) (config : PoolConfig) : Except SemanticsError Bool :=
  (f.isContradiction config).map (! ·)

end Propositional.Formula

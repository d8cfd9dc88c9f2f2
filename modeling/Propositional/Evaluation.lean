import Propositional.Formula.Traversal
import Propositional.Model.Basic

/-!
# Evaluation

The truth value of a formula under an assignment of values to its variables is defined by recursion,
`Formula.value`. `Formula.evaluate` finds it in a model by going through the subformulas in
postorder with a stack of values. A model that gives some variable of the formula no value is
refused, even where the value would not depend on that variable.

## Main definitions

* `Formula.value`: the truth value, by recursion.
* `Evaluation.step?`, `Formula.evaluateCovered?`: the stack of values.
* `Formula.evaluate`: the truth value in a model.
-/

namespace Propositional

namespace Formula

/-- The truth value of a formula whose variables have the given values. -/
def value (v : String → Bool) : Formula → Bool
  | var name => v name
  | const b => b
  | not f => !f.value v
  | binary c f g => c.apply (f.value v) (g.value v)

end Formula

/-- The effect of a subformula on the stack of values, whose newest value comes first. -/
def Evaluation.step? (m : Model) (values : List Bool) (f : Formula) : Option (List Bool) :=
  match f with
  | .var name => (m.get? name).map (· :: values)
  | .const value => (Operator.constant value).reduce? values
  | .not _ => Operator.negation.reduce? values
  | .binary c _ _ => (Operator.binary c).reduce? values

namespace Formula

/-- The one value that is left after all subformulas; `none` if the model does not cover the
formula. -/
def evaluateCovered? (f : Formula) (m : Model) : Option Bool :=
  let values := f.postorderStart.foldl (fun values g => values.bind (Evaluation.step? m · g))
    (some [])
  match values with
  | some [value] => some value
  | _ => none

/-- The truth value of the formula in the model. -/
def evaluate (f : Formula) (m : Model) : Except SemanticsError Bool :=
  match m.firstMissing? f with
  | some name => .error (.missingVariable name)
  | none => .ok ((f.evaluateCovered? m).getD false)

end Formula

end Propositional

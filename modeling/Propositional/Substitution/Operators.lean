import Propositional.Substitution.Variables
import Propositional.Text.Standard

/-!
# Substitution of Operators

A substitution of operators maps operators to templates: formulas in which the variables `p` and
`q` stand for the operands. Applied to a formula it turns every operator that it has a template for
into that template, with the expanded operands for `p` and `q` at once. The operators of a template
are not replaced again, and a template variable that the arity does not bind stays as it is.

## Main definitions

* `OperatorSubstitution.operandNames`: the variables that stand for the operands.
* `OperatorSubstitution`, with `insert` and `apply`.
* `Formula.expandForm`: the expansion by recursion.
* `Formula.substituteOperators`: the expansion by a list of templates.
-/

namespace Propositional

/-- The text of the error. -/
def SubstitutionError.message : SubstitutionError → String
  | notAVariable name => s!"trying to substitute '{name}', which is not a variable"
  | invalidTemplate op template name =>
    s!"template '{template.text}' for operator '{op.symbol}' uses variable '{name}', " ++
      "expected only 'p' and 'q'"

/-- A map from operators to templates, with the results that are known of it. -/
structure OperatorSubstitution where
  map : OrderedMap Operator Formula
  cache : BottomUp.Cache

namespace OperatorSubstitution

/-- The variables that stand for the first and the second operand in a template. -/
def operandNames : List String := ["p", "q"]

/-- What stands for the template variables when an operator has the given operands. -/
def bindings (operands : List Formula) : OrderedMap String Formula :=
  .ofList (operandNames.zip operands)

/-- The template with the operands in the places of its variables. -/
def instantiate (template : Formula) (operands : List Formula) : Formula :=
  (VariableSubstitution.apply ⟨bindings operands, ∅⟩ template).1

/-- The substitution that replaces nothing. -/
def empty : OperatorSubstitution := ⟨.empty, ∅⟩

/-- Whether the substitution has no templates. -/
def isEmpty (s : OperatorSubstitution) : Bool :=
  s.map.isEmpty

/-- Instantiates the template of the operator at the root, if the map has one. -/
def rule (map : OrderedMap Operator Formula) : BottomUp.Rule := fun f operands =>
  match f.operator?.bind map.get? with
  | some template => instantiate template operands
  | none => f.rebuild operands

/-- The first variable of a template, in ascending order, that stands for no operand. -/
def strayVariable? (template : Formula) : Option String :=
  template.vars.find? fun name => !operandNames.contains name

/-- Gives the operator a template, in place of the one it had before. -/
def insert (s : OperatorSubstitution) (op : Operator) (template : Formula) :
    Except SubstitutionError OperatorSubstitution :=
  match strayVariable? template with
  | some name => .error (.invalidTemplate op template name)
  | none => .ok ⟨s.map.insert op template, ∅⟩

/-- Gives the operators their templates one after the other. -/
def insertAll (s : OperatorSubstitution) (entries : List (Operator × Formula)) :
    Except SubstitutionError OperatorSubstitution :=
  entries.foldlM (fun s (op, template) => s.insert op template) s

/-- The formula with its operators replaced, and the substitution with what it now knows. -/
def apply (s : OperatorSubstitution) (f : Formula) : Formula × OperatorSubstitution :=
  let (g, cache) := BottomUp.apply (rule s.map) s.cache f
  (g, { s with cache })

end OperatorSubstitution

namespace Formula

/-- The formula with every operator that `template` has a formula for turned into it, by
recursion: `p` and `q` stand for the expanded operands. -/
def expandForm (template : Operator → Option Formula) : Formula → Formula
  | var name => var name
  | const value =>
    match template (.constant value) with
    | some t => t
    | none => const value
  | not f =>
    match template .negation with
    | some t => t.substituteForm fun x => if x = "p" then some (f.expandForm template) else none
    | none => not (f.expandForm template)
  | binary c f g =>
    match template (.binary c) with
    | some t =>
      t.substituteForm fun x =>
        if x = "p" then some (f.expandForm template)
        else if x = "q" then some (g.expandForm template)
        else none
    | none => binary c (f.expandForm template) (g.expandForm template)

/-- The formula with the operators of the entries replaced by their templates. -/
def substituteOperators (f : Formula) (entries : List (Operator × Formula)) :
    Except SubstitutionError Formula :=
  (OperatorSubstitution.empty.insertAll entries).map fun s => (s.apply f).1

end Formula

end Propositional

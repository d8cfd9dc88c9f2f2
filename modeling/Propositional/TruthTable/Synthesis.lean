import Propositional.Model.Enumeration

/-!
# Synthesis

Every truth table over a non-empty list of variables is the table of a formula, in disjunctive
normal form as well as in conjunctive normal form. The former is a chain of clauses that are each
true in exactly one of the models with the value true, the latter a chain of clauses that are each
false in exactly one of the models with the value false. Where no model has that value, the first
variable is joined to its own negation.

## Main definitions

* `NormalForm`: the two forms, with the connectives and the value that define them.
* `NormalForm.clause`: the clause for one model.
* `NormalForm.synthesize`: the formula with a given truth table.
-/

namespace Propositional

/-- The two normal forms. -/
inductive NormalForm
  | disjunctive
  | conjunctive
  deriving DecidableEq

namespace NormalForm

/-- The connective between the literals of a clause. -/
def inner : NormalForm → Connective
  | disjunctive => .and
  | conjunctive => .or

/-- The connective between the clauses. -/
def outer : NormalForm → Connective
  | disjunctive => .or
  | conjunctive => .and

/-- The value of the models that a clause is written for. -/
def selected : NormalForm → Bool
  | disjunctive => true
  | conjunctive => false

/-- The variable or its negation. -/
def literal (name : String) (positive : Bool) : Formula :=
  if positive then .var name else .not (.var name)

/-- The formulas joined from the left. -/
def chain (c : Connective) (f : Formula) (rest : List Formula) : Formula :=
  rest.foldl (.binary c) f

/-- The literal of an entry of a model: positive for the value `selected`. -/
def entryLiteral (form : NormalForm) (entry : String × Bool) : Formula :=
  literal entry.1 (entry.2 == form.selected)

/-- The clause that singles the model out among all models over its variables. -/
def clause (form : NormalForm) (m : Model) : Except SemanticsError Formula :=
  match m.entries with
  | [] => .error .emptyVariableList
  | entry :: rest =>
    .ok (chain form.inner (form.entryLiteral entry) (rest.map form.entryLiteral))

/-- The models over the variables, each with its value in the table, once the table is known to
have the right length. -/
def tableModels (vars : List String) (values : List Bool) :
    Except SemanticsError (List (Model × Bool)) := do
  if vars.isEmpty then throw .emptyVariableList
  let models ← Enumeration.ofVariables vars
  if models.remaining ≠ values.length then
    throw (.wrongTableLength models.remaining values.length)
  return models.rest.zip values

/-- The clauses for the models with the value `selected`, in order. -/
def clauses (form : NormalForm) (table : List (Model × Bool)) :
    Except SemanticsError (List Formula) :=
  (table.filter fun (_, value) => value == form.selected).mapM fun (m, _) => form.clause m

/-- The formula in the normal form whose values in the models over the variables are those given. -/
def synthesize (form : NormalForm) (vars : List String) (values : List Bool) :
    Except SemanticsError Formula := do
  let table ← tableModels vars values
  match ← form.clauses table with
  | clause :: rest => return chain form.outer clause rest
  | [] =>
    match vars with
    | [] => throw .emptyVariableList
    | name :: _ => return .binary form.inner (.var name) (.not (.var name))

end NormalForm

end Propositional

import Propositional.Formula.Basic
import Propositional.OrderedMap
import Propositional.OrderedSet

/-!
# Models

A model gives truth values to finitely many variables. Its entries stand in the order in which the
variables were first given a value; two models are equal iff they give the same values to the same
variables, whatever that order.

## Main definitions

* `SemanticsError`, with its text `SemanticsError.message`.
* `Model`, with `get?`, `insert`, `ofPairs`, `ofMap`, `covers` and `firstMissing?`.
* `Model.agrees`: equality of models.
* `Model.WellFormed`: the variables are distinct and have valid names.
-/

namespace Propositional

/-- What can be wrong with variables and truth tables. -/
inductive SemanticsError
  | invalidVariable (name : String)
  | missingVariable (name : String)
  | duplicateVariable (name : String)
  | tooManyVariables (count : Nat)
  | emptyVariableList
  | wrongTableLength (expected got : Nat)
  deriving DecidableEq

/-- The text of the error. -/
def SemanticsError.message : SemanticsError → String
  | invalidVariable name => s!"'{name}' is not a valid variable name"
  | missingVariable name => s!"model does not assign a value to variable '{name}'"
  | duplicateVariable name => s!"variable '{name}' appears more than once"
  | tooManyVariables count => s!"can't enumerate all models over {count} variables"
  | emptyVariableList => "expected a non-empty list of variables"
  | wrongTableLength expected got =>
    s!"expected a truth table with {expected} entries, got {got}"

/-- An assignment of truth values to finitely many variables. -/
structure Model where
  values : OrderedMap String Bool

namespace Model

/-- The model that gives no variable a value. -/
def empty : Model := ⟨.empty⟩

/-- The entries, in the order in which the variables were first given a value. -/
def entries (m : Model) : List (String × Bool) := m.values.entries

/-- The variables that have a value, in that order. -/
def vars (m : Model) : List String := m.values.keys

/-- The number of variables that have a value. -/
def size (m : Model) : Nat := m.values.size

/-- Whether no variable has a value. -/
def isEmpty (m : Model) : Bool := m.values.isEmpty

/-- The value of a variable, if it has one. -/
def get? (m : Model) (name : String) : Option Bool := m.values.get? name

/-- Whether a variable has a value. -/
def contains (m : Model) (name : String) : Bool := m.values.contains name

/-- Gives a variable a value, and returns the value that it had before. -/
def insert (m : Model) (name : String) (value : Bool) :
    Except SemanticsError (Option Bool × Model) :=
  if isVariable name then .ok (m.get? name, ⟨m.values.insert name value⟩)
  else .error (.invalidVariable name)

/-- What is wrong with the first pair whose name is no variable name, or is among `seen` or stands
earlier in the list. -/
def firstFault? (seen : OrderedSet String) : List (String × Bool) → Option SemanticsError
  | [] => none
  | (name, _) :: pairs =>
    if name ∈ seen then some (.duplicateVariable name)
    else if isVariable name then firstFault? (seen.insert name) pairs
    else some (.invalidVariable name)

/-- The model with the given pairs, which must name each variable once. -/
def ofPairs (pairs : List (String × Bool)) : Except SemanticsError Model :=
  match firstFault? ∅ pairs with
  | some fault => .error fault
  | none => .ok ⟨⟨pairs⟩⟩

/-- Whether all keys of a map are variable names. -/
def isModel (map : OrderedMap String Bool) : Bool :=
  map.keys.all isVariable

/-- The model with the entries of a map, all of whose keys must be variable names. -/
def ofMap (map : OrderedMap String Bool) : Except SemanticsError Model :=
  match map.keys.find? fun name => !isVariable name with
  | some name => .error (.invalidVariable name)
  | none => .ok ⟨map⟩

/-- The first variable of the formula, in ascending order, that has no value. -/
def firstMissing? (m : Model) (f : Formula) : Option String :=
  f.vars.find? fun name => !m.contains name

/-- Whether every variable of the formula has a value. -/
def covers (m : Model) (f : Formula) : Bool :=
  f.vars.all m.contains

/-- Whether two models give the same values to the same variables. -/
def agrees (m m' : Model) : Bool :=
  m.size == m'.size && m.entries.all fun (name, value) => m'.get? name == some value

instance : BEq Model := ⟨agrees⟩

/-- The letter of a truth value. -/
def letter (value : Bool) : String :=
  if value then "T" else "F"

/-- The text of a model: its entries in braces, in order. -/
def text (m : Model) : String :=
  "\x7b" ++ ", ".intercalate (m.entries.map fun (name, value) => name ++ ": " ++ letter value) ++
    "\x7d"

instance : ToString Model := ⟨text⟩

/-- The variables are distinct and have valid names. -/
def WellFormed (m : Model) : Prop :=
  m.vars.Nodup ∧ ∀ name ∈ m.vars, isVariable name = true

end Model

end Propositional

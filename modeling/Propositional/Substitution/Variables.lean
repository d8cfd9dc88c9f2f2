import Propositional.OrderedMap
import Propositional.Substitution.BottomUp

/-!
# Substitution of Variables

A substitution maps variable names to formulas. Applied to a formula it replaces every occurrence
of each of the names by its formula, all at once: nothing is replaced inside a replacement.

A substitution can be extended and applied in any order. It remembers what it has computed in a
cache, and an insertion drops those entries from the cache whose formula mentions the variable.

## Main definitions

* `SubstitutionError`: what can be wrong with an entry of a substitution.
* `Formula.substituteForm`: simultaneous replacement, by recursion.
* `VariableSubstitution`, with `insert` and `apply`.
* `Formula.substituteVariables`: the replacement by a list of entries.
-/

namespace Propositional

/-- What can be wrong with an entry of a substitution. -/
inductive SubstitutionError
  | notAVariable (name : String)
  | invalidTemplate (op : Operator) (template : Formula) (name : String)
  deriving DecidableEq

namespace Formula

/-- The formula with every variable that `replacement` has a formula for replaced by it, all at
once. -/
def substituteForm (replacement : String → Option Formula) : Formula → Formula
  | var name => (replacement name).getD (var name)
  | const value => const value
  | not f => not (f.substituteForm replacement)
  | binary c f g => binary c (f.substituteForm replacement) (g.substituteForm replacement)

end Formula

/-- A map from variable names to formulas, with the results that are known of it. -/
structure VariableSubstitution where
  map : OrderedMap String Formula
  cache : BottomUp.Cache

namespace VariableSubstitution

/-- The substitution that replaces nothing. -/
def empty : VariableSubstitution := ⟨.empty, ∅⟩

/-- Whether the substitution has no entries. -/
def isEmpty (s : VariableSubstitution) : Bool :=
  s.map.isEmpty

/-- Replaces a variable that the map has a formula for, and keeps everything else. -/
def rule (map : OrderedMap String Formula) : BottomUp.Rule
  | .var name, _ => (map.get? name).getD (.var name)
  | f, operands => f.rebuild operands

/-- Maps a variable to a formula, in place of what it was mapped to before. -/
def insert (s : VariableSubstitution) (name : String) (f : Formula) :
    Except SubstitutionError VariableSubstitution :=
  if isVariable name then
    .ok ⟨s.map.insert name f, s.cache.filter fun g _ => !g.names.contains name⟩
  else .error (.notAVariable name)

/-- Maps the names to the formulas one after the other. -/
def insertAll (s : VariableSubstitution) (entries : List (String × Formula)) :
    Except SubstitutionError VariableSubstitution :=
  entries.foldlM (fun s (name, f) => s.insert name f) s

/-- The formula with its variables replaced, and the substitution with what it now knows. -/
def apply (s : VariableSubstitution) (f : Formula) : Formula × VariableSubstitution :=
  let (g, cache) := BottomUp.apply (rule s.map) s.cache f
  (g, { s with cache })

end VariableSubstitution

/-- The formula with the variables of the entries replaced. -/
def Formula.substituteVariables (f : Formula) (entries : List (String × Formula)) :
    Except SubstitutionError Formula :=
  (VariableSubstitution.empty.insertAll entries).map fun s => (s.apply f).1

end Propositional

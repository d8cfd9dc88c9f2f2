import Propositional.Proofs.Construction.Nodes
import Propositional.Proofs.Substitution.Composition
import Propositional.Proofs.Substitution.Operators

/-!
# Templates and Their Operands

An operator with a template becomes the template, with the expanded operands in the places of the
variables that stand for them; an operator without one is kept over its expanded operands. Here
this is said of all operators at once, in terms of the list of operands
(`Formula.expandForm_of_some`, `Formula.expandForm_of_none`), so that what holds of every expansion
can be proved without a look at the single operators.

The operands are bound to the template variables `p` and `q` in order, and an operator with fewer
operands binds fewer of the two. A template that has no variables but the bound ones is closed off
from what surrounds it: to instantiate it and then to replace variables is to replace them in the
operands (`Formula.substituteForm_bindings`). Nothing in the operands is captured, even if they
mention `p` and `q` themselves.

## Main definitions

* `Templates`, `Templates.Closed`: the templates of some operators, and that all of them are
  acceptable.
* `Operator.operandNames`: the template variables that an operator binds.

## Main results

* `OperatorSubstitution.get?_bindings_eq_none_iff`, `OperatorSubstitution.mem_of_get?_bindings`:
  which template variables are bound, and to what.
* `Formula.expandForm_of_some`, `Formula.expandForm_of_none`: the expansion of an operation.
* `Formula.substituteForm_bindings`: replacement goes through an instantiated template.
-/

namespace Propositional

/-- The formulas that some of the operators are replaced by. -/
abbrev Templates := Operator → Option Formula

/-- All variables of the templates stand for operands. -/
def Templates.Closed (template : Templates) : Prop :=
  ∀ op t, template op = some t → ∀ x, t.Mentions x → x = "p" ∨ x = "q"

/-- The template variables that stand for operands of the operator. -/
def Operator.operandNames (op : Operator) : List String :=
  OperatorSubstitution.operandNames.take op.arity

namespace OperatorSubstitution

/-- The templates that are in force after a history have only variables that stand for
operands. -/
theorem closed_assigned (history : List (SubstitutionCall Operator)) :
    Templates.Closed (law.assigned history) := by
  intro op t ht
  exact strayVariable?_eq_none_iff.mp
    (Option.map_eq_none_iff.mp (SubstitutionLaw.fault?_of_assigned ht))

/-- So have those in the current map. -/
theorem closed_after (history : List (SubstitutionCall Operator)) :
    Templates.Closed (kind.after history).map.get? :=
  (follows.invariant history).get?_eq ▸ closed_assigned history

/-- The operands are bound to the template variables in order, as long as there are any. -/
theorem entries_bindings (operands : List Formula) :
    (bindings operands).entries = operandNames.zip operands := by
  rcases operands with _ | ⟨a, _ | ⟨b, operands⟩⟩
  · rfl
  · rfl
  · rfl

/-- What is done to all operands is done to the one that is bound to a variable. -/
theorem get?_bindings_map (act : Formula → Formula) (operands : List Formula) (x : String) :
    (bindings (operands.map act)).get? x = ((bindings operands).get? x).map act := by
  rw [OrderedMap.get?, entries_bindings, List.zip_map_right, OrderedMap.get?, entries_bindings]
  exact OrderedMap.lookup_map_snd x act _

/-- As many template variables are bound as there are operands. -/
theorem get?_bindings_eq_none_iff {operands : List Formula} {x : String} :
    (bindings operands).get? x = none ↔ x ∉ operandNames.take operands.length := by
  have hkeys : (operandNames.zip operands).map Prod.fst = operandNames.take operands.length := by
    rcases operands with _ | ⟨a, _ | ⟨b, operands⟩⟩
    · rfl
    · rfl
    · exact (List.take_of_length_le (by simp [operandNames])).symm
  rw [OrderedMap.get?, entries_bindings, OrderedMap.lookup_eq_none_iff, hkeys]

/-- Whatever is bound to a template variable is one of the operands. -/
theorem mem_of_get?_bindings {operands : List Formula} {x : String} {g : Formula}
    (h : (bindings operands).get? x = some g) : g ∈ operands := by
  have hmem := OrderedMap.mem_of_lookup h
  rw [entries_bindings] at hmem
  exact (List.of_mem_zip hmem).2

end OperatorSubstitution

namespace Formula

variable {r : String → Option Formula} {template : Templates} {f t : Formula} {op : Operator}

/-- Variables of an operation are replaced in its operands. -/
theorem substituteForm_operation (h : f.operator? = some op) :
    (f.substituteForm r).operator? = some op ∧
      (f.substituteForm r).operands = f.operands.map (substituteForm r) := by
  cases f with
  | var name => cases h
  | const value | not f | binary c f g => exact ⟨h, rfl⟩

/-- Without a template an operation is kept, over its expanded operands. -/
theorem expandForm_of_none (h : f.operator? = some op) (hnone : template op = none) :
    (f.expandForm template).operator? = some op ∧
      (f.expandForm template).operands = f.operands.map (expandForm template) := by
  cases f with
  | var name => cases h
  | const value | not f | binary c f g =>
      obtain rfl := Option.some.inj h
      rw [expandForm, hnone]
      exact ⟨rfl, rfl⟩

/-- With a template an operation becomes the template, over its expanded operands. -/
theorem expandForm_of_some (h : f.operator? = some op) (ht : template op = some t) :
    f.expandForm template = t.substituteForm
      (OperatorSubstitution.bindings (f.operands.map (expandForm template))).get? := by
  cases f with
  | var name => cases h
  | const value =>
      obtain rfl := Option.some.inj h
      have hnone : (OperatorSubstitution.bindings []).get? = fun _ => none :=
        funext OperatorSubstitution.get?_bindings_nil
      rw [expandForm, ht, operands, List.map_nil, hnone, substituteForm_none]
  | not f =>
      obtain rfl := Option.some.inj h
      rw [expandForm, ht, operands]
      exact congrArg t.substituteForm
        (funext fun x => (OperatorSubstitution.get?_bindings_singleton _ x).symm)
  | binary c f g =>
      obtain rfl := Option.some.inj h
      rw [expandForm, ht, operands]
      exact congrArg t.substituteForm
        (funext fun x => (OperatorSubstitution.get?_bindings_pair _ _ x).symm)

/-- Operands are bound to the variables that the operator binds, and to no others. -/
theorem get?_bindings_operands_eq_none_iff (h : f.operator? = some op) {act : Formula → Formula}
    {x : String} :
    (OperatorSubstitution.bindings (f.operands.map act)).get? x = none ↔ x ∉ op.operandNames := by
  rw [OperatorSubstitution.get?_bindings_eq_none_iff, List.length_map, length_operands h,
    Operator.operandNames]

/-- **Replacement goes through an instantiated template**: if all variables of the template are
bound, the variables are replaced in the operands only. -/
theorem substituteForm_bindings {operands : List Formula}
    (h : ∀ x, t.Mentions x → (OperatorSubstitution.bindings operands).get? x ≠ none) :
    (t.substituteForm (OperatorSubstitution.bindings operands).get?).substituteForm r =
      t.substituteForm (OperatorSubstitution.bindings (operands.map (substituteForm r))).get? := by
  rw [substituteForm_substituteForm]
  refine substituteForm_congr fun x hx => ?_
  rw [OperatorSubstitution.get?_bindings_map, replaceThen]
  cases hbound : (OperatorSubstitution.bindings operands).get? x with
  | none => exact absurd hbound (h x hx)
  | some g => rfl

end Formula

end Propositional

import Propositional.Proofs.Construction.Nodes
import Propositional.Proofs.Substitution.Operators
import Propositional.Proofs.Substitution.Variables

/-!
# Rewriting with Checked Builders

A rule of a substitution gets a formula with its rewritten operands and puts these in the
place of the old ones. It relies on the machine that calls it: with any other number of
operands there would be no such formula. A `CheckedRule` does not rely on that. It has
every node built by a checked builder and gives up if the builder fails, and the machine
gives up with it (`BottomUp.checkedRun`), as it does when it lacks an operand or is not
left with exactly one result.

It never comes to that. The machine hands over as many operands as the formula has
(`BottomUp.checkedRun_eq_run`), where the rules cannot fail, and from a faithful cache it
always ends with one result. The templates of operators are instantiated by a machine of
their own, for which the same is true.

## Main results

* `BottomUp.checkedRun_eq_run`: a checked rule is as good as a rule that it agrees with
  wherever it is given the right number of operands.
* `VariableSubstitution.checkedApply_eq`, `OperatorSubstitution.checkedApply_eq`: a
  substitution with a faithful cache never gives up.
-/

namespace Propositional

namespace BottomUp

/-- What a formula is replaced by, if its operands have been replaced by those given;
`none` if no formula can be built of them. -/
abbrev CheckedRule := Formula → List Formula → Option Formula

/-- Works the tasks off, from the first to the last, as `run` does, and gives up where the
rule does. -/
def checkedRun (rule : CheckedRule) (tasks : List Task) (results : List Formula)
    (cache : Cache) : Option (Formula × Cache) :=
  match tasks with
  | [] =>
    match results with
    | [f] => some (f, cache)
    | _ => none
  | .visit f :: tasks =>
    match cache[f]? with
    | some g => checkedRun rule tasks (g :: results) cache
    | none =>
      if f.operands.isEmpty then
        match rule f [] with
        | none => none
        | some g => checkedRun rule tasks (g :: results) (cache.insert f g)
      else checkedRun rule (f.operands.map Task.visit ++ Task.combine f :: tasks) results cache
  | .combine f :: tasks =>
    match popOperands? f.operands.length [] results with
    | none => none
    | some (operands, rest) =>
      match rule f operands with
      | none => none
      | some g => checkedRun rule tasks (g :: rest) (cache.insert f g)
termination_by totalWeight Task.weight tasks
decreasing_by
  · have := f.nodeCount_pos
    simp [Task.weight]
    omega
  · have := f.nodeCount_pos
    simp [Task.weight]
    omega
  · rename_i h
    cases f <;> simp_all [Task.weight, Formula.operands, Formula.nodeCount] <;> omega
  · simp [Task.weight]

/-- As many entries are taken off the stack as were asked for. -/
theorem length_popOperands? {α : Type} {n : Nat} {taken stack xs rest : List α}
    (h : popOperands? n taken stack = some (xs, rest)) : xs.length = n + taken.length := by
  induction n generalizing taken stack with
  | zero =>
      obtain ⟨rfl, -⟩ := Prod.mk.inj (Option.some.inj h)
      rw [Nat.zero_add]
  | succ n ih =>
      cases stack with
      | nil => cases h
      | cons x stack =>
          rw [ih h, List.length_cons]
          omega

/-- The checked rule agrees with the rule wherever the machine calls it: on a formula and
as many operands as it has. -/
def Agrees (checked : CheckedRule) (rule : Rule) : Prop :=
  ∀ f operands, operands.length = f.operands.length → checked f operands = some (rule f operands)

/-- **The machine hands over the right number of operands**, so that a checked rule fails
nowhere if it does not fail there. -/
theorem checkedRun_eq_run {checked : CheckedRule} {rule : Rule} (h : Agrees checked rule)
    (tasks : List Task) (results : List Formula) (cache : Cache) :
    checkedRun checked tasks results cache = run rule tasks results cache := by
  fun_induction run rule tasks results cache with
  | case1 cache f => rw [checkedRun]
  | case2 results cache hmany => rw [checkedRun]; exact hmany
  | case3 results cache f tasks g hknown ih => simp only [checkedRun, hknown, ih]
  | case4 results cache f tasks hunknown hleaf ih =>
      have hlength : ([] : List Formula).length = f.operands.length := by
        rw [List.isEmpty_iff.mp hleaf]
      simp only [checkedRun, hunknown, hleaf, if_true, h f [] hlength, ih]
  | case5 results cache f tasks hunknown hbranch ih =>
      simp only [checkedRun, hunknown, hbranch, if_false, ih, Bool.false_eq_true]
  | case6 results cache f tasks hpop => simp only [checkedRun, hpop]
  | case7 results cache f tasks operands rest hpop ih =>
      have hlength : operands.length = f.operands.length := by
        rw [length_popOperands? hpop, List.length_nil, Nat.add_zero]
      simp only [checkedRun, hpop, h f operands hlength, ih]

/-- **From a faithful cache the machine with a checked rule never gives up**, and its
answer is that of the rule. -/
theorem checkedRun_eq_apply {checked : CheckedRule} {rule : Rule} (h : Agrees checked rule)
    {cache : Cache} (hcache : Faithful rule cache) (f : Formula) :
    checkedRun checked [.visit f] [] cache = some (apply rule cache f) := by
  obtain ⟨cache', -, hrun⟩ := run_eq_some hcache f
  rw [checkedRun_eq_run h, apply, hrun, Option.getD_some]

end BottomUp

/-- The formula with the given operands in place of its own, built by the checked builder
from the operator at its root; `none` if the builder fails. -/
def Formula.checkedRebuild (op : Operator) (operands : List Formula) : Option Formula :=
  (Formula.ofOperator? op operands).toOption

/-- A node that gets as many new operands as it had is rebuilt. -/
theorem Formula.checkedRebuild_eq {f : Formula} {op : Operator} (h : f.operator? = some op)
    {operands : List Formula} (hlength : operands.length = f.operands.length) :
    checkedRebuild op operands = some (f.rebuild operands) := by
  rw [checkedRebuild, ofOperator?_eq_rebuild h hlength]
  rfl

/-! ### Substitution of variables -/

namespace VariableSubstitution

/-- Replaces a variable that the map has a formula for, and rebuilds everything else. -/
def checkedRule (map : OrderedMap String Formula) : BottomUp.CheckedRule := fun f operands =>
  match f.asVar?, f.operator? with
  | some name, _ => some ((map.get? name).getD f)
  | none, some op => Formula.checkedRebuild op operands
  | none, none => none

/-- The checked rule fails nowhere where the machine calls it. -/
theorem checkedRule_agrees (map : OrderedMap String Formula) :
    BottomUp.Agrees (checkedRule map) (rule map) := by
  intro f operands hlength
  cases f with
  | var name => rfl
  | const value | not f | binary c f g => exact Formula.checkedRebuild_eq rfl hlength

/-- The formula with its variables replaced, and the substitution with what it now knows,
unless the machine gives up. -/
def checkedApply (s : VariableSubstitution) (f : Formula) :
    Option (Formula × VariableSubstitution) :=
  (BottomUp.checkedRun (checkedRule s.map) [.visit f] [] s.cache).map fun (g, cache) =>
    (g, { s with cache })

/-- **A substitution of variables never gives up** if its cache is faithful. -/
theorem checkedApply_eq {s : VariableSubstitution} (h : BottomUp.Faithful (rule s.map) s.cache)
    (f : Formula) : s.checkedApply f = some (s.apply f) := by
  rw [checkedApply, BottomUp.checkedRun_eq_apply (checkedRule_agrees s.map) h]
  rfl

end VariableSubstitution

/-! ### Substitution of operators -/

namespace OperatorSubstitution

/-- The template with the operands in the places of its variables, unless the machine
gives up. -/
def checkedInstantiate (template : Formula) (operands : List Formula) : Option Formula :=
  (VariableSubstitution.checkedApply ⟨bindings operands, ∅⟩ template).map Prod.fst

/-- A template is always instantiated. -/
theorem checkedInstantiate_eq (template : Formula) (operands : List Formula) :
    checkedInstantiate template operands = some (instantiate template operands) := by
  rw [checkedInstantiate,
    VariableSubstitution.checkedApply_eq (BottomUp.faithful_empty _)]
  rfl

/-- Keeps a variable, instantiates the template of the operator at the root, if the map
has one, and rebuilds everything else. -/
def checkedRule (map : OrderedMap Operator Formula) : BottomUp.CheckedRule := fun f operands =>
  match f.operator? with
  | none => some f
  | some op =>
    match map.get? op with
    | some template => checkedInstantiate template operands
    | none => Formula.checkedRebuild op operands

/-- The checked rule fails nowhere where the machine calls it. -/
theorem checkedRule_agrees (map : OrderedMap Operator Formula) :
    BottomUp.Agrees (checkedRule map) (rule map) := by
  intro f operands hlength
  rw [checkedRule, rule]
  cases hop : f.operator? with
  | none =>
    cases f with
    | var name => rfl
    | const | not | binary => cases hop
  | some op =>
    simp only [Option.bind_some]
    cases map.get? op with
    | some template => exact checkedInstantiate_eq template operands
    | none => exact Formula.checkedRebuild_eq hop hlength

/-- The formula with its operators replaced, and the substitution with what it now knows,
unless a machine gives up. -/
def checkedApply (s : OperatorSubstitution) (f : Formula) :
    Option (Formula × OperatorSubstitution) :=
  (BottomUp.checkedRun (checkedRule s.map) [.visit f] [] s.cache).map fun (g, cache) =>
    (g, { s with cache })

/-- **A substitution of operators never gives up** if its cache is faithful. -/
theorem checkedApply_eq {s : OperatorSubstitution} (h : BottomUp.Faithful (rule s.map) s.cache)
    (f : Formula) : s.checkedApply f = some (s.apply f) := by
  rw [checkedApply, BottomUp.checkedRun_eq_apply (checkedRule_agrees s.map) h]
  rfl

end OperatorSubstitution

end Propositional

import Std.Data.HashMap
import Propositional.Formula.Equality
import Propositional.Weight

/-!
# Replacement from the Bottom Up

A rule says what a formula is replaced by once its operands have been replaced. Applied from the
leaves to the root it replaces a whole formula: `BottomUp.fold` says so by recursion.

`BottomUp.run` computes the same without recursion on the formula, and treats each distinct
subformula once. It keeps a stack of tasks, a stack of results, and a cache from subformulas to
what they were replaced by, which outlives the run. It returns `none` only if it were ever to find
fewer results than a formula has operands, or not exactly one result at the end.

## Main definitions

* `BottomUp.Rule`, `BottomUp.fold`: a rule, and its effect by recursion.
* `BottomUp.Task`, `BottomUp.run`: the machine with a cache.
* `BottomUp.apply`: what the formula is replaced by, and the cache after it.
-/

namespace Propositional.BottomUp

/-- What a formula is replaced by, if its operands have been replaced by those given. -/
abbrev Rule := Formula → List Formula → Formula

/-- What subformulas have been replaced by. -/
abbrev Cache := Std.HashMap Formula Formula

/-- The effect of a rule on a whole formula, by recursion. -/
def fold (rule : Rule) : Formula → Formula
  | .var name => rule (.var name) []
  | .const value => rule (.const value) []
  | .not f => rule (.not f) [fold rule f]
  | .binary c f g => rule (.binary c f g) [fold rule f, fold rule g]

/-- A task of the machine. -/
inductive Task
  /-- Replace the formula and put the result on the stack of results. -/
  | visit (f : Formula)
  /-- Apply the rule to the formula; the results for its operands are on top of the stack. -/
  | combine (f : Formula)

/-- The number of steps that the task may still cause. -/
def Task.weight : Task → Nat
  | visit f => 2 * f.nodeCount
  | combine _ => 1

/-- Takes `n` entries off a stack whose newest entry comes first, and returns them from the oldest
to the newest, before those already `taken`, with the rest of the stack. -/
def popOperands? {α : Type} : Nat → List α → List α → Option (List α × List α)
  | 0, taken, stack => some (taken, stack)
  | n + 1, taken, x :: stack => popOperands? n (x :: taken) stack
  | _ + 1, _, [] => none

/-- Works the tasks off, from the first to the last. -/
def run (rule : Rule) (tasks : List Task) (results : List Formula) (cache : Cache) :
    Option (Formula × Cache) :=
  match tasks with
  | [] =>
    match results with
    | [f] => some (f, cache)
    | _ => none
  | .visit f :: tasks =>
    match cache[f]? with
    | some g => run rule tasks (g :: results) cache
    | none =>
      if f.operands.isEmpty then
        run rule tasks (rule f [] :: results) (cache.insert f (rule f []))
      else run rule (f.operands.map Task.visit ++ Task.combine f :: tasks) results cache
  | .combine f :: tasks =>
    match popOperands? f.operands.length [] results with
    | none => none
    | some (operands, rest) =>
      run rule tasks (rule f operands :: rest) (cache.insert f (rule f operands))
termination_by totalWeight Task.weight tasks
decreasing_by
  · have := f.nodeCount_pos
    simp [Task.weight]
    omega
  · have := f.nodeCount_pos
    simp [Task.weight]
    omega
  · rename_i h
    cases f <;> simp_all [Task.weight, Formula.operands, Formula.nodeCount] <;> omega
  · simp [Task.weight]

/-- What the rule replaces the formula by, and the cache after the run. -/
def apply (rule : Rule) (cache : Cache) (f : Formula) : Formula × Cache :=
  (run rule [.visit f] [] cache).getD (f, cache)

end Propositional.BottomUp

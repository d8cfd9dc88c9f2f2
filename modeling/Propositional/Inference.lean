import Propositional.Formula.Equality
import Propositional.Text.Standard
import Propositional.TruthTable.Basic

/-!
# Inference Rules

A rule has assumptions and a conclusion. It holds in a model if some assumption is false there or
the conclusion is true, and it is sound if it holds in all models over its variables. A model that
does not give values to all variables of the rule is refused, whatever the value would be.

## Main definitions

* `InferenceRule`, with `vars`, `text`, `evaluate` and `isSound`.
* `InferenceRule.implicationChain`: the rule as one formula.

## Main results

* `InferenceRule.mem_vars_iff`, `InferenceRule.sorted_vars`: the list `vars` holds exactly the names
  that occur in the rule, in strictly ascending order.
-/

namespace Propositional

/-- A rule that infers a conclusion from assumptions. -/
structure InferenceRule where
  assumptions : List Formula
  conclusion : Formula
  deriving DecidableEq

namespace InferenceRule

/-- The assumptions in order, then the conclusion. -/
def formulas (r : InferenceRule) : List Formula :=
  r.assumptions ++ [r.conclusion]

/-- The variables of all formulas of the rule, in strictly ascending order. -/
def vars (r : InferenceRule) : List String :=
  (r.formulas.foldl (fun names f => names.merge f.names) (∅ : OrderedSet String)).toList

theorem mem_foldl_merge (name : String) (fs : List Formula) (seen : OrderedSet String) :
    name ∈ fs.foldl (fun names f => names.merge f.names) seen ↔
      name ∈ seen ∨ ∃ f ∈ fs, f.Mentions name := by
  induction fs generalizing seen with
  | nil => simp
  | cons f fs ih =>
    have hf : name ∈ f.names ↔ f.Mentions name := by
      rw [← Formula.mem_vars_iff, Formula.vars, Std.TreeSet.mem_toList]
    simp [ih, hf, or_assoc]

/-- The list `vars` holds the names that occur in some formula of the rule. -/
theorem mem_vars_iff (name : String) (r : InferenceRule) :
    name ∈ r.vars ↔ ∃ f ∈ r.formulas, f.Mentions name := by
  rw [vars, Std.TreeSet.mem_toList, mem_foldl_merge]
  simp

/-- The list `vars` ascends strictly. -/
theorem sorted_vars (r : InferenceRule) : r.vars.Pairwise (· < ·) :=
  OrderedSet.sorted_toList OrderedSet.lt_of_compare_string _

/-- The text of the rule. -/
def text (r : InferenceRule) : String :=
  "[" ++ ", ".intercalate (r.assumptions.map Formula.text) ++ "] ==> " ++ r.conclusion.text

instance : ToString InferenceRule := ⟨text⟩

/-- The formula in which each assumption implies the rest of the rule. -/
def implicationChain (r : InferenceRule) : Formula :=
  r.assumptions.foldr (.binary .implies) r.conclusion

/-- Whether the conclusion is true unless one of the assumptions is false. -/
def holdsFrom (conclusion : Formula) (m : Model) : List Formula → Except SemanticsError Bool
  | [] => conclusion.evaluate m
  | assumption :: rest => do
    if ← assumption.evaluate m then holdsFrom conclusion m rest else return true

/-- Whether the rule holds in the model. -/
def evaluate (r : InferenceRule) (m : Model) : Except SemanticsError Bool :=
  match r.formulas.findSome? m.firstMissing? with
  | some name => .error (.missingVariable name)
  | none => holdsFrom r.conclusion m r.assumptions

/-- Whether the rule holds in all models over its variables. -/
def isSound (r : InferenceRule) (config : PoolConfig) : Except SemanticsError Bool := do
  let vars := r.vars
  let count ← numModels vars.length
  let assumptions ← r.assumptions.mapM fun f => Program.compile f vars
  let conclusion ← Program.compile r.conclusion vars
  return config.holdsBelow count fun number =>
    assumptions.any (fun p => !p.eval number) || conclusion.eval number

end InferenceRule

end Propositional

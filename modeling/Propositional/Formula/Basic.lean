import Propositional.OrderedSet
import Propositional.Symbol

/-!
# Propositional Formulas

A formula is a variable, a constant, a negation, or two formulas joined by a binary connective, so
every operator has as many operands as its arity by construction. That a variable's name is a
valid one is a predicate, `Formula.WellFormed`, which every operation of this library keeps.

Formulas share subformulas: a formula with a few hundred distinct nodes may unfold to a tree with
far more nodes than can be counted one by one. Its size, depth, hash code, and the sets of its
variables and operators are therefore computed fields, found once per distinct node from the fields
of its operands. The size is exact up to `Formula.maxSize` and stays there; `Formula.nodeCount` is
the exact count.

## Main definitions

* `Formula`, with the computed fields `size`, `depth`, `hashCode`, `names`, `operatorSet`.
* `Formula.vars`, `Formula.operators`: the members of these sets, in ascending order.
* `Formula.root`, `Formula.operands`: the symbol at the root and what stands below it.
* `Formula.nodeCount`: the number of nodes of the unfolded tree.
* `Formula.WellFormed`: every variable name in the formula is a valid one.

## Main results

* `Formula.mem_vars_iff`, `Formula.sorted_vars`: the list `vars` holds exactly the names that
  occur, in strictly ascending order.
* `Formula.mem_operators_iff`, `Formula.sorted_operators`: so does `operators` for the operators.
* `Formula.size_eq`: the size is the node count, cut off at `Formula.maxSize`.
-/

namespace Propositional

/-- The largest size that is told apart, 2⁶⁴ - 1. -/
def Formula.maxSize : Nat := 18446744073709551615

/-- A propositional formula. -/
inductive Formula where
  | var (name : String)
  | const (value : Bool)
  | not (operand : Formula)
  | binary (connective : Connective) (first second : Formula)
with
  /-- The number of nodes of the tree, or `Formula.maxSize` if it is larger. -/
  @[computed_field] size : Formula → Nat
    | .var _ => 1
    | .const _ => 1
    | .not f => min Formula.maxSize (1 + size f)
    | .binary _ f g => min Formula.maxSize (1 + size f + size g)
  /-- The number of nodes on a longest path from the root to a leaf. -/
  @[computed_field] depth : Formula → Nat
    | .var _ => 1
    | .const _ => 1
    | .not f => 1 + depth f
    | .binary _ f g => 1 + max (depth f) (depth g)
  /-- A number that depends on the tree only, so that trees with different codes differ. -/
  @[computed_field] hashCode : Formula → UInt64
    | .var name => mixHash 11 (hash name)
    | .const value => mixHash 13 (hash value)
    | .not f => mixHash 17 (hashCode f)
    | .binary c f g => mixHash (mixHash 19 (hash c)) (mixHash (hashCode f) (hashCode g))
  /-- The names of the variables that occur. -/
  @[computed_field] names : Formula → OrderedSet String
    | .var name => {name}
    | .const _ => ∅
    | .not f => names f
    | .binary _ f g => OrderedSet.merge (names f) (names g)
  /-- The operators that occur. -/
  @[computed_field] operatorSet : Formula → OrderedSet Operator
    | .var _ => ∅
    | .const value => {.constant value}
    | .not f => Std.TreeSet.insert (operatorSet f) .negation
    | .binary c f g =>
      Std.TreeSet.insert (OrderedSet.merge (operatorSet f) (operatorSet g)) (.binary c)

namespace Formula

/-- The symbol at the root of the formula. -/
def root : Formula → String
  | var name => name
  | const value => (Operator.constant value).symbol
  | not _ => Operator.negation.symbol
  | binary c _ _ => c.symbol

/-- The operands of the root, from left to right. -/
def operands : Formula → List Formula
  | var _ => []
  | const _ => []
  | not f => [f]
  | binary _ f g => [f, g]

/-- The first operand of the root. -/
def first? (f : Formula) : Option Formula :=
  f.operands[0]?

/-- The second operand of the root. -/
def second? (f : Formula) : Option Formula :=
  f.operands[1]?

/-- Whether the formula is a variable. -/
def isVar : Formula → Bool
  | var _ => true
  | _ => false

/-- The name of a formula that is a variable. -/
def asVar? : Formula → Option String
  | var name => some name
  | _ => none

/-- The operator at the root, unless the formula is a variable. -/
def operator? : Formula → Option Operator
  | var _ => none
  | const value => some (.constant value)
  | not _ => some .negation
  | binary c _ _ => some (.binary c)

/-- The value of a formula that is a constant. -/
def asBool? : Formula → Option Bool
  | const value => some value
  | _ => none

/-- The names of the variables that occur, in strictly ascending order. -/
def vars (f : Formula) : List String :=
  f.names.toList

/-- The operators that occur, in strictly ascending order. -/
def operators (f : Formula) : List Operator :=
  f.operatorSet.toList

/-- The number of nodes of the unfolded tree, without a bound. -/
def nodeCount : Formula → Nat
  | var _ => 1
  | const _ => 1
  | not f => 1 + f.nodeCount
  | binary _ f g => 1 + f.nodeCount + g.nodeCount

/-- The variable `name` occurs in the formula. -/
def Mentions (name : String) : Formula → Prop
  | var x => x = name
  | const _ => False
  | not f => f.Mentions name
  | binary _ f g => f.Mentions name ∨ g.Mentions name

/-- The operator `op` occurs in the formula. -/
def Uses (op : Operator) : Formula → Prop
  | var _ => False
  | const value => op = .constant value
  | not f => op = .negation ∨ f.Uses op
  | binary c f g => op = .binary c ∨ f.Uses op ∨ g.Uses op

/-- Every variable of the formula has a valid name. -/
def WellFormed : Formula → Prop
  | var name => isVariable name = true
  | const _ => True
  | not f => f.WellFormed
  | binary _ f g => f.WellFormed ∧ g.WellFormed

theorem nodeCount_pos (f : Formula) : 0 < f.nodeCount := by
  cases f <;> unfold nodeCount <;> omega

/-- The size is the node count, cut off at `maxSize`. -/
theorem size_eq (f : Formula) : f.size = min maxSize f.nodeCount := by
  induction f with
  | var => simp [size, nodeCount, maxSize]
  | const => simp [size, nodeCount, maxSize]
  | not f ih => simp only [size, nodeCount, ih]; omega
  | binary c f g ihf ihg => simp only [size, nodeCount, ihf, ihg]; omega

/-- The list `vars` holds the names that occur. -/
theorem mem_vars_iff (name : String) (f : Formula) : name ∈ f.vars ↔ f.Mentions name := by
  rw [vars, Std.TreeSet.mem_toList]
  induction f with
  | var x => simp [names, Mentions]
  | const => simp [names, Mentions]
  | not f ih => simpa [names, Mentions] using ih
  | binary c f g ihf ihg => simp [names, Mentions, ihf, ihg]

/-- The list `vars` ascends strictly. -/
theorem sorted_vars (f : Formula) : f.vars.Pairwise (· < ·) :=
  OrderedSet.sorted_toList OrderedSet.lt_of_compare_string f.names

/-- The list `vars` holds each name once. -/
theorem nodup_vars (f : Formula) : f.vars.Nodup :=
  f.sorted_vars.imp String.ne_of_lt

/-- A formula is well-formed if the names that occur are valid ones. -/
theorem wellFormed_iff {f : Formula} :
    f.WellFormed ↔ ∀ name, f.Mentions name → isVariable name = true := by
  induction f with
  | var x => simp [WellFormed, Mentions]
  | const => simp [WellFormed, Mentions]
  | not f ih => simpa [WellFormed, Mentions] using ih
  | binary c f g ihf ihg => simp [WellFormed, Mentions, ihf, ihg, or_imp, forall_and]

/-- All names in the list `vars` of a well-formed formula are valid ones. -/
theorem WellFormed.isVariable_of_mem_vars {f : Formula} (h : f.WellFormed) :
    ∀ name ∈ f.vars, isVariable name = true :=
  fun name hname => wellFormed_iff.mp h name ((mem_vars_iff name f).mp hname)

/-- The list `operators` holds the operators that occur. -/
theorem mem_operators_iff (op : Operator) (f : Formula) : op ∈ f.operators ↔ f.Uses op := by
  rw [operators, Std.TreeSet.mem_toList]
  induction f with
  | var => simp [operatorSet, Uses]
  | const => simp [operatorSet, Uses, eq_comm (a := op)]
  | not f ih => simp [operatorSet, Uses, ih, eq_comm (a := op)]
  | binary c f g ihf ihg => simp [operatorSet, Uses, ihf, ihg, eq_comm (a := op)]

/-- The list `operators` ascends strictly. -/
theorem sorted_operators (f : Formula) : f.operators.Pairwise (· < ·) :=
  OrderedSet.sorted_toList Operator.lt_of_compare f.operatorSet

end Formula

end Propositional

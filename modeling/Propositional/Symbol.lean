/-!
# Variable Names and Operators

The vocabulary of propositional formulas. A variable name is a letter from `p` to `z` followed by
any number of ASCII digits. The operators are the two constants, negation, and the three binary
connectives; each has one symbol, an arity, and a rank, its place in the fixed order
`T F ~ & | ->`.

## Main definitions

* `isVariable`, `isConstant`, `isUnary`, `isBinary`: the classes of symbols, as texts.
* `Connective`, `Operator`: the operators, with `Operator.symbol` and `Operator.ofSymbol?`.
* `Operator.reduce?`: the effect of an operator on a stack of truth values.

## Main results

* `Operator.ofSymbol?_symbol`: every operator is read back from its symbol.
-/

namespace Propositional

/-- The letters that start a variable name are `p` to `z`. -/
def isVariableLetter (c : Char) : Bool :=
  'p' ≤ c && c ≤ 'z'

/-- A variable name is one letter from `p` to `z`, then ASCII digits only. -/
def isVariable (s : String) : Bool :=
  match s.toList with
  | [] => false
  | c :: digits => isVariableLetter c && digits.all Char.isDigit

/-- The constants are written `T` and `F`. -/
def isConstant (s : String) : Bool :=
  s == "T" || s == "F"

/-- The one unary operator is written `~`. -/
def isUnary (s : String) : Bool :=
  s == "~"

/-- The binary operators are written `&`, `|` and `->`. -/
def isBinary (s : String) : Bool :=
  s == "&" || s == "|" || s == "->"

/-- The binary connectives: conjunction, disjunction and material implication. -/
inductive Connective
  | and
  | or
  | implies
  deriving DecidableEq, Hashable

namespace Connective

/-- The symbol that stands between the operands. -/
def symbol : Connective → String
  | and => "&"
  | or => "|"
  | implies => "->"

/-- The truth function of the connective. -/
def apply : Connective → Bool → Bool → Bool
  | and, a, b => a && b
  | or, a, b => a || b
  | implies, a, b => !a || b

end Connective

/-- The operators of propositional logic, the constants among them. -/
inductive Operator
  | constant (value : Bool)
  | negation
  | binary (connective : Connective)
  deriving DecidableEq, Hashable

namespace Operator

/-- The symbol of the operator. -/
def symbol : Operator → String
  | constant true => "T"
  | constant false => "F"
  | negation => "~"
  | binary c => c.symbol

/-- The number of operands. -/
def arity : Operator → Nat
  | constant _ => 0
  | negation => 1
  | binary _ => 2

/-- All operators, in the fixed order `T F ~ & | ->`. -/
def all : List Operator :=
  [constant true, constant false, negation, binary .and, binary .or, binary .implies]

/-- The place of the operator in `all`. -/
def rank : Operator → Nat
  | constant true => 0
  | constant false => 1
  | negation => 2
  | binary .and => 3
  | binary .or => 4
  | binary .implies => 5

/-- Operators are ordered by rank. -/
instance : LT Operator := ⟨fun a b => a.rank < b.rank⟩

instance : DecidableLT Operator := fun a b => inferInstanceAs (Decidable (a.rank < b.rank))

instance : Ord Operator := ⟨compareOn rank⟩

instance : Std.TransOrd Operator := inferInstanceAs (Std.TransCmp (compareOn rank))

/-- The operator with the given symbol, if there is one. -/
def ofSymbol? (s : String) : Option Operator :=
  all.find? fun op => op.symbol == s

/-- Replaces the operands on top of a stack of truth values, whose newest value comes first, by
the value of the operator; `none` if the stack holds fewer values than the operator takes. -/
def reduce? : Operator → List Bool → Option (List Bool)
  | constant v, stack => some (v :: stack)
  | negation, a :: stack => some ((!a) :: stack)
  | binary c, b :: a :: stack => some (c.apply a b :: stack)
  | _, _ => none

/-- An operator is found by its rank. -/
@[simp] theorem all_get?_rank (op : Operator) : all[op.rank]? = some op := by
  rcases op with (_ | _) | _ | (_ | _ | _) <;> rfl

/-- Operators of the same rank are equal. -/
theorem rank_inj {a b : Operator} (h : a.rank = b.rank) : a = b := by
  have := all_get?_rank b
  rw [← h, all_get?_rank, Option.some.injEq] at this
  exact this

instance : Std.LawfulEqOrd Operator where
  eq_of_compare h := rank_inj (Nat.compare_eq_eq.1 h)

/-- Of two operators that are told apart by comparison the smaller one lies before the other. -/
theorem lt_of_compare (a b : Operator) (h : compare a b = .lt) : a < b :=
  Nat.compare_eq_lt.1 h

/-- Every operator is read back from its symbol. -/
theorem ofSymbol?_symbol (op : Operator) : ofSymbol? op.symbol = some op := by
  rcases op with (_ | _) | _ | (_ | _ | _) <;> decide

end Operator

end Propositional

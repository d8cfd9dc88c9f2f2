import Std.Data.TreeSet.Lemmas

/-!
# Ordered Sets

A finite set over a linear order is kept as a balanced tree, whose members are listed in ascending
order. Two sets are joined by adding the members of the smaller one to the larger one, where a
member that is already there changes nothing. So the sets of the subformulas of a large formula
share almost all of their trees.

## Main definitions

* `OrderedSet`: the set, with `merge`.

## Main results

* `OrderedSet.mem_merge`: a member of the joined set is a member of one of the sets.
* `OrderedSet.sorted_toList`: the members are listed in strictly ascending order.
-/

namespace Propositional

/-- A finite set whose members are listed in ascending order. -/
abbrev OrderedSet (α : Type) [Ord α] := Std.TreeSet α

namespace OrderedSet

variable {α : Type} [Ord α]

/-- The set with the members of both sets. -/
def merge (s t : OrderedSet α) : OrderedSet α :=
  if s.size ≤ t.size then s ∪ t else t ∪ s

variable [Std.TransOrd α]

/-- A member of the joined set is a member of one of the sets. -/
@[simp] theorem mem_merge {s t : OrderedSet α} {a : α} : a ∈ s.merge t ↔ a ∈ s ∨ a ∈ t := by
  unfold merge
  split
  · exact Std.TreeSet.mem_union_iff
  · exact Std.TreeSet.mem_union_iff.trans Or.comm

/-- The members are listed in strictly ascending order, hence each of them once. -/
theorem sorted_toList [LT α] (lt_of_compare : ∀ a b : α, compare a b = .lt → a < b)
    (s : OrderedSet α) : s.toList.Pairwise (· < ·) :=
  s.ordered_toList.imp (lt_of_compare _ _)

/-- Of two texts that are told apart by comparison the smaller one lies before the other. -/
theorem lt_of_compare_string (s t : String) (h : compare s t = .lt) : s < t :=
  compareOfLessAndEq_eq_lt.1 h

end OrderedSet

end Propositional

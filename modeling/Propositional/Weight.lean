/-!
# Weights

The machines of this library that keep their work on a stack end because every step makes the work
lighter. The weight of a stack is the sum of the weights of its entries.

## Main definitions

* `totalWeight`: the sum of the weights of the members of a list.
-/

namespace Propositional

/-- The sum of the weights of the members of a list. -/
def totalWeight {α : Type} (weight : α → Nat) : List α → Nat
  | [] => 0
  | x :: xs => weight x + totalWeight weight xs

variable {α : Type} (weight : α → Nat)

@[simp] theorem totalWeight_nil : totalWeight weight [] = 0 := rfl

@[simp] theorem totalWeight_cons (x : α) (xs : List α) :
    totalWeight weight (x :: xs) = weight x + totalWeight weight xs := rfl

@[simp] theorem totalWeight_append (xs ys : List α) :
    totalWeight weight (xs ++ ys) = totalWeight weight xs + totalWeight weight ys := by
  induction xs with
  | nil => simp
  | cons x xs ih => simp only [List.cons_append, totalWeight_cons, ih]; omega

end Propositional

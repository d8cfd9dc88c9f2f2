import Propositional.Formula.Basic

/-!
# Equality of Formulas

Two formulas are equal iff they are the same tree. Walking both trees node by node is out of the
question for formulas that share much, so the comparison takes three shortcuts, none of which can
change its answer: formulas stored at the same place are equal, and formulas with different hash
codes or different sizes differ. The same knowledge of places serves `rebuild`, which keeps the
stored formula when none of its operands was replaced.

## Main definitions

* `Formula.decEq`: equality is decidable.
* `Formula.rebuild`: a formula with the given operands in place of its own.

## Main results

* `Formula.keepShared_eq`: keeping what is stored does not show in the value.
* `Formula.rebuild_operands`: a formula rebuilt over its own operands is itself.
-/

namespace Propositional

namespace Formula

/-- Decides whether two formulas are the same tree. -/
def decEq (f g : Formula) : Decidable (f = g) :=
  withPtrEqDecEq f g fun _ =>
    if differ : f.hashCode ≠ g.hashCode ∨ f.size ≠ g.size then
      isFalse fun h => differ.elim (· (h ▸ rfl)) (· (h ▸ rfl))
    else
      match f, g with
      | var x, var y =>
        if h : x = y then isTrue (h ▸ rfl) else isFalse (by simpa using h)
      | const a, const b =>
        if h : a = b then isTrue (h ▸ rfl) else isFalse (by simpa using h)
      | not f, not g =>
        match decEq f g with
        | isTrue h => isTrue (h ▸ rfl)
        | isFalse h => isFalse (by simpa using h)
      | binary c f₁ f₂, binary d g₁ g₂ =>
        if hc : c = d then
          match decEq f₁ g₁ with
          | isFalse h => isFalse (by simp [h])
          | isTrue h₁ =>
            match decEq f₂ g₂ with
            | isTrue h₂ => isTrue (by rw [hc, h₁, h₂])
            | isFalse h => isFalse (by simp [h])
        else isFalse (by simp [hc])
      | var _, const _ | var _, not _ | var _, binary .. | const _, var _ | const _, not _
      | const _, binary .. | not _, var _ | not _, const _ | not _, binary .. | binary .., var _
      | binary .., const _ | binary .., not _ => isFalse (by simp)

instance : DecidableEq Formula := decEq

instance : Hashable Formula := ⟨hashCode⟩

instance : LawfulHashable Formula where
  hash_eq _ _ h := congrArg hashCode (eq_of_beq h)

/-- Returns `whole` if `old` and `new` are stored at the same place and `rebuilt` otherwise, where
`whole` and `rebuilt` are equal whenever `old` and `new` are. -/
@[inline] def keepShared (old new whole rebuilt : Formula) (same : old = new → whole = rebuilt) :
    Formula :=
  have constant (u v : USize) :
      (if u = v then if old = new then whole else rebuilt else rebuilt) = rebuilt := by
    split
    · split
      · exact same ‹_›
      · rfl
    · rfl
  withPtrAddr old
    (fun u => withPtrAddr new
      (fun v => if u = v then if old = new then whole else rebuilt else rebuilt)
      fun v w => (constant u v).trans (constant u w).symm)
    fun u v => (constant u 0).trans (constant v 0).symm

/-- Keeping what is stored does not show in the value. -/
@[simp] theorem keepShared_eq (old new whole rebuilt : Formula)
    (same : old = new → whole = rebuilt) : keepShared old new whole rebuilt same = rebuilt := by
  simp only [keepShared, withPtrAddr]
  split
  · split
    · exact same ‹_›
    · rfl
  · rfl

/-- The formula with the given operands in place of its own. A list of the wrong length leaves the
formula as it is. -/
def rebuild (f : Formula) (operands : List Formula) : Formula :=
  match f, operands with
  | not a, [a'] => keepShared a a' (not a) (not a') fun h => h ▸ rfl
  | binary c a b, [a', b'] =>
    keepShared a a' (keepShared b b' (binary c a b) (binary c a b') fun h => h ▸ rfl)
      (binary c a' b') fun h => by simp [h]
  | f, _ => f

/-- A formula rebuilt over its own operands is itself. -/
@[simp] theorem rebuild_operands (f : Formula) : f.rebuild f.operands = f := by
  cases f <;> simp [rebuild, operands]

end Formula

end Propositional

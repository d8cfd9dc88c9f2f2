import Propositional.Formula.Basic
import Propositional.Weight

/-!
# Traversals

A traversal lists the subformulas of a formula, each as often as it occurs: in preorder a formula
comes before its operands, in postorder after them, and operands come from left to right. Both are
stepped through one subformula at a time by a machine that keeps what is still to visit on a stack
of its own, so that formulas of any depth are traversed in constant call depth.

Read back in postorder, the symbols alone determine the formula: `Formula.ofPostorder?` runs them
through a stack of finished formulas.

## Main definitions

* `Preorder`, `Postorder`: the states of the two machines, with `next?` and `foldl`.
* `Formula.preorder`, `Formula.postorder`: the lists they produce.
* `Formula.preorderForm`, `Formula.postorderForm`: the same lists by recursion on the formula.
* `Formula.ofPostorder?`: the formula whose symbols in postorder are given.

## Main results

* `Formula.preorder_eq`, `Formula.postorder_eq`: the machines produce the lists that the recursions
  define.
-/

namespace Propositional

/-- A traversal in preorder, as the stack of the formulas still to visit. -/
structure Preorder where
  pending : List Formula

namespace Preorder

/-- The number of subformulas still to come. -/
def weight (t : Preorder) : Nat :=
  totalWeight Formula.nodeCount t.pending

/-- The next subformula, and the traversal after it. -/
def next? (t : Preorder) : Option (Formula × Preorder) :=
  match t.pending with
  | [] => none
  | f :: rest => some (f, ⟨f.operands ++ rest⟩)

theorem weight_next? {t t' : Preorder} {f : Formula} (h : t.next? = some (f, t')) :
    t.weight = t'.weight + 1 := by
  obtain ⟨_ | ⟨g, rest⟩⟩ := t
  · simp [next?] at h
  · simp only [next?, Option.some.injEq, Prod.mk.injEq] at h
    obtain ⟨rfl, rfl⟩ := h
    cases g <;> simp [weight, Formula.operands, Formula.nodeCount] <;> omega

/-- Goes through the subformulas still to come, from the first to the last. -/
def foldl {β : Type} (step : β → Formula → β) (b : β) (t : Preorder) : β :=
  match _next : t.next? with
  | none => b
  | some (f, t') => foldl step (step b f) t'
termination_by t.weight
decreasing_by have := weight_next? _next; omega

/-- The subformulas still to come. -/
def toList (t : Preorder) : List Formula :=
  (t.foldl (fun acc f => f :: acc) []).reverse

theorem foldl_cons {β : Type} (step : β → Formula → β) (b : β) (f : Formula)
    (rest : List Formula) :
    foldl step b ⟨f :: rest⟩ = foldl step (step b f) ⟨f.operands ++ rest⟩ := by
  rw [foldl]
  split
  · simp_all [next?]
  · rename_i h
    obtain ⟨rfl, rfl⟩ : f = _ ∧ _ = _ := by simpa [next?] using h
    rfl

theorem foldl_nil {β : Type} (step : β → Formula → β) (b : β) : foldl step b ⟨[]⟩ = b := by
  rw [foldl]
  split <;> simp_all [next?]

end Preorder

/-- A traversal in postorder, as a stack of formulas. A formula is marked once its operands have
been put on the stack above it, and comes out the next time it is met. -/
structure Postorder where
  pending : List (Formula × Bool)

namespace Postorder

/-- The work that an entry of the stack still causes. -/
def entryWeight : Formula × Bool → Nat
  | (_, true) => 1
  | (f, false) => 2 * f.nodeCount

/-- The work that is still to be done. -/
def stackWeight (pending : List (Formula × Bool)) : Nat :=
  totalWeight entryWeight pending

/-- Unfolds the top of the stack until a formula comes out. -/
def advance (pending : List (Formula × Bool)) : Option (Formula × List (Formula × Bool)) :=
  match pending with
  | [] => none
  | (f, true) :: rest => some (f, rest)
  | (f, false) :: rest =>
    match f with
    | .var _ | .const _ => some (f, rest)
    | .not a => advance ((a, false) :: (f, true) :: rest)
    | .binary _ a b => advance ((a, false) :: (b, false) :: (f, true) :: rest)
termination_by stackWeight pending
decreasing_by
  all_goals simp [stackWeight, entryWeight, Formula.nodeCount]; omega

/-- The next subformula, and the traversal after it. -/
def next? (t : Postorder) : Option (Formula × Postorder) :=
  (advance t.pending).map fun (f, rest) => (f, ⟨rest⟩)

theorem stackWeight_advance {pending rest : List (Formula × Bool)} {f : Formula}
    (h : advance pending = some (f, rest)) : stackWeight rest < stackWeight pending := by
  fun_induction advance pending with
  | case1 => simp at h
  | case2 g rest' =>
    simp only [Option.some.injEq, Prod.mk.injEq] at h
    obtain ⟨rfl, rfl⟩ := h
    simp [stackWeight, entryWeight]
  | case3 rest' name =>
    simp only [Option.some.injEq, Prod.mk.injEq] at h
    obtain ⟨rfl, rfl⟩ := h
    simp [stackWeight, entryWeight, Formula.nodeCount]
  | case4 rest' value =>
    simp only [Option.some.injEq, Prod.mk.injEq] at h
    obtain ⟨rfl, rfl⟩ := h
    simp [stackWeight, entryWeight, Formula.nodeCount]
  | case5 rest' a ih =>
    have := ih h
    simp [stackWeight, entryWeight, Formula.nodeCount] at this ⊢
    omega
  | case6 rest' c a b ih =>
    have := ih h
    simp [stackWeight, entryWeight, Formula.nodeCount] at this ⊢
    omega

/-- Goes through the subformulas still to come, from the first to the last. -/
def foldl {β : Type} (step : β → Formula → β) (b : β) (t : Postorder) : β :=
  match _next : advance t.pending with
  | none => b
  | some (f, rest) => foldl step (step b f) ⟨rest⟩
termination_by stackWeight t.pending
decreasing_by exact stackWeight_advance _next

/-- The subformulas still to come. -/
def toList (t : Postorder) : List Formula :=
  (t.foldl (fun acc f => f :: acc) []).reverse

theorem foldl_of_advance {β : Type} (step : β → Formula → β) (b : β)
    {pending rest : List (Formula × Bool)} {f : Formula} (h : advance pending = some (f, rest)) :
    foldl step b ⟨pending⟩ = foldl step (step b f) ⟨rest⟩ := by
  rw [foldl]
  split <;> simp_all

theorem foldl_nil {β : Type} (step : β → Formula → β) (b : β) : foldl step b ⟨[]⟩ = b := by
  have h : advance [] = none := by rw [advance]
  rw [foldl]
  split <;> simp_all

theorem foldl_congr {β : Type} (step : β → Formula → β) (b : β)
    {pending pending' : List (Formula × Bool)} (h : advance pending = advance pending') :
    foldl step b ⟨pending⟩ = foldl step b ⟨pending'⟩ := by
  rw [foldl, foldl]
  split <;> split <;> simp_all

theorem advance_marked (f : Formula) (rest : List (Formula × Bool)) :
    advance ((f, true) :: rest) = some (f, rest) := by
  rw [advance]

end Postorder

namespace Formula

/-- The traversal of the formula in preorder, at its start. -/
def preorderStart (f : Formula) : Preorder := ⟨[f]⟩

/-- The traversal of the formula in postorder, at its start. -/
def postorderStart (f : Formula) : Postorder := ⟨[(f, false)]⟩

/-- The subformulas in preorder. -/
def preorder (f : Formula) : List Formula := f.preorderStart.toList

/-- The subformulas in postorder. -/
def postorder (f : Formula) : List Formula := f.postorderStart.toList

/-- The subformulas in preorder, by recursion: the formula, then those of its operands. -/
def preorderForm : Formula → List Formula
  | var name => [var name]
  | const value => [const value]
  | not a => not a :: a.preorderForm
  | binary c a b => binary c a b :: (a.preorderForm ++ b.preorderForm)

/-- The subformulas in postorder, by recursion: those of the operands, then the formula. -/
def postorderForm : Formula → List Formula
  | var name => [var name]
  | const value => [const value]
  | not a => a.postorderForm ++ [not a]
  | binary c a b => a.postorderForm ++ b.postorderForm ++ [binary c a b]

/-- Going through a formula in preorder is going through the list that the recursion defines. -/
theorem foldl_preorder_cons {β : Type} (step : β → Formula → β) (b : β) (f : Formula)
    (rest : List Formula) :
    Preorder.foldl step b ⟨f :: rest⟩ =
      Preorder.foldl step (f.preorderForm.foldl step b) ⟨rest⟩ := by
  induction f generalizing b rest with
  | var name => rw [Preorder.foldl_cons]; rfl
  | const value => rw [Preorder.foldl_cons]; rfl
  | not f ih =>
    rw [Preorder.foldl_cons]
    exact ih _ rest
  | binary c f g ihf ihg =>
    rw [Preorder.foldl_cons]
    simp only [operands, List.cons_append, List.nil_append, ihf, ihg, preorderForm,
      List.foldl_cons, List.foldl_append]

/-- Going through a formula in postorder is going through the list that the recursion defines. -/
theorem foldl_postorder_cons {β : Type} (step : β → Formula → β) (b : β) (f : Formula)
    (rest : List (Formula × Bool)) :
    Postorder.foldl step b ⟨(f, false) :: rest⟩ =
      Postorder.foldl step (f.postorderForm.foldl step b) ⟨rest⟩ := by
  induction f generalizing b rest with
  | var name => exact Postorder.foldl_of_advance step b (by rw [Postorder.advance])
  | const value => exact Postorder.foldl_of_advance step b (by rw [Postorder.advance])
  | not f ih =>
    have h : Postorder.advance ((not f, false) :: rest) =
        Postorder.advance ((f, false) :: (not f, true) :: rest) := by
      conv => lhs; rw [Postorder.advance]
    rw [Postorder.foldl_congr step b h, ih,
      Postorder.foldl_of_advance step _ (Postorder.advance_marked (not f) rest)]
    simp [postorderForm]
  | binary c f g ihf ihg =>
    have h : Postorder.advance ((binary c f g, false) :: rest) =
        Postorder.advance ((f, false) :: (g, false) :: (binary c f g, true) :: rest) := by
      conv => lhs; rw [Postorder.advance]
    rw [Postorder.foldl_congr step b h, ihf, ihg,
      Postorder.foldl_of_advance step _ (Postorder.advance_marked (binary c f g) rest)]
    simp [postorderForm]

theorem foldl_preorderStart {β : Type} (step : β → Formula → β) (b : β) (f : Formula) :
    f.preorderStart.foldl step b = f.preorderForm.foldl step b := by
  rw [preorderStart, foldl_preorder_cons, Preorder.foldl_nil]

theorem foldl_postorderStart {β : Type} (step : β → Formula → β) (b : β) (f : Formula) :
    f.postorderStart.foldl step b = f.postorderForm.foldl step b := by
  rw [postorderStart, foldl_postorder_cons, Postorder.foldl_nil]

/-- The machine lists the subformulas in preorder. -/
theorem preorder_eq (f : Formula) : f.preorder = f.preorderForm := by
  simp [preorder, Preorder.toList, foldl_preorderStart]

/-- The machine lists the subformulas in postorder. -/
theorem postorder_eq (f : Formula) : f.postorder = f.postorderForm := by
  simp [postorder, Postorder.toList, foldl_postorderStart]

/-- Puts the formula that a symbol makes of the newest finished formulas in their place. The
newest formula comes first. -/
def buildStep? (finished : List Formula) (symbol : String) : Option (List Formula) :=
  if isVariable symbol then some (var symbol :: finished)
  else
    match Operator.ofSymbol? symbol, finished with
    | some (.constant value), finished => some (const value :: finished)
    | some .negation, a :: rest => some (not a :: rest)
    | some (.binary c), b :: a :: rest => some (binary c a b :: rest)
    | _, _ => none

/-- The formula whose symbols in postorder are given, if there is one. -/
def ofPostorder? (symbols : List String) : Option Formula :=
  match symbols.foldlM buildStep? [] with
  | some [f] => some f
  | _ => none

end Formula

end Propositional

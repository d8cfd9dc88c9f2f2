import Propositional.Proofs.Construction.Nodes

/-!
# Counting the Height of a Stack

A machine that goes through the subformulas of a formula in postorder, and at each of them takes as
many entries off its stack as the subformula has operands and leaves one, has a stack whose height
can be counted ahead. Over a whole formula the count never falls below zero, however high the stack
was before, and ends one higher (`heightAfter?_postorderForm`).

So a machine whose steps fail only where the stack is too low, and otherwise leave the counted
height (`Keeps`), does not fail at all, and has the counted height after any number of steps.

## Main definitions

* `heightAfter?`: the height, counted by numbers of operands.
* `Keeps`: the step of a machine keeps to the counted height.

## Main results

* `heightAfter?_postorderForm`: the height over the subformulas of a formula.
* `exists_foldlM_of_keeps`: what each step keeps to, a run keeps to.
-/

namespace Propositional

/-- The difference of two numbers, unless it is negative. -/
def subtract? (a b : Nat) : Option Nat :=
  if b ≤ a then some (a - b) else none

/-- The height of a stack after subformulas, each of which takes off as many entries as it has
operands, and leaves one; `none` if there are fewer. -/
def heightAfter? (height : Nat) (fs : List Formula) : Option Nat :=
  fs.foldlM (fun height g => (subtract? height g.operands.length).map (· + 1)) height

theorem subtract?_eq_some_iff {a b d : Nat} : subtract? a b = some d ↔ d + b = a := by
  unfold subtract?
  split <;> simp only [Option.some.injEq, reduceCtorEq, false_iff] <;> omega

@[simp] theorem heightAfter?_nil (height : Nat) : heightAfter? height [] = some height := rfl

/-- A subformula finds its operands on the stack, and the others find what it leaves. -/
theorem heightAfter?_cons_eq_some_iff {height height' : Nat} {g : Formula} {fs : List Formula} :
    heightAfter? height (g :: fs) = some height' ↔
      g.operands.length ≤ height ∧
        heightAfter? (height - g.operands.length + 1) fs = some height' := by
  rw [heightAfter?, List.foldlM_cons, subtract?]
  by_cases h : g.operands.length ≤ height
  · simp [h, heightAfter?]
  · simp [h]

/-- Heights are counted on from where the count was. -/
theorem heightAfter?_append (height : Nat) (fs gs : List Formula) :
    heightAfter? height (fs ++ gs) = (heightAfter? height fs).bind (heightAfter? · gs) :=
  List.foldlM_append

/-- **A formula makes the stack one higher**, however high it was, and never finds it too low. -/
theorem heightAfter?_postorderForm (f : Formula) (height : Nat) :
    heightAfter? height f.postorderForm = some (height + 1) := by
  induction f generalizing height with
  | var name => rfl
  | const value => rfl
  | not f ih =>
      rw [Formula.postorderForm, heightAfter?_append, ih, Option.bind_some,
        heightAfter?_cons_eq_some_iff]
      simp [Formula.operands]
  | binary c f g ihf ihg =>
      rw [Formula.postorderForm, heightAfter?_append, heightAfter?_append, ihf, Option.bind_some,
        ihg, Option.bind_some, heightAfter?_cons_eq_some_iff]
      simp [Formula.operands]

/-- The count from the start to the end of a formula. -/
theorem heightAfter?_postorder (f : Formula) : heightAfter? 0 f.postorder = some 1 := by
  rw [Formula.postorder_eq, heightAfter?_postorderForm]

/-- After the first subformulas of a formula there is a count, and the next one finds its
operands. -/
theorem exists_heightAfter?_take (f : Formula) (k : Nat) :
    ∃ height, heightAfter? 0 (f.postorder.take k) = some height ∧
      ∀ g, f.postorder[k]? = some g → g.operands.length ≤ height := by
  have hall := heightAfter?_postorder f
  rw [← List.take_append_drop k f.postorder, heightAfter?_append] at hall
  obtain ⟨height, htake, hdrop⟩ := Option.bind_eq_some_iff.mp hall
  refine ⟨height, htake, fun g hg => ?_⟩
  obtain ⟨hk, rfl⟩ := List.getElem?_eq_some_iff.mp hg
  rw [List.drop_eq_getElem_cons hk, heightAfter?_cons_eq_some_iff] at hdrop
  exact hdrop.1

section Keeps

variable {σ : Type} {height : σ → Nat} {step : σ → Formula → Option σ}

/-- The step of a machine at the subformula does not fail where the stack is high enough, and the
height after it is the counted one. -/
def Keeps (height : σ → Nat) (step : σ → Formula → Option σ) (g : Formula) : Prop :=
  ∀ s, g.operands.length ≤ height s →
    ∃ s', step s g = some s' ∧ height s' = height s - g.operands.length + 1

/-- **A machine whose steps keep to the counted height has it after all of them.** -/
theorem exists_foldlM_of_keeps {fs : List Formula} (h : ∀ g ∈ fs, Keeps height step g) {s : σ}
    {n : Nat} (hn : heightAfter? (height s) fs = some n) :
    ∃ s', fs.foldlM step s = some s' ∧ height s' = n := by
  induction fs generalizing s with
  | nil => exact ⟨s, rfl, Option.some.inj hn⟩
  | cons g fs ih =>
      obtain ⟨hg, hfs⟩ := List.forall_mem_cons.mp h
      obtain ⟨hoperands, hn⟩ := heightAfter?_cons_eq_some_iff.mp hn
      obtain ⟨s', hstep, hheight⟩ := hg s hoperands
      obtain ⟨s'', hrest, hend⟩ := ih hfs (hheight ▸ hn)
      refine ⟨s'', ?_, hend⟩
      rw [List.foldlM_cons, hstep]
      exact hrest

/-- It has it after any number of the subformulas of a formula. -/
theorem exists_take_of_keeps {f : Formula} (h : ∀ g ∈ f.postorder, Keeps height step g) {s : σ}
    (hs : height s = 0) {k n : Nat} (hn : heightAfter? 0 (f.postorder.take k) = some n) :
    ∃ s', (f.postorder.take k).foldlM step s = some s' ∧ height s' = n :=
  exists_foldlM_of_keeps (fun g hg => h g (List.mem_of_mem_take hg)) (by rwa [hs])

end Keeps

namespace Formula

/-- A formula without an operator is a variable. -/
theorem exists_eq_var {g : Formula} (h : g.operator? = none) : ∃ name, g = var name := by
  cases g with
  | var name => exact ⟨name, rfl⟩
  | const | not | binary => cases h

/-- A subformula mentions what the formula mentions. -/
theorem Mentions.of_mem_postorder {f g : Formula} {x : String} (hx : g.Mentions x)
    (hg : g ∈ f.postorder) : f.Mentions x := by
  rw [postorder_eq] at hg
  induction f with
  | var name | const value => rwa [List.mem_singleton.mp hg] at hx
  | not f ih =>
      rcases List.mem_append.mp hg with hg | hg
      · exact ih hg
      · rwa [List.mem_singleton.mp hg] at hx
  | binary c f₁ f₂ ih₁ ih₂ =>
      rcases List.mem_append.mp hg with hg | hg
      · exact (List.mem_append.mp hg).imp ih₁ ih₂
      · rwa [List.mem_singleton.mp hg] at hx

end Formula

end Propositional

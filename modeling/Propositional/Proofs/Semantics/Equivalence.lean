import Propositional.Proofs.Semantics.TruthTables

/-!
# Equivalent Formulas

Two formulas are equivalent if evaluation gives them the same value in every model that
covers both, whatever other variables it gives values to. Well-formed formulas are
equivalent iff they have the same recursive value under every assignment
(`Formula.equivalent_iff`): the models over the variables of both formulas cover both, and
among them are all assignments of values to these variables.

The library has no biconditional. The two implications between two formulas, joined by a
conjunction, take its place, and are checked to be a tautology if the formulas have the
same values (`Formula.isTautology_implications`).

## Main results

* `Formula.equivalent_iff`: equivalence in terms of the recursive value.
* `Formula.isTautology_implications`: equivalent formulas imply each other.
-/

namespace Propositional.Formula

variable {f g : Formula}

/-- The formulas have the same value in every model that covers both. -/
def Equivalent (f g : Formula) : Prop :=
  ∀ m : Model, m.WellFormed → m.covers f = true → m.covers g = true → f.evaluate m = g.evaluate m

/-- Formulas with the same values are evaluated alike in a model that covers both. -/
theorem evaluate_eq_of_value_eq (h : ∀ v, f.value v = g.value v) {m : Model}
    (hf : m.covers f = true) (hg : m.covers g = true) : f.evaluate m = g.evaluate m := by
  rw [evaluate_of_covers hf, evaluate_of_covers hg, h]

/-- **Equivalent formulas are those with the same value under every assignment.** -/
theorem equivalent_iff (hf : f.WellFormed) (hg : g.WellFormed) :
    f.Equivalent g ↔ ∀ v, f.value v = g.value v := by
  constructor
  · intro h v
    have hboth : (binary .and f g).WellFormed := ⟨hf, hg⟩
    have hnodup := (binary .and f g).nodup_vars
    have hmemf : ∀ x, f.Mentions x → x ∈ (binary .and f g).vars := fun x hx =>
      (mem_vars_iff x _).mpr (.inl hx)
    have hmemg : ∀ x, g.Mentions x → x ∈ (binary .and f g).vars := fun x hx =>
      (mem_vars_iff x _).mpr (.inr hx)
    obtain ⟨number, -, hvalue⟩ := Enumeration.exists_modelOf_value hnodup v
    have hcoversf := Enumeration.covers_modelOf hnodup number hmemf
    have hcoversg := Enumeration.covers_modelOf hnodup number hmemg
    have heq := h _ (Enumeration.wellFormed_modelOf hboth.isVariable_of_mem_vars hnodup number)
      hcoversf hcoversg
    rw [evaluate_of_covers hcoversf, evaluate_of_covers hcoversg] at heq
    rw [← hvalue f hmemf, ← hvalue g hmemg]
    exact Except.ok.inj heq
  · exact fun h m _ => evaluate_eq_of_value_eq h

/-- The formulas that are found to be tautologies are those with fewer than 64 variables
that are true under every assignment. -/
theorem isTautology_eq_true_iff {config : PoolConfig} :
    f.isTautology config = .ok true ↔ f.vars.length < variableLimit ∧ ∀ v, f.value v = true := by
  rcases Nat.lt_or_ge f.vars.length variableLimit with hfew | hmany
  · obtain ⟨b, hcheck, hb⟩ := exists_isTautology config hfew
    rw [hcheck, Except.ok.injEq, hb]
    exact (and_iff_right hfew).symm
  · rw [isTautology_eq_error config hmany]
    simp [Nat.not_lt.mpr hmany]

/-- **Formulas with the same values are found to imply each other.** -/
theorem isTautology_implications (config : PoolConfig)
    (hlimit : (binary .and (binary .implies f g) (binary .implies g f)).vars.length <
      variableLimit) (hvalue : ∀ v, g.value v = f.value v) :
    (binary .and (binary .implies f g) (binary .implies g f)).isTautology config = .ok true := by
  refine isTautology_eq_true_iff.mpr ⟨hlimit, fun v => ?_⟩
  simp only [value, hvalue, Connective.apply]
  cases f.value v <;> rfl

end Propositional.Formula

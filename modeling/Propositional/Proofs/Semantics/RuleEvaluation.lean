import Propositional.Proofs.Semantics.Soundness

/-!
# A Rule in One Model

In a model that covers all formulas of a rule, the rule has the value of its chain of implications,
and so it holds there unless all assumptions are true and the conclusion is false. In any other
model the rule is refused before any of its formulas is evaluated, on account of the first one that
is not covered and its smallest variable without a value. What values the model gives has no effect
on that (`InferenceRule.evaluate_congr_of_missing`), so a false assumption hides nothing.

The chain is refused in the same models as the rule, but perhaps for another variable: for the
chain, the smallest one of all formulas counts.

## Main results

* `InferenceRule.evaluate_eq_true_iff`: when a rule holds in a covering model.
* `InferenceRule.evaluate_eq_error_iff`: what a rule is refused for.
* `InferenceRule.evaluate_eq_chain_or_missing`: a rule in any model.
-/

namespace Propositional

/-- Which variable is missing depends on which variables have values only. -/
theorem Model.firstMissing?_congr {m m' : Model} (h : ∀ x, m'.contains x = m.contains x) :
    m'.firstMissing? = m.firstMissing? := by
  funext f
  simp only [firstMissing?, h]

namespace InferenceRule

variable {r : InferenceRule} {m m' : Model}

/-! ### Covering models -/

/-- **In a model that covers the rule, it holds iff the conclusion is true or some assumption is
false.** -/
theorem evaluate_eq_true_iff (h : ∀ f ∈ r.formulas, m.covers f = true) :
    r.evaluate m = .ok true ↔
      ((∀ f ∈ r.assumptions, f.evaluate m = .ok true) → r.conclusion.evaluate m = .ok true) := by
  obtain ⟨hassumptions, hconclusion⟩ := List.forall_mem_append.mp h
  have hvalue : ∀ f ∈ r.assumptions, (f.evaluate m = .ok true ↔ f.value m.valuation = true) :=
    fun f hf => by rw [Formula.evaluate_of_covers (hassumptions f hf), Except.ok.injEq]
  rw [evaluate_of_covers h, Formula.evaluate_of_covers (hconclusion _ List.mem_cons_self),
    Except.ok.injEq, Except.ok.injEq, forall₂_congr hvalue, value_implicationChain,
    Bool.or_eq_true, List.any_eq_true]
  have hfalse : (∃ f ∈ r.assumptions, (!f.value m.valuation) = true) ↔
      ¬ ∀ f ∈ r.assumptions, f.value m.valuation = true := by
    simp only [not_forall, exists_prop, Bool.not_eq_true', Bool.not_eq_true]
  rw [hfalse, ← imp_iff_not_or]

/-! ### Other models -/

/-- **What a rule is refused for**: the variable that is missing in the first of its formulas that
is not covered. -/
theorem evaluate_eq_error_iff {fault : SemanticsError} :
    r.evaluate m = .error fault ↔
      ∃ before f after v, r.formulas = before ++ f :: after ∧
        (∀ g ∈ before, m.covers g = true) ∧ m.firstMissing? f = some v ∧
        fault = .missingVariable v := by
  cases hmissing : r.formulas.findSome? m.firstMissing? with
  | none =>
      have hcovers : ∀ f ∈ r.formulas, m.covers f = true := fun f hf =>
        Model.firstMissing?_eq_none_iff.mp (List.findSome?_eq_none_iff.mp hmissing f hf)
      rw [evaluate_of_covers hcovers]
      constructor
      · rintro ⟨⟩
      · rintro ⟨before, f, after, v, hformulas, -, hv, -⟩
        rw [Model.firstMissing?_eq_none_iff.mpr (hcovers f (by simp [hformulas]))] at hv
        cases hv
  | some v =>
      obtain ⟨before, f, after, hformulas, hv, hbefore⟩ := List.findSome?_eq_some_iff.mp hmissing
      have hrefused : r.evaluate m = .error (.missingVariable v) := by rw [evaluate, hmissing]
      rw [hrefused, Except.error.injEq]
      constructor
      · rintro rfl
        exact ⟨before, f, after, v, hformulas,
          fun g hg => Model.firstMissing?_eq_none_iff.mp (hbefore g hg), hv, rfl⟩
      · rintro ⟨before', f', after', v', hformulas', hbefore', hv', rfl⟩
        have hfound : r.formulas.findSome? m.firstMissing? = some v' :=
          List.findSome?_eq_some_iff.mpr ⟨before', f', after', hformulas', hv',
            fun g hg => Model.firstMissing?_eq_none_iff.mpr (hbefore' g hg)⟩
        rw [Option.some.inj (hmissing.symm.trans hfound)]

/-- If some formula is not covered, some variable is missing. -/
theorem exists_findSome?_firstMissing? (h : ∃ f ∈ r.formulas, m.covers f = false) :
    ∃ v, r.formulas.findSome? m.firstMissing? = some v := by
  obtain ⟨f, hf, hcovers⟩ := h
  rw [← Option.isSome_iff_exists, ← Option.ne_none_iff_isSome]
  intro hnone
  rw [Model.firstMissing?_eq_none_iff.mp (List.findSome?_eq_none_iff.mp hnone f hf)] at hcovers
  cases hcovers

/-- **The values that a model gives have no effect on a refusal.** -/
theorem evaluate_congr_of_missing (h : ∃ f ∈ r.formulas, m.covers f = false)
    (hsame : ∀ x, m'.contains x = m.contains x) : r.evaluate m' = r.evaluate m := by
  obtain ⟨v, hv⟩ := exists_findSome?_firstMissing? h
  rw [evaluate, evaluate, Model.firstMissing?_congr hsame, hv]

/-- **A rule has the value of its chain of implications, or else is refused for the right
variable.** In a model that covers all formulas of the rule, its value is that of the formula
`(A1->(A2->...(Ak->C)...))`, which is `true` iff the conclusion is true there if all assumptions
are. In any other model the rule is refused. Of the assumptions in order and the conclusion, take
the first formula that is not covered: the variable that is reported is the smallest one in it, in
the order of bytes, that has no value. It is so whatever values the model gives, also if some
assumption before that formula is false. -/
theorem evaluate_eq_chain_or_missing (r : InferenceRule) (m : Model) :
    ((∀ f ∈ r.formulas, m.covers f = true) →
      r.evaluate m = .ok (r.implicationChain.value m.valuation) ∧
        r.evaluate m = r.implicationChain.evaluate m ∧
        (r.evaluate m = .ok true ↔
          ((∀ f ∈ r.assumptions, f.evaluate m = .ok true) →
            r.conclusion.evaluate m = .ok true))) ∧
      ((∃ f ∈ r.formulas, m.covers f = false) →
        ∃ before f after v, r.formulas = before ++ f :: after ∧
          (∀ g ∈ before, m.covers g = true) ∧ m.covers f = false ∧
          r.evaluate m = .error (.missingVariable v) ∧ f.Mentions v ∧ m.contains v = false ∧
          (∀ w, f.Mentions w → m.contains w = false → w ≠ v → bytes v < bytes w) ∧
          ∀ m' : Model, (∀ x, m'.contains x = m.contains x) → r.evaluate m' = r.evaluate m) := by
  constructor
  · intro h
    refine ⟨evaluate_of_covers h, ?_, evaluate_eq_true_iff h⟩
    rw [evaluate_of_covers h, Formula.evaluate_of_covers (covers_implicationChain_iff.mpr h)]
  · intro h
    obtain ⟨v, hmissing⟩ := exists_findSome?_firstMissing? h
    have hrefused : r.evaluate m = .error (.missingVariable v) := by rw [evaluate, hmissing]
    obtain ⟨before, f, after, v, hformulas, hbefore, hv, ⟨⟩⟩ := evaluate_eq_error_iff.mp hrefused
    have hcovers : m.covers f = false := by
      rw [← Bool.not_eq_true, ← Model.firstMissing?_eq_none_iff, hv]
      exact Option.some_ne_none v
    obtain ⟨hmentions, hnone, hleast⟩ := Model.firstMissing?_eq_some_iff.mp hv
    exact ⟨before, f, after, v, hformulas, hbefore, hcovers, hrefused, hmentions, hnone, hleast,
      fun m' hsame => evaluate_congr_of_missing h hsame⟩

/-- In the model `{r: T, q: F, p: F}` the assumption of `[(r->q)] ==> p` is false, so that the rule
holds there. In the model `{q: F}` it is refused for `r`, which is missing in the assumption,
although the smaller `p` is missing in the conclusion. -/
theorem evaluate_eq_chain_or_missing_implication :
    InferenceRule.evaluate ⟨[.binary .implies (.var "r") (.var "q")], .var "p"⟩
        ⟨⟨[("r", true), ("q", false), ("p", false)]⟩⟩ = .ok true ∧
      InferenceRule.evaluate ⟨[.binary .implies (.var "r") (.var "q")], .var "p"⟩
        ⟨⟨[("q", false)]⟩⟩ = .error (.missingVariable "r") := by
  constructor
  · exact ((evaluate_eq_chain_or_missing _ _).1 (by decide)).1
  · obtain ⟨before, f, after, v, hformulas, hbefore, -, hrefused, hmentions, hnone, -, -⟩ :=
      (evaluate_eq_chain_or_missing ⟨[.binary .implies (.var "r") (.var "q")], .var "p"⟩
        ⟨⟨[("q", false)]⟩⟩).2 ⟨_, List.mem_cons_self, by decide⟩
    rcases before with _ | ⟨g, before⟩
    · obtain ⟨rfl, -⟩ := List.cons.inj hformulas
      obtain rfl | rfl := hmentions
      · exact hrefused
      · exact absurd hnone (by decide)
    · obtain ⟨rfl, -⟩ := List.cons.inj hformulas
      exact absurd (hbefore _ List.mem_cons_self) (by decide)

end InferenceRule

end Propositional

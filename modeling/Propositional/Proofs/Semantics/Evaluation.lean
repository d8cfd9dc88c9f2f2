import Propositional.Evaluation
import Propositional.Proofs.Text.ByteOrder

/-!
# Evaluation Is the Recursive Truth Value

`Formula.evaluate` goes through the subformulas in postorder with a stack of values;
`Formula.value` is the recursion. Whatever is on the stack, the subformulas of a covered
formula leave its value on top of it (`Evaluation.foldl_step`), so at the end exactly one
value is left. The recursion in turn says whether the formula holds, with the connectives
of the logic in place of operations on truth values (`Formula.Holds`).

A formula that is not covered is refused before anything is evaluated, for the first of
its variables, in the order of their bytes, that has no value.

## Main results

* `Model.covers_iff`: a model covers a formula iff it gives each variable that occurs in
  it a value.
* `Formula.value_congr`: the recursive value depends on the variables that occur only.
* `Formula.evaluate_of_covers`: in a covering model the value is that of the recursion.
* `Formula.value_eq_true_iff`: the recursive value tells whether the formula holds.
* `Model.firstMissing?_eq_some_iff`: which variable is reported as missing.
* `Formula.evaluate_eq_value_or_missing`: evaluation in any model.
-/

namespace Propositional

/-- Of two steps, one after the other, both must succeed. -/
theorem bind_eq_ok_iff {ε α β : Type} {x : Except ε α} {next : α → Except ε β} {b : β} :
    x >>= next = .ok b ↔ ∃ a, x = .ok a ∧ next a = .ok b := by
  cases x with
  | error fault => simp [bind, Except.bind]
  | ok a => simp [bind, Except.bind]

namespace Model

/-- The values of the variables in a model, `false` for those that have none. -/
def valuation (m : Model) (name : String) : Bool :=
  (m.get? name).getD false

/-- A variable is true if it has a value and that is `true`. -/
theorem valuation_eq_true_iff {m : Model} {x : String} :
    m.valuation x = true ↔ m.get? x = some true := by
  rw [valuation]
  cases m.get? x <;> simp

/-- A model covers a formula if it gives each variable that occurs in it a value. -/
theorem covers_iff {m : Model} {f : Formula} :
    m.covers f = true ↔ ∀ x, f.Mentions x → m.get? x = some (m.valuation x) := by
  have hvalue : ∀ x, m.contains x = true ↔ m.get? x = some (m.valuation x) := by
    intro x
    rw [contains, OrderedMap.contains, valuation]
    change (m.get? x).isSome = true ↔ _
    cases m.get? x <;> simp
  simp only [covers, List.all_eq_true, Formula.mem_vars_iff, hvalue]

/-- No variable is missing iff the model covers the formula. -/
theorem firstMissing?_eq_none_iff {m : Model} {f : Formula} :
    m.firstMissing? f = none ↔ m.covers f = true := by
  simp only [firstMissing?, covers, List.find?_eq_none, List.all_eq_true, Bool.not_eq_true',
    Bool.not_eq_false]

/-- The missing variable is the smallest of the variables that occur and have no value. -/
theorem firstMissing?_eq_some_iff {m : Model} {f : Formula} {v : String} :
    m.firstMissing? f = some v ↔
      f.Mentions v ∧ m.contains v = false ∧
        ∀ w, f.Mentions w → m.contains w = false → w ≠ v → bytes v < bytes w := by
  rw [firstMissing?, find?_eq_some_iff_of_sorted f.sorted_vars]
  simp only [Formula.mem_vars_iff, Bool.not_eq_true']

/-- A variable is missing if one of those that occur has no value. -/
theorem exists_firstMissing? {m : Model} {f : Formula}
    (h : ∃ x, f.Mentions x ∧ m.contains x = false) : ∃ v, m.firstMissing? f = some v := by
  obtain ⟨x, hx, hvalue⟩ := h
  rw [← Option.isSome_iff_exists, firstMissing?, List.find?_isSome]
  exact ⟨x, (Formula.mem_vars_iff x f).mpr hx, by rw [hvalue, Bool.not_false]⟩

end Model

/-- The subformulas of a covered formula, in postorder, put its value on the stack. -/
theorem Evaluation.foldl_step {m : Model} {f : Formula}
    (h : ∀ x, f.Mentions x → m.get? x = some (m.valuation x)) (values : List Bool) :
    f.postorderForm.foldl (fun values g => values.bind (Evaluation.step? m · g)) (some values) =
      some (f.value m.valuation :: values) := by
  induction f generalizing values with
  | var name =>
      simp only [Formula.postorderForm, List.foldl_cons, List.foldl_nil, Option.bind_some,
        step?, h name rfl, Option.map_some, Formula.value]
  | const value => rfl
  | not f ih =>
      rw [Formula.postorderForm, List.foldl_append, ih h]
      rfl
  | binary c f g ihf ihg =>
      rw [Formula.postorderForm, List.foldl_append, List.foldl_append,
        ihf fun x hx => h x (.inl hx), ihg fun x hx => h x (.inr hx)]
      rfl

namespace Formula

/-- The value depends on the values of the variables that occur, and on nothing else. -/
theorem value_congr {v w : String → Bool} {f : Formula} (h : ∀ x, f.Mentions x → v x = w x) :
    f.value v = f.value w := by
  induction f with
  | var name => exact h name rfl
  | const value => rfl
  | not f ih => rw [value, value, ih h]
  | binary c f g ihf ihg =>
      rw [value, value, ihf fun x hx => h x (.inl hx), ihg fun x hx => h x (.inr hx)]

/-- The formula holds if the variables do that `v` tells, by recursion on the connectives. -/
def Holds (v : String → Prop) : Formula → Prop
  | var name => v name
  | const b => b = true
  | not f => ¬ f.Holds v
  | binary .and f g => f.Holds v ∧ g.Holds v
  | binary .or f g => f.Holds v ∨ g.Holds v
  | binary .implies f g => f.Holds v → g.Holds v

/-- The value is `true` iff the formula holds if the variables do that have the value `true`. -/
theorem value_eq_true_iff (f : Formula) (v : String → Bool) :
    f.value v = true ↔ f.Holds (v · = true) := by
  induction f with
  | var name => rfl
  | const b => rfl
  | not f ih => rw [value, Holds, ← ih, Bool.not_eq_true', Bool.not_eq_true]
  | binary c f g ihf ihg =>
      cases c with
      | and => rw [value, Holds, ← ihf, ← ihg, Connective.apply, Bool.and_eq_true]
      | or => rw [value, Holds, ← ihf, ← ihg, Connective.apply, Bool.or_eq_true]
      | implies =>
          rw [value, Holds, ← ihf, ← ihg, Connective.apply, Bool.or_eq_true, Bool.not_eq_true',
            ← Bool.not_eq_true, imp_iff_not_or]

/-- In a model that covers the formula one value is left on the stack, the recursive one. -/
theorem evaluateCovered?_of_covers {f : Formula} {m : Model} (h : m.covers f = true) :
    f.evaluateCovered? m = some (f.value m.valuation) := by
  rw [evaluateCovered?, foldl_postorderStart, Evaluation.foldl_step (Model.covers_iff.mp h)]

/-- **In a model that covers the formula, evaluation gives the recursive value.** -/
theorem evaluate_of_covers {f : Formula} {m : Model} (h : m.covers f = true) :
    f.evaluate m = .ok (f.value m.valuation) := by
  rw [evaluate, Model.firstMissing?_eq_none_iff.mpr h, evaluateCovered?_of_covers h,
    Option.getD_some]

/-- In any other model evaluation gives the missing variable. -/
theorem evaluate_of_firstMissing? {f : Formula} {m : Model} {v : String}
    (h : m.firstMissing? f = some v) : f.evaluate m = .error (.missingVariable v) := by
  rw [evaluate, h]

/-- Covering models that give the variables that occur the same values give the same value. -/
theorem evaluate_congr {f : Formula} {m m' : Model} (h : m.covers f = true)
    (hsame : ∀ x, f.Mentions x → m'.get? x = m.get? x) : f.evaluate m' = f.evaluate m := by
  have hvaluation : ∀ x, f.Mentions x → m'.valuation x = m.valuation x := fun x hx => by
    rw [Model.valuation, Model.valuation, hsame x hx]
  have h' : m'.covers f = true := Model.covers_iff.mpr fun x hx => by
    rw [hsame x hx, hvaluation x hx, Model.covers_iff.mp h x hx]
  rw [evaluate_of_covers h, evaluate_of_covers h', value_congr hvaluation]

/-- **Evaluation gives the recursive value, or else the right missing variable.** In a model that
gives every variable of the formula a value, exactly one value is left on the stack: the
recursive one, which is `true` iff the formula holds if those variables do that are true in the
model. All models that give the variables of the formula these values give it this value,
whatever else is in them and in whatever order. In any other model the formula is refused,
whether or not its value would depend on the missing variable, which is the smallest, in the
order of bytes, of the variables that occur and have no value. -/
theorem evaluate_eq_value_or_missing (f : Formula) (m : Model) :
    ((∀ x, f.Mentions x → m.contains x = true) →
      f.evaluateCovered? m = some (f.value m.valuation) ∧
        f.evaluate m = .ok (f.value m.valuation) ∧
        (f.evaluate m = .ok true ↔ f.Holds fun x => m.get? x = some true) ∧
        (f.evaluate m = .ok false ↔ ¬ f.Holds fun x => m.get? x = some true) ∧
        ∀ m' : Model, (∀ x, f.Mentions x → m'.get? x = m.get? x) →
          f.evaluate m' = f.evaluate m) ∧
      ((∃ x, f.Mentions x ∧ m.contains x = false) →
        ∃ v, f.evaluate m = .error (.missingVariable v) ∧ f.Mentions v ∧ m.contains v = false ∧
          ∀ w, f.Mentions w → m.contains w = false → w ≠ v → bytes v < bytes w) := by
  constructor
  · intro hvalues
    have h : m.covers f = true := by
      simpa only [Model.covers, List.all_eq_true, mem_vars_iff] using hvalues
    have hholds : f.value m.valuation = true ↔ f.Holds fun x => m.get? x = some true := by
      simp only [value_eq_true_iff, Model.valuation_eq_true_iff]
    refine ⟨evaluateCovered?_of_covers h, evaluate_of_covers h, ?_, ?_,
      fun m' => evaluate_congr h⟩
    · rw [evaluate_of_covers h, Except.ok.injEq, hholds]
    · rw [evaluate_of_covers h, Except.ok.injEq, ← hholds, Bool.not_eq_true]
  · intro hmissing
    obtain ⟨v, hv⟩ := Model.exists_firstMissing? hmissing
    exact ⟨v, evaluate_of_firstMissing? hv, Model.firstMissing?_eq_some_iff.mp hv⟩

/-- In the model `{z: F, r: T, q: F, p: T}` the formula `(p|(r&q))` is true. In the model
`{p: T}` it is refused for `q`, the smaller of the two missing variables, although `p` alone
makes it true. -/
theorem evaluate_eq_value_or_missing_disjunction :
    (binary .or (var "p") (binary .and (var "r") (var "q"))).evaluate
        ⟨⟨[("z", false), ("r", true), ("q", false), ("p", true)]⟩⟩ = .ok true ∧
      (binary .or (var "p") (binary .and (var "r") (var "q"))).evaluate ⟨⟨[("p", true)]⟩⟩ =
        .error (.missingVariable "q") := by
  constructor
  · refine ((evaluate_eq_value_or_missing _ _).1 ?_).2.1
    rintro x (rfl | rfl | rfl) <;> decide
  · obtain ⟨v, hv, hmentions, hvalue, hleast⟩ :=
      (evaluate_eq_value_or_missing (binary .or (var "p") (binary .and (var "r") (var "q")))
        ⟨⟨[("p", true)]⟩⟩).2 ⟨"q", .inr (.inr rfl), by decide⟩
    rcases hmentions with rfl | rfl | rfl
    · exact absurd hvalue (by decide)
    · exact absurd (hleast "q" (.inr (.inr rfl)) (by decide) (by decide)) (by decide)
    · exact hv

end Formula

end Propositional

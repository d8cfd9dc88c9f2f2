import Mathlib.Logic.Function.Basic
import Propositional.Proofs.Semantics.Equivalence
import Propositional.Proofs.Substitution.Footprints

/-!
# What Substitutions Mean

A substitution rewrites a formula; what becomes of its value is said here without looking
at the rewritten formula. To replace variables is to evaluate the same formula under other
values: a variable has the value of the formula that replaces it
(`Formula.value_substituteForm`). To replace operators is to evaluate the same formula
with another reading of the operators: one that has a template means what its template
says of the values of the operands (`Formula.valueUnder`). The template is evaluated with
the first operand's value for `p` and the second one's for `q`; where the operator has
fewer operands, `p` or `q` keeps the value that it has outside. Both statements are
inductions on the formula, and the second one uses the first at every template.

If every template says what its operator says (`Operator.pattern`), the reading is the
usual one, so a formula and its expansion are equivalent.

## Main results

* `Formula.value_substituteForm`: the value of a formula with its variables replaced.
* `Formula.value_expandForm`: the value of a formula with its operators replaced.
* `Formula.translates_expandForm`: the same for evaluation in models and for the check of
  the two implications.
* `OperatorSubstitution.meaning_of_templates`: the same for what a substitution answers.
-/

namespace Propositional

/-- The operator applied to the variables that stand for its operands in a template. -/
def Operator.pattern : Operator → Formula
  | constant value => .const value
  | negation => .not (.var "p")
  | binary c => .binary c (.var "p") (.var "q")

/-- The pattern of an operator is well-formed. -/
theorem Operator.wellFormed_pattern (op : Operator) : op.pattern.WellFormed := by
  have hp : isVariable "p" = true := by decide
  have hq : isVariable "q" = true := by decide
  cases op with
  | constant value => exact trivial
  | negation => exact hp
  | binary c => exact ⟨hp, hq⟩

/-- Every template is equivalent to the operator that it replaces. -/
def Templates.Conservative (template : Templates) : Prop :=
  ∀ op t, template op = some t → t.Equivalent op.pattern

/-- A template of variables that stand for operands is well-formed. -/
theorem Templates.Closed.wellFormed {template : Templates} (hclosed : template.Closed)
    {op : Operator} {t : Formula} (ht : template op = some t) : t.WellFormed := by
  rw [Formula.wellFormed_iff]
  intro x hx
  rcases hclosed op t ht x hx with rfl | rfl
  · decide
  · decide

namespace Formula

variable {template : Templates}

/-! ### Replaced variables -/

/-- **To replace variables is to evaluate under other values**: a variable has the value of
the formula that replaces it. -/
theorem value_substituteForm (f : Formula) (r : String → Option Formula) (v : String → Bool) :
    (f.substituteForm r).value v = f.value fun x => ((r x).getD (var x)).value v := by
  induction f with
  | var name => rfl
  | const value => rfl
  | not f ih => rw [substituteForm, value, value, ih]
  | binary c f g ihf ihg => rw [substituteForm, value, value, ihf, ihg]

/-! ### Replaced operators -/

/-- The value of a formula in which the operators that have a template mean what their
templates say of the values of the operands, by recursion. -/
def valueUnder (template : Templates) (v : String → Bool) : Formula → Bool
  | var name => v name
  | const value =>
      match template (.constant value) with
      | some t => t.value v
      | none => value
  | not f =>
      let a := f.valueUnder template v
      match template .negation with
      | some t => t.value (Function.update v "p" a)
      | none => !a
  | binary c f g =>
      let a := f.valueUnder template v
      let b := g.valueUnder template v
      match template (.binary c) with
      | some t => t.value (Function.update (Function.update v "p" a) "q" b)
      | none => c.apply a b

/-- **To replace operators is to evaluate under another reading of them.** -/
theorem value_expandForm (template : Templates) (f : Formula)
    (v : String → Bool) : (f.expandForm template).value v = f.valueUnder template v := by
  induction f with
  | var name => rfl
  | const value =>
      rw [expandForm, valueUnder]
      cases template (.constant value) with
      | none => rfl
      | some t => rfl
  | not f ih =>
      rw [expandForm, valueUnder]
      cases template .negation with
      | none => simp only [value, ih]
      | some t =>
          simp only [value_substituteForm]
          congr 1
          funext x
          by_cases hp : x = "p"
          · subst hp
            simp [ih]
          · simp [hp, value]
  | binary c f g ihf ihg =>
      rw [expandForm, valueUnder]
      cases template (.binary c) with
      | none => simp only [value, ihf, ihg]
      | some t =>
          simp only [value_substituteForm]
          congr 1
          funext x
          by_cases hp : x = "p"
          · subst hp
            simp [ihf]
          · by_cases hq : x = "q"
            · subst hq
              simp [ihg]
            · simp [hp, hq, value]

/-- Expansion brings in no other variables than those of the templates. -/
theorem mentions_of_expandForm (hclosed : template.Closed) {f : Formula} {x : String}
    (hx : (f.expandForm template).Mentions x) : f.Mentions x ∨ x = "p" ∨ x = "q" := by
  rcases mentions_of_expandForm_unbound hx with hx | ⟨key, t, -, ht, hx, -⟩
  · exact .inl hx
  · exact .inr (hclosed key t ht x hx)

/-! ### Templates that say what their operators say -/

/-- **If every template says what its operator says, so does the formula.** -/
theorem valueUnder_eq_value (hclosed : template.Closed) (hconservative : template.Conservative)
    (f : Formula) (v : String → Bool) : f.valueUnder template v = f.value v := by
  have hvalue : ∀ op t, template op = some t → ∀ w, t.value w = op.pattern.value w :=
    fun op t ht => (equivalent_iff (hclosed.wellFormed ht) op.wellFormed_pattern).mp
      (hconservative op t ht)
  induction f with
  | var name => rfl
  | const value =>
      rw [valueUnder]
      cases ht : template (.constant value) with
      | none => rfl
      | some t => exact hvalue _ t ht v
  | not f ih =>
      rw [valueUnder, ih]
      cases ht : template .negation with
      | none => rfl
      | some t =>
          simp only [hvalue _ t ht, Operator.pattern, value, Function.update_self]
  | binary c f g ihf ihg =>
      rw [valueUnder, ihf, ihg]
      cases ht : template (.binary c) with
      | none => rfl
      | some t =>
          have hne : "p" ≠ "q" := by decide
          simp only [hvalue _ t ht, Operator.pattern, value, Function.update_self,
            Function.update_of_ne hne]

/-! ### Evaluation and checks -/

/-- The formula `g` says what `f` says if the operators mean what their templates say. -/
structure Translates (template : Templates) (f g : Formula) : Prop where
  /-- In a model that gives values to `p` and `q` too, `g` has the value of `f` under the
  templates. -/
  evaluate_eq : ∀ m : Model, m.covers f = true → m.contains "p" = true → m.contains "q" = true →
    g.evaluate m = .ok (f.valueUnder template m.valuation)
  /-- If every template is equivalent to its operator, a model that covers both formulas gives
  them the same value. -/
  evaluate_eq_evaluate : template.Conservative → ∀ m : Model, m.covers f = true →
    m.covers g = true → ∃ b, f.evaluate m = .ok b ∧ g.evaluate m = .ok b
  /-- In that case the formulas are also found to imply each other. -/
  isTautology_eq : template.Conservative → ∀ config : PoolConfig,
    (binary .and (binary .implies f g) (binary .implies g f)).vars.length < 64 →
      (binary .and (binary .implies f g) (binary .implies g f)).isTautology config = .ok true

/-- A model covers the expansion of a formula that it covers if it gives `p` and `q` values
too. -/
theorem covers_expandForm (hclosed : template.Closed) {f : Formula} {m : Model}
    (hf : m.covers f = true) (hp : m.contains "p" = true) (hq : m.contains "q" = true) :
    m.covers (f.expandForm template) = true := by
  simp only [Model.covers, List.all_eq_true, mem_vars_iff] at hf ⊢
  intro x hx
  rcases mentions_of_expandForm hclosed hx with hx | rfl | rfl
  · exact hf x hx
  · exact hp
  · exact hq

/-- **The expansion of a formula says what the formula says under the templates.** -/
theorem translates_expandForm (hclosed : template.Closed) (f : Formula) :
    f.Translates template (f.expandForm template) where
  evaluate_eq := by
    intro m hf hp hq
    rw [evaluate_of_covers (covers_expandForm hclosed hf hp hq), value_expandForm]
  evaluate_eq_evaluate := by
    intro hconservative m hf hg
    refine ⟨f.value m.valuation, evaluate_of_covers hf, ?_⟩
    rw [evaluate_of_covers hg, value_expandForm, valueUnder_eq_value hclosed hconservative]
  isTautology_eq := by
    intro hconservative config hlimit
    refine isTautology_implications config hlimit fun v => ?_
    rw [value_expandForm, valueUnder_eq_value hclosed hconservative]

end Formula

namespace OperatorSubstitution

/-- **A substitution of operators has the meaning that its templates give.** After every
history of insertions and applications, what a formula is rewritten to says what the
formula says if each operator in the current map means what its template says of the values
of the operands, and every other operator what it always means. So does the formula that a
new substitution returns for any list of templates whose variables all stand for operands,
where the last template for an operator is in force. -/
theorem meaning_of_templates (f : Formula) :
    (∀ before : List (SubstitutionCall Operator),
      f.Translates (kind.after before).map.get? ((kind.after before).apply f).1) ∧
      ∀ entries : List (Operator × Formula),
        (∀ e ∈ entries, ∀ x, e.2.Mentions x → x = "p" ∨ x = "q") →
          ∃ g, f.substituteOperators entries = .ok g ∧
            f.Translates (fun op => OrderedMap.lookup op entries.reverse) g := by
  have hhistory : ∀ before : List (SubstitutionCall Operator),
      f.Translates (kind.after before).map.get? ((kind.after before).apply f).1 := by
    intro before
    have hstands := follows.invariant before
    have happly : ((kind.after before).apply f).1 = f.expandForm (law.assigned before) :=
      (follows.apply f hstands).1
    rw [hstands.get?_eq, happly]
    exact Formula.translates_expandForm (closed_assigned before) f
  refine ⟨hhistory, fun entries hvars => ?_⟩
  have hfault : ∀ e ∈ entries, law.fault? e.1 e.2 = none := fun e he =>
    Option.map_eq_none_iff.mpr (strayVariable?_eq_none_iff.mpr (hvars e he))
  have hinsert : empty.insertAll entries =
      .ok (kind.after (SubstitutionCall.insertions entries)) := follows.foldlM_insert hfault
  refine ⟨((kind.after (SubstitutionCall.insertions entries)).apply f).1, ?_, ?_⟩
  · rw [Formula.substituteOperators, hinsert]
    rfl
  · rw [← SubstitutionLaw.assigned_insertions hfault, ← (follows.invariant _).get?_eq]
    exact hhistory _

/-- With `~p` for `T` and `(q->p)` for `&`, the formula `(x&T)` is false in the model
`{p: F, q: F, x: F}`: the constant takes the value of `~p` from the model, and the
conjunction finds its operands' values at `p` and `q`. -/
theorem meaning_of_templates_unbound :
    ∃ g, (Formula.binary .and (.var "x") (.const true)).substituteOperators
        [(.constant true, .not (.var "p")),
          (.binary .and, .binary .implies (.var "q") (.var "p"))] = .ok g ∧
      g.evaluate ⟨⟨[("p", false), ("q", false), ("x", false)]⟩⟩ = .ok false := by
  obtain ⟨g, hg, htranslates⟩ := (meaning_of_templates
    (Formula.binary .and (.var "x") (.const true))).2
      [(.constant true, .not (.var "p")), (.binary .and, .binary .implies (.var "q") (.var "p"))]
      (by simp [Formula.Mentions, eq_comm])
  exact ⟨g, hg, htranslates.evaluate_eq _ (by decide) (by decide) (by decide)⟩

end OperatorSubstitution

end Propositional

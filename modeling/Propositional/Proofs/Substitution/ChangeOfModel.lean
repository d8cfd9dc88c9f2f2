import Propositional.Proofs.Substitution.Meaning

/-!
# A Substitution Is a Change of Model

To evaluate a formula in which variables have been replaced is to evaluate the formula itself in
another model: one in which a variable that has been replaced has the value of its replacement,
and any other variable the value it had (`Model.through`). A replacement is evaluated in the old
model, even if it mentions variables that are replaced themselves; so variables may be swapped,
or replaced in a circle.

If a model covers the formula with its variables replaced, it covers every replacement of a
variable that the formula mentions (`Model.covers_of_substituteForm`). So these all have values,
and there is such another model.

## Main results

* `Formula.evaluate_substituteForm`: the law for the recursion.
* `Model.exists_through`: there is a model to change to.
* `VariableSubstitution.evaluate_apply`: the law for what substitutions answer.
-/

namespace Propositional

namespace Model

variable {m : Model} {r : String → Option Formula} {f : Formula}

/-- The value that a variable has through a replacement: that of the formula which it is replaced
by, and its own one if it is not replaced. -/
def through (m : Model) (r : String → Option Formula) (x : String) : Option Bool :=
  match r x with
  | some t => (t.evaluate m).toOption
  | none => m.get? x

/-- A variable has a value through a replacement if the model covers what stands for it. -/
theorem through_eq_some {x : String} (h : m.covers ((r x).getD (.var x)) = true) :
    m.through r x = some (((r x).getD (.var x)).value m.valuation) := by
  rw [through]
  cases hr : r x with
  | some t =>
      rw [hr, Option.getD_some] at h
      simp only [Formula.evaluate_of_covers h, Except.toOption, Option.getD_some]
  | none =>
      rw [hr, Option.getD_none] at h
      exact covers_iff.mp h x rfl

/-- A model that covers the formula with its variables replaced covers what stands for them. -/
theorem covers_of_substituteForm (h : m.covers (f.substituteForm r) = true) {x : String}
    (hx : f.Mentions x) : m.covers ((r x).getD (.var x)) = true :=
  covers_iff.mpr fun y hy =>
    covers_iff.mp h y (Formula.mentions_substituteForm_iff.mpr ⟨x, hx, hy⟩)

/-- The model that gives each of the names its value under `v`. -/
def tabulate (names : List String) (v : String → Bool) : Model :=
  ⟨⟨names.map fun x => (x, v x)⟩⟩

/-- It gives values to these names, in this order. -/
theorem vars_tabulate (names : List String) (v : String → Bool) :
    (tabulate names v).vars = names := by
  change (names.map fun x => (x, v x)).map Prod.fst = names
  rw [List.map_map]
  exact List.map_id' names

/-- The value of each name is the one it has under `v`. -/
theorem get?_tabulate {names : List String} (v : String → Bool) {x : String} (hx : x ∈ names) :
    (tabulate names v).get? x = some (v x) :=
  OrderedMap.lookup_map_of_mem id v hx fun _ _ hyx => congrArg v hyx

/-- There is a model in which the variables of the formula have the values that they have through
the replacement. -/
theorem exists_through (hf : f.WellFormed) (h : m.covers (f.substituteForm r) = true) :
    ∃ m' : Model, m'.WellFormed ∧ ∀ x, f.Mentions x → m'.get? x = m.through r x := by
  refine ⟨tabulate f.vars fun x => ((r x).getD (.var x)).value m.valuation, ?_, fun x hx => ?_⟩
  · rw [WellFormed, vars_tabulate]
    exact ⟨f.nodup_vars, hf.isVariable_of_mem_vars⟩
  · rw [through_eq_some (covers_of_substituteForm h hx),
      get?_tabulate _ ((f.mem_vars_iff x).mpr hx)]

end Model

/-- **The substitution lemma.** A formula with its variables replaced has in a model the value
that the formula has in every model whose values are those through the replacement. -/
theorem Formula.evaluate_substituteForm {f : Formula} {r : String → Option Formula} {m m' : Model}
    (h : m.covers (f.substituteForm r) = true)
    (hthrough : ∀ x, f.Mentions x → m'.get? x = m.through r x) :
    ∃ b, (f.substituteForm r).evaluate m = .ok b ∧ f.evaluate m' = .ok b := by
  have hvalue : ∀ x, f.Mentions x →
      m'.get? x = some (((r x).getD (var x)).value m.valuation) := fun x hx => by
    rw [hthrough x hx, Model.through_eq_some (Model.covers_of_substituteForm h hx)]
  have hvaluation : ∀ x, f.Mentions x →
      m'.valuation x = ((r x).getD (var x)).value m.valuation := fun x hx => by
    rw [Model.valuation, hvalue x hx, Option.getD_some]
  have hcovers : m'.covers f = true := Model.covers_iff.mpr fun x hx => by
    rw [hvalue x hx, hvaluation x hx]
  refine ⟨_, evaluate_of_covers h, ?_⟩
  rw [evaluate_of_covers hcovers, value_substituteForm, value_congr hvaluation]

namespace VariableSubstitution

/-- **A substitution is a change of model.** For every substitution of variables, with any history
of insertions and applications, and every model that covers what it answers for a formula:
evaluation gives this answer the value that it gives the formula itself in every model that gives
each variable of the formula the value of what the variable is mapped to, and its own value if it
is mapped to nothing. Such a model exists. -/
theorem evaluate_apply (before : List (SubstitutionCall String)) (f : Formula) (m : Model)
    (h : m.covers ((kind.after before).apply f).1 = true) :
    (∀ m' : Model,
      (∀ x, f.Mentions x → m'.get? x = m.through (kind.after before).map.get? x) →
        ((kind.after before).apply f).1.evaluate m = f.evaluate m' ∧
          ∃ b, f.evaluate m' = .ok b) ∧
      (f.WellFormed → ∃ m' : Model, m'.WellFormed ∧
        ∀ x, f.Mentions x → m'.get? x = m.through (kind.after before).map.get? x) := by
  rw [apply_after] at h ⊢
  refine ⟨fun m' hthrough => ?_, fun hf => Model.exists_through hf h⟩
  obtain ⟨b, hreplaced, hb⟩ := Formula.evaluate_substituteForm h hthrough
  exact ⟨hreplaced.trans hb.symm, b, hb⟩

/-- With `q` for `p` and `~p` for `q`, the formula `(p->q)` becomes `(q->~p)`, which is false in
the model `{p: T, q: T}` because `(p->q)` is in the model `{p: T, q: F}`. -/
theorem evaluate_apply_circle :
    ((kind.after [.insert "p" (.var "q"), .apply (.var "q"), .insert "q" (.not (.var "p"))]).apply
      (.binary .implies (.var "p") (.var "q"))).1.evaluate
        ⟨⟨[("p", true), ("q", true)]⟩⟩ = .ok false := by
  have hmap : (kind.after [.insert "p" (.var "q"), .apply (.var "q"),
      .insert "q" (.not (.var "p"))]).map = ⟨[("p", .var "q"), ("q", .not (.var "p"))]⟩ := rfl
  have hcovers : Model.covers ⟨⟨[("p", true), ("q", true)]⟩⟩
      ((kind.after [.insert "p" (.var "q"), .apply (.var "q"),
        .insert "q" (.not (.var "p"))]).apply
          (.binary .implies (.var "p") (.var "q"))).1 = true := by
    rw [apply_after, hmap]
    decide
  have hvalue : (Formula.binary .implies (.var "p") (.var "q")).evaluate
      ⟨⟨[("p", true), ("q", false)]⟩⟩ = .ok false := Formula.evaluate_of_covers (by decide)
  refine ((evaluate_apply _ _ _ hcovers).1 ⟨⟨[("p", true), ("q", false)]⟩⟩ ?_).1.trans hvalue
  rw [hmap]
  rintro x (rfl | rfl)
  · refine Eq.symm (Eq.trans (Model.through_eq_some ?_) rfl)
    decide
  · refine Eq.symm (Eq.trans (Model.through_eq_some ?_) rfl)
    decide

end VariableSubstitution

end Propositional

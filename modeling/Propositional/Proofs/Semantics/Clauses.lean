import Propositional.Formula.Construction
import Propositional.Proofs.Semantics.Synthesis

/-!
# Clauses Single Out Their Model

The clause for a model is made of one literal for each of its variables. In a model that gives all
of these a value it can be evaluated (`NormalForm.evaluate_clause`), and it has the value that its
form selects, `T` in the disjunctive and `F` in the conjunctive form, iff that model gives them the
values which they have in the first one (`Model.Extends`). The order in which the variables were
given their values does not matter, nor does what else is in the other model.

No literal is refused: the clause is the same if each of its variables is built by the checked
builder (`NormalForm.checkedClause_eq`), since the variables of a model have valid names.

## Main results

* `NormalForm.checkedClause_eq`: the checked builder refuses no variable of a model.
* `NormalForm.evaluate_clause_iff`, `NormalForm.evaluate_clause_iff_not`: what the clause in either
  form is worth in other models.
* `NormalForm.clauses_single_out`: the clauses in both forms single out their model.
-/

namespace Propositional

/-- The model gives the variables of `m` the values that they have in `m`, and may give others
values as well. -/
def Model.Extends (m' m : Model) : Prop :=
  ∀ x ∈ m.vars, m'.get? x = m.get? x

/-- If each variable is named once, this can be said of the entries. -/
theorem Model.extends_iff {m m' : Model} (h : m.vars.Nodup) :
    m'.Extends m ↔ ∀ e ∈ m.entries, m'.get? e.1 = some e.2 := by
  have hvalue : ∀ e ∈ m.entries, m.get? e.1 = some e.2 := fun e he =>
    (OrderedMap.lookup_eq_some_iff h).mpr he
  constructor
  · intro hextends e he
    rw [hextends e.1 (List.mem_map_of_mem he), hvalue e he]
  · intro hentries x hx
    obtain ⟨e, he, rfl⟩ := List.mem_map.mp hx
    rw [hentries e he, hvalue e he]

namespace NormalForm

/-! ### Checked literals -/

/-- The literal of an entry of a model, whose variable is built by the checked builder. -/
def checkedLiteral (form : NormalForm) (entry : String × Bool) : Except SemanticsError Formula :=
  match Formula.ofName? entry.1 with
  | .ok x => .ok (if entry.2 == form.selected then x else .not x)
  | .error _ => .error (.invalidVariable entry.1)

/-- The clause with one more checked literal. -/
def joinChecked (form : NormalForm) (clause : Except SemanticsError Formula)
    (entry : String × Bool) : Except SemanticsError Formula := do
  return .binary form.inner (← clause) (← form.checkedLiteral entry)

/-- The clause for the model, to which one checked literal is joined after the other. -/
def checkedClause (form : NormalForm) (m : Model) : Except SemanticsError Formula :=
  match m.entries with
  | [] => .error .emptyVariableList
  | entry :: rest => rest.foldl form.joinChecked (form.checkedLiteral entry)

/-- A valid name is not refused. -/
theorem checkedLiteral_eq (form : NormalForm) {entry : String × Bool}
    (h : isVariable entry.1 = true) :
    form.checkedLiteral entry = .ok (form.entryLiteral entry) := by
  rw [checkedLiteral, Formula.ofName?, if_pos h]
  rfl

/-- Literals of valid names are joined to any clause. -/
theorem foldl_joinChecked (form : NormalForm) {entries : List (String × Bool)}
    (h : ∀ e ∈ entries, isVariable e.1 = true) (f : Formula) :
    entries.foldl form.joinChecked (.ok f) =
      .ok (chain form.inner f (entries.map form.entryLiteral)) := by
  induction entries generalizing f with
  | nil => rfl
  | cons e entries ih =>
      obtain ⟨he, hrest⟩ := List.forall_mem_cons.mp h
      rw [List.foldl_cons, joinChecked, form.checkedLiteral_eq he]
      exact ih hrest _

/-- **The checked builder refuses no variable of a model**, so that the clause is the same. -/
theorem checkedClause_eq (form : NormalForm) {m : Model} (h : ∀ x ∈ m.vars, isVariable x = true) :
    form.checkedClause m = form.clause m := by
  have hentries : ∀ e ∈ m.entries, isVariable e.1 = true := fun e he =>
    h e.1 (List.mem_map_of_mem he)
  rw [checkedClause, clause]
  cases hcons : m.entries with
  | nil => rfl
  | cons e rest =>
      rw [hcons] at hentries
      obtain ⟨he, hrest⟩ := List.forall_mem_cons.mp hentries
      change rest.foldl form.joinChecked (form.checkedLiteral e) = _
      rw [form.checkedLiteral_eq he, form.foldl_joinChecked hrest]

/-! ### The value of a clause -/

variable {form : NormalForm} {m m' : Model} {f : Formula}

/-- The variables of a clause are those of the model. -/
theorem vars_clause_perm (h : form.clause m = .ok f) (hm : m.vars.Nodup) : f.vars.Perm m.vars := by
  rw [List.perm_ext_iff_of_nodup f.nodup_vars hm]
  exact fun x => (Formula.mem_vars_iff x f).trans ((singlesOut_of_clause h).mentions_iff x)

/-- So the clause can be evaluated wherever these have values. -/
theorem evaluate_clause (h : form.clause m = .ok f)
    (hassigns : ∀ x ∈ m.vars, m'.contains x = true) :
    f.evaluate m' = .ok (f.value m'.valuation) := by
  refine Formula.evaluate_of_covers (List.all_eq_true.mpr fun x hx => hassigns x ?_)
  exact ((singlesOut_of_clause h).mentions_iff x).mp ((Formula.mem_vars_iff x f).mp hx)

/-- **The clause for a model is worth what its form selects in the models that extend it.** -/
theorem evaluate_clause_iff (h : form.clause m = .ok f) (hm : m.vars.Nodup)
    (hassigns : ∀ x ∈ m.vars, m'.contains x = true) :
    f.evaluate m' = .ok form.selected ↔ m'.Extends m := by
  rw [evaluate_clause h hassigns, Except.ok.injEq, (singlesOut_of_clause h).value_iff,
    Model.extends_iff hm]
  refine forall₂_congr fun e he => ?_
  obtain ⟨b, hb⟩ := Option.isSome_iff_exists.mp (hassigns e.1 (List.mem_map_of_mem he))
  have hget : m'.get? e.1 = some b := hb
  rw [Model.valuation, hget, Option.getD_some, Option.some.injEq]

/-- In all others that give its variables values it is worth the opposite. -/
theorem evaluate_clause_iff_not (h : form.clause m = .ok f) (hm : m.vars.Nodup)
    (hassigns : ∀ x ∈ m.vars, m'.contains x = true) :
    f.evaluate m' = .ok (!form.selected) ↔ ¬ m'.Extends m := by
  rw [← evaluate_clause_iff h hm hassigns, evaluate_clause h hassigns, Except.ok.injEq,
    Except.ok.injEq]
  exact Bool.eq_not

/-- **Clauses single out their model.** For every model with some variables, in whatever order they
were given their values, there is a clause in either form, of which the checked builder refuses
nothing, and its variables are just those of the model. In every model that gives them values, that
of the disjunctive form is true iff they have the values there which they have in the first model,
and false otherwise, and that of the conjunctive form is false iff they have them, and true
otherwise. -/
theorem clauses_single_out {m : Model} (hm : m.WellFormed) (hne : m.vars ≠ []) :
    (∃ f, disjunctive.clause m = .ok f ∧ disjunctive.checkedClause m = .ok f ∧
      f.vars.Perm m.vars ∧
      ∀ m' : Model, (∀ x ∈ m.vars, m'.contains x = true) →
        (f.evaluate m' = .ok true ↔ ∀ x ∈ m.vars, m'.get? x = m.get? x) ∧
        (f.evaluate m' = .ok false ↔ ¬ ∀ x ∈ m.vars, m'.get? x = m.get? x)) ∧
    (∃ f, conjunctive.clause m = .ok f ∧ conjunctive.checkedClause m = .ok f ∧
      f.vars.Perm m.vars ∧
      ∀ m' : Model, (∀ x ∈ m.vars, m'.contains x = true) →
        (f.evaluate m' = .ok false ↔ ∀ x ∈ m.vars, m'.get? x = m.get? x) ∧
        (f.evaluate m' = .ok true ↔ ¬ ∀ x ∈ m.vars, m'.get? x = m.get? x)) := by
  obtain ⟨f, hf⟩ := disjunctive.exists_clause hne
  obtain ⟨g, hg⟩ := conjunctive.exists_clause hne
  refine ⟨⟨f, hf, (checkedClause_eq _ hm.2).trans hf, vars_clause_perm hf hm.1, ?_⟩,
    ⟨g, hg, (checkedClause_eq _ hm.2).trans hg, vars_clause_perm hg hm.1, ?_⟩⟩
  · intro m' hassigns
    exact ⟨evaluate_clause_iff hf hm.1 hassigns, evaluate_clause_iff_not hf hm.1 hassigns⟩
  · intro m' hassigns
    exact ⟨evaluate_clause_iff hg hm.1 hassigns, evaluate_clause_iff_not hg hm.1 hassigns⟩

/-- The clauses for the model `{q7: F, p: T}` are decided in the model `{p: T, x: T, q7: F}`, which
extends it, and in `{p: F, q7: F}`, which does not. -/
theorem clauses_single_out_two_variables :
    (∃ f, disjunctive.clause ⟨⟨[("q7", false), ("p", true)]⟩⟩ = .ok f ∧
      f.evaluate ⟨⟨[("p", true), ("x", true), ("q7", false)]⟩⟩ = .ok true ∧
      f.evaluate ⟨⟨[("p", false), ("q7", false)]⟩⟩ = .ok false) ∧
    ∃ f, conjunctive.clause ⟨⟨[("q7", false), ("p", true)]⟩⟩ = .ok f ∧
      f.evaluate ⟨⟨[("p", true), ("x", true), ("q7", false)]⟩⟩ = .ok false ∧
      f.evaluate ⟨⟨[("p", false), ("q7", false)]⟩⟩ = .ok true := by
  have hm : Model.WellFormed ⟨⟨[("q7", false), ("p", true)]⟩⟩ := ⟨by decide, by decide⟩
  obtain ⟨⟨f, hf, -, -, hvalue⟩, ⟨g, hg, -, -, hvalue'⟩⟩ := clauses_single_out hm (by decide)
  have hassigns : ∀ x ∈ ["q7", "p"],
      Model.contains ⟨⟨[("p", true), ("x", true), ("q7", false)]⟩⟩ x = true := by decide
  have hassigns' : ∀ x ∈ ["q7", "p"],
      Model.contains ⟨⟨[("p", false), ("q7", false)]⟩⟩ x = true := by decide
  exact ⟨⟨f, hf, (hvalue _ hassigns).1.mpr (by decide), (hvalue _ hassigns').2.mpr (by decide)⟩,
    ⟨g, hg, (hvalue' _ hassigns).1.mpr (by decide), (hvalue' _ hassigns').2.mpr (by decide)⟩⟩

end NormalForm

end Propositional

import Mathlib.Data.List.Sort
import Propositional.Proofs.Semantics.Compilation
import Propositional.Proofs.WorkerPool.Collecting
import Propositional.Proofs.WorkerPool.Searching
import Propositional.TruthTable.Rendering

/-!
# Truth Tables Decide

A formula is checked in the models over its own variables only, by a program, by any
workers. Nevertheless the answer is about all models. The value of a formula depends on
its own variables only, every assignment of values to these is that of one of the models
that are checked (`Enumeration.exists_modelOf`), and every model that covers the formula
gives it the value under such an assignment (`Formula.evaluate_of_covers`). So each check
tells whether the recursive value is the one asked for under every assignment of values to
all names, and that is the case iff evaluation gives it in every covering model.

## Main results

* `Formula.truthTable_eq_ok`, `Formula.exists_isTautology`, `Formula.exists_isContradiction`,
  `Formula.exists_isSatisfiable`: the checks in terms of the recursive value.
* `Formula.forall_covering_iff`, `Formula.exists_covering_iff`: the recursive value in
  terms of the covering models.
* `Formula.analyses_decide`: the checks in terms of the covering models, and what is
  refused.
-/

namespace Propositional

namespace Formula

variable {f : Formula}

/-- An ascending list of the names that a formula mentions is its list of variables. -/
theorem vars_eq_of_sorted {names : List String} (hsorted : names.Pairwise (· < ·))
    (h : ∀ x, f.Mentions x ↔ x ∈ names) : f.vars = names := by
  refine f.sorted_vars.eq_of_mem_iff hsorted fun x => ?_
  rw [mem_vars_iff, h]

/-! ### Refusals -/

/-- A formula with too many variables has no truth table. -/
theorem truthTable_eq_error (config : PoolConfig) (h : variableLimit ≤ f.vars.length) :
    f.truthTable config = .error (.tooManyVariables f.vars.length) := by
  rw [truthTable, numModels_eq_error h]
  rfl

/-- Nor can it be rendered. -/
theorem renderTruthTable_eq_error (config : PoolConfig) (h : variableLimit ≤ f.vars.length) :
    f.renderTruthTable config = .error (.tooManyVariables f.vars.length) := by
  rw [renderTruthTable, truthTable_eq_error config h]
  rfl

/-- A negation has the variables of its operand. -/
theorem vars_not (f : Formula) : (not f).vars = f.vars := by
  simp only [vars, names]

/-- The formula is not checked either. -/
theorem isTautology_eq_error (config : PoolConfig) (h : variableLimit ≤ f.vars.length) :
    f.isTautology config = .error (.tooManyVariables f.vars.length) := by
  rw [isTautology, numModels_eq_error h]
  rfl

/-- Nor is its negation, which has the same variables. -/
theorem isContradiction_eq_error (config : PoolConfig) (h : variableLimit ≤ f.vars.length) :
    f.isContradiction config = .error (.tooManyVariables f.vars.length) := by
  rw [← f.vars_not] at h ⊢
  exact isTautology_eq_error config h

/-- So it is not known to be satisfiable. -/
theorem isSatisfiable_eq_error (config : PoolConfig) (h : variableLimit ≤ f.vars.length) :
    f.isSatisfiable config = .error (.tooManyVariables f.vars.length) := by
  rw [isSatisfiable, isContradiction_eq_error config h]
  rfl

/-! ### The checks and the recursive value -/

/-- The program of a formula over its own variables has the values in the models over
these. -/
theorem exists_compile_vars (f : Formula) :
    ∃ program, Program.compile f f.vars = .ok program ∧
      ∀ number, program.eval number = f.value (Enumeration.modelOf f.vars number).valuation :=
  Program.exists_compile f.nodup_vars fun x => (mem_vars_iff x f).mpr

/-- **The truth table lists the values in all models over the variables of the formula.** -/
theorem truthTable_eq_ok (config : PoolConfig) (h : f.vars.length < variableLimit) :
    f.truthTable config = .ok ((List.range (2 ^ f.vars.length)).map fun number =>
      f.value (Enumeration.modelOf f.vars number).valuation) := by
  obtain ⟨program, hcompile, heval⟩ := f.exists_compile_vars
  have htable : f.truthTable config =
      .ok (config.valuesBelow (2 ^ f.vars.length) program.eval) := by
    rw [truthTable, numModels_eq_ok h, hcompile]
    rfl
  rw [htable, config.valuesBelow_eq, funext heval]

/-- Under every assignment the value is that in one of these models. -/
theorem exists_number_value (f : Formula) (v : String → Bool) :
    ∃ number < 2 ^ f.vars.length,
      f.value (Enumeration.modelOf f.vars number).valuation = f.value v := by
  obtain ⟨number, hlt, hvalue⟩ := Enumeration.exists_modelOf_value f.nodup_vars v
  exact ⟨number, hlt, hvalue f fun x => (mem_vars_iff x f).mpr⟩

/-- What is so in all of them is so under every assignment. -/
theorem forall_number_iff {b : Bool} :
    (∀ number < 2 ^ f.vars.length,
        f.value (Enumeration.modelOf f.vars number).valuation = b) ↔ ∀ v, f.value v = b := by
  constructor
  · intro h v
    obtain ⟨number, hlt, hvalue⟩ := f.exists_number_value v
    exact hvalue.symm.trans (h number hlt)
  · exact fun h number _ => h _

/-- **The first check tells whether the formula is true under every assignment.** -/
theorem exists_isTautology (config : PoolConfig) (h : f.vars.length < variableLimit) :
    ∃ b, f.isTautology config = .ok b ∧ (b = true ↔ ∀ v, f.value v = true) := by
  obtain ⟨program, hcompile, heval⟩ := f.exists_compile_vars
  refine ⟨config.holdsBelow (2 ^ f.vars.length) program.eval, ?_, ?_⟩
  · rw [isTautology, numModels_eq_ok h, hcompile]
    rfl
  · rw [config.holdsBelow_iff, funext heval, forall_number_iff]

/-- The second one tells whether it is false under every assignment. -/
theorem exists_isContradiction (config : PoolConfig) (h : f.vars.length < variableLimit) :
    ∃ b, f.isContradiction config = .ok b ∧ (b = true ↔ ∀ v, f.value v = false) := by
  obtain ⟨b, hcheck, hb⟩ := exists_isTautology config (f.vars_not.symm ▸ h)
  refine ⟨b, hcheck, ?_⟩
  simpa only [value, Bool.not_eq_true'] using hb

/-- The third one tells whether it is true under some assignment. -/
theorem exists_isSatisfiable (config : PoolConfig) (h : f.vars.length < variableLimit) :
    ∃ b, f.isSatisfiable config = .ok b ∧ (b = true ↔ ∃ v, f.value v = true) := by
  obtain ⟨b, hcheck, hb⟩ := exists_isContradiction config h
  refine ⟨!b, by rw [isSatisfiable, hcheck]; rfl, ?_⟩
  rw [Bool.not_eq_true', ← Bool.not_eq_true, hb]
  simp only [not_forall, Bool.not_eq_false]

/-! ### The recursive value and the covering models -/

/-- The models over the variables of a formula cover it. -/
theorem covers_modelOf_vars (f : Formula) (number : Nat) :
    (Enumeration.modelOf f.vars number).covers f = true :=
  Enumeration.covers_modelOf f.nodup_vars number fun x => (mem_vars_iff x f).mpr

/-- Under every assignment the value is that in some covering model. -/
theorem exists_covering (hf : f.WellFormed) (v : String → Bool) :
    ∃ m : Model, m.WellFormed ∧ m.covers f = true ∧ f.evaluate m = .ok (f.value v) := by
  obtain ⟨number, -, hvalue⟩ := f.exists_number_value v
  have hwf := Enumeration.wellFormed_modelOf hf.isVariable_of_mem_vars f.nodup_vars number
  refine ⟨_, hwf, f.covers_modelOf_vars number, ?_⟩
  rw [evaluate_of_covers (f.covers_modelOf_vars number), hvalue]

/-- The entries of the truth table are what evaluation gives in the models over the
variables of the formula, one after the other. -/
theorem exists_truthTable (hf : f.WellFormed) (config : PoolConfig)
    (h : f.vars.length < variableLimit) :
    ∃ models values, Enumeration.ofVariables f.vars = .ok models ∧
      f.truthTable config = .ok values ∧ values.length = 2 ^ f.vars.length ∧
      ∀ i (hi : i < values.length),
        ∃ m, models.modelAt? i = some m ∧ f.evaluate m = .ok values[i] := by
  refine ⟨.start f.vars, _,
    Enumeration.ofVariables_eq_ok hf.isVariable_of_mem_vars f.nodup_vars h,
    truthTable_eq_ok config h, by rw [List.length_map, List.length_range], fun i hi => ?_⟩
  rw [List.length_map, List.length_range] at hi
  refine ⟨_, Enumeration.modelAt?_start hi, ?_⟩
  rw [evaluate_of_covers (f.covers_modelOf_vars i), List.getElem_map, List.getElem_range]

/-- Evaluation gives a value in all covering models iff the formula has it under every
assignment. -/
theorem forall_covering_iff (hf : f.WellFormed) {b : Bool} :
    (∀ m : Model, m.WellFormed → m.covers f = true → f.evaluate m = .ok b) ↔
      ∀ v, f.value v = b := by
  constructor
  · intro h v
    obtain ⟨m, hm, hcovers, hvalue⟩ := exists_covering hf v
    exact Except.ok.inj (hvalue.symm.trans (h m hm hcovers))
  · intro h m _ hcovers
    rw [evaluate_of_covers hcovers, h]

/-- Evaluation gives a value in some covering model iff the formula has it under some
assignment. -/
theorem exists_covering_iff (hf : f.WellFormed) {b : Bool} :
    (∃ m : Model, m.WellFormed ∧ m.covers f = true ∧ f.evaluate m = .ok b) ↔
      ∃ v, f.value v = b := by
  constructor
  · rintro ⟨m, -, hcovers, hvalue⟩
    exact ⟨m.valuation, Except.ok.inj ((evaluate_of_covers hcovers).symm.trans hvalue)⟩
  · rintro ⟨v, rfl⟩
    exact exists_covering hf v

/-- **The checks decide truth in all models.** Whatever workers are asked for, a formula
with too many variables is refused, and no other one: its truth table has an entry for
each model over its variables, the value in that model, and it is found to be a tautology,
a contradiction, or satisfiable iff evaluation makes it true in all models that cover it,
false in all of them, or true in some, whatever other variables they give values to. -/
theorem analyses_decide (hf : f.WellFormed) (config : PoolConfig) :
    (64 ≤ f.vars.length →
      f.truthTable config = .error (.tooManyVariables f.vars.length) ∧
        f.isTautology config = .error (.tooManyVariables f.vars.length) ∧
        f.isContradiction config = .error (.tooManyVariables f.vars.length) ∧
        f.isSatisfiable config = .error (.tooManyVariables f.vars.length) ∧
        f.renderTruthTable config = .error (.tooManyVariables f.vars.length)) ∧
      (f.vars.length < 64 →
        (∃ models values, Enumeration.ofVariables f.vars = .ok models ∧
          f.truthTable config = .ok values ∧ values.length = 2 ^ f.vars.length ∧
          ∀ i (hi : i < values.length),
            ∃ m, models.modelAt? i = some m ∧ f.evaluate m = .ok values[i]) ∧
        (∃ b, f.isTautology config = .ok b ∧ (b = true ↔
          ∀ m : Model, m.WellFormed → m.covers f = true → f.evaluate m = .ok true)) ∧
        (∃ b, f.isContradiction config = .ok b ∧ (b = true ↔
          ∀ m : Model, m.WellFormed → m.covers f = true → f.evaluate m = .ok false)) ∧
        (∃ b, f.isSatisfiable config = .ok b ∧ (b = true ↔
          ∃ m : Model, m.WellFormed ∧ m.covers f = true ∧ f.evaluate m = .ok true)) ∧
        ∃ text, f.renderTruthTable config = .ok text) := by
  constructor
  · intro hmany
    exact ⟨truthTable_eq_error config hmany, isTautology_eq_error config hmany,
      isContradiction_eq_error config hmany, isSatisfiable_eq_error config hmany,
      renderTruthTable_eq_error config hmany⟩
  · intro hfew
    refine ⟨exists_truthTable hf config hfew, ?_, ?_, ?_, ?_⟩
    · simpa only [forall_covering_iff hf] using exists_isTautology config hfew
    · simpa only [forall_covering_iff hf] using exists_isContradiction config hfew
    · simpa only [exists_covering_iff hf] using exists_isSatisfiable config hfew
    · exact ⟨_, by rw [renderTruthTable, truthTable_eq_ok config hfew]; rfl⟩

/-- Four workers that take one number at a time find that `(p->q7)` is no tautology and no
contradiction, but satisfiable. -/
theorem analyses_decide_implication :
    (binary .implies (var "p") (var "q7")).isTautology ⟨4, 0⟩ = .ok false ∧
      (binary .implies (var "p") (var "q7")).isContradiction ⟨4, 0⟩ = .ok false ∧
      (binary .implies (var "p") (var "q7")).isSatisfiable ⟨4, 0⟩ = .ok true := by
  have hp : isVariable "p" = true := by decide
  have hq : isVariable "q7" = true := by decide
  have hwf : (binary .implies (var "p") (var "q7")).WellFormed := ⟨hp, hq⟩
  have hfalse : (binary .implies (var "p") (var "q7")).value (· == "p") = false := by decide
  have htrue : (binary .implies (var "p") (var "q7")).value (· == "q7") = true := by decide
  obtain ⟨-, h⟩ := analyses_decide hwf ⟨4, 0⟩
  obtain ⟨-, ⟨b, htautology, hb⟩, ⟨b', hcontradiction, hb'⟩, ⟨b'', hsatisfiable, hb''⟩, -⟩ :=
    h (by decide)
  rw [forall_covering_iff hwf] at hb hb'
  rw [exists_covering_iff hwf] at hb''
  have hb : b = false :=
    Bool.eq_false_iff.mpr fun hall => absurd (hb.mp hall _) (by rw [hfalse]; decide)
  have hb' : b' = false :=
    Bool.eq_false_iff.mpr fun hall => absurd (hb'.mp hall _) (by rw [htrue]; decide)
  rw [htautology, hcontradiction, hsatisfiable, hb, hb', hb''.mpr ⟨_, htrue⟩]
  exact ⟨rfl, rfl, rfl⟩

end Formula

end Propositional

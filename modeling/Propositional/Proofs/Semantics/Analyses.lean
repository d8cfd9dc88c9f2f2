import Propositional.Analysis
import Propositional.Proofs.Semantics.TruthTables
import Propositional.Proofs.Text.StandardNotation

/-!
# Analyses and the Separate Checks

An analysis makes the second check only where the first one fails, and the third one never. The
answers are those of three checks that know nothing of each other (`Analysis.ofChecks`). Nothing is
false under every assignment and true under every one at once, because there is some assignment,
even to no variables. So a tautology is no contradiction (`Formula.isContradiction_eq_false`), and
the check that is left out would have found this. It would not have been refused either, since all
checks refuse the same formulas, those with too many variables.

## Main definitions

* `Analysis.ofChecks`: the analysis by three checks.

## Main results

* `Analysis.ofFormula_eq_ofChecks`: the shortcut changes nothing.
* `analyze_agrees_with_checks`: what the analysis of a text reports.
-/

namespace Propositional

namespace Formula

variable {f : Formula} {config : PoolConfig}

/-- Only formulas with few enough variables are checked. -/
theorem length_vars_lt_of_isTautology {b : Bool} (h : f.isTautology config = .ok b) :
    f.vars.length < variableLimit := by
  refine Nat.lt_of_not_le fun hmany => ?_
  rw [isTautology_eq_error config hmany] at h
  cases h

/-- **A tautology is no contradiction**, since there is some assignment. -/
theorem isContradiction_eq_false (h : f.isTautology config = .ok true) :
    f.isContradiction config = .ok false := by
  have hfew := length_vars_lt_of_isTautology h
  obtain ⟨b, htautology, hb⟩ := exists_isTautology config hfew
  obtain ⟨b', hcontradiction, hb'⟩ := exists_isContradiction config hfew
  obtain rfl : b = true := Except.ok.inj (htautology.symm.trans h)
  -- any assignment will do, and there is one even if the formula has no variables
  have htrue : f.value (fun _ => false) = true := hb.mp rfl _
  rw [hcontradiction, Except.ok.injEq, Bool.eq_false_iff]
  intro hall
  exact absurd (htrue.symm.trans (hb'.mp hall _)) (by decide)

end Formula

namespace Analysis

/-- The analysis of a formula by three checks, each of which is made whatever the others find. -/
def ofChecks (f : Formula) (config : PoolConfig) : Except SemanticsError Analysis := do
  let isTautology ← f.isTautology config
  let isContradiction ← f.isContradiction config
  let isSatisfiable ← f.isSatisfiable config
  return ⟨f, isTautology, isContradiction, isSatisfiable⟩

/-- **To leave checks out changes nothing**, not even what is refused. -/
theorem ofFormula_eq_ofChecks (f : Formula) (config : PoolConfig) :
    ofFormula f config = ofChecks f config := by
  unfold ofFormula ofChecks
  cases htautology : f.isTautology config with
  | error fault => rfl
  | ok isTautology =>
      cases isTautology with
      | true =>
          have hcontradiction := Formula.isContradiction_eq_false htautology
          simp only [bind, Except.bind, Formula.isSatisfiable, hcontradiction]
          rfl
      | false =>
          simp only [bind, Except.bind, Formula.isSatisfiable]
          cases f.isContradiction config with
          | error fault => rfl
          | ok isContradiction => rfl

/-- An analysis has the formula and the answers of the checks. -/
theorem ofFormula_eq_ok_iff {f : Formula} {config : PoolConfig} {a : Analysis} :
    ofFormula f config = .ok a ↔
      a.formula = f ∧ f.isTautology config = .ok a.isTautology ∧
        f.isContradiction config = .ok a.isContradiction ∧
        f.isSatisfiable config = .ok a.isSatisfiable := by
  rw [ofFormula_eq_ofChecks, ofChecks]
  simp only [bind_eq_ok_iff]
  constructor
  · rintro ⟨_, htautology, _, hcontradiction, _, hsatisfiable, ⟨⟩⟩
    exact ⟨rfl, htautology, hcontradiction, hsatisfiable⟩
  · rintro ⟨rfl, htautology, hcontradiction, hsatisfiable⟩
    exact ⟨_, htautology, _, hcontradiction, _, hsatisfiable, rfl⟩

/-- There is one for each formula with few enough variables. -/
theorem exists_ofFormula {f : Formula} (config : PoolConfig) (h : f.vars.length < variableLimit) :
    ∃ a, ofFormula f config = .ok a := by
  obtain ⟨isTautology, htautology, -⟩ := Formula.exists_isTautology config h
  obtain ⟨isContradiction, hcontradiction, -⟩ := Formula.exists_isContradiction config h
  obtain ⟨isSatisfiable, hsatisfiable, -⟩ := Formula.exists_isSatisfiable config h
  exact ⟨⟨f, isTautology, isContradiction, isSatisfiable⟩,
    ofFormula_eq_ok_iff.mpr ⟨rfl, htautology, hcontradiction, hsatisfiable⟩⟩

/-- There is none for any other formula. -/
theorem ofFormula_eq_error {f : Formula} (config : PoolConfig)
    (h : variableLimit ≤ f.vars.length) :
    ofFormula f config = .error (.tooManyVariables f.vars.length) := by
  rw [ofFormula, Formula.isTautology_eq_error config h]
  rfl

/-- A tautology is reported to be satisfiable and no contradiction. -/
theorem of_isTautology {f : Formula} {config : PoolConfig} {a : Analysis}
    (ha : ofFormula f config = .ok a) (h : a.isTautology = true) :
    a.isContradiction = false ∧ a.isSatisfiable = true := by
  obtain ⟨-, htautology, hcontradiction, hsatisfiable⟩ := ofFormula_eq_ok_iff.mp ha
  have hfalse := Formula.isContradiction_eq_false (h ▸ htautology)
  rw [Formula.isSatisfiable, hfalse] at hsatisfiable
  exact ⟨Except.ok.inj (hcontradiction.symm.trans hfalse), (Except.ok.inj hsatisfiable).symm⟩

end Analysis

/-- **The analysis of a text reports what the separate checks find.** If the text is not parsed, the
analysis fails with the same fault at the same column. If it is, and the formula has too many
variables, their number is reported. Otherwise the formula is returned with the answers of all three
checks, whatever workers are asked for, although these are not all made. So nothing is ever reported
to be a tautology and a contradiction at once, and every tautology is reported to be satisfiable. -/
theorem analyze_agrees_with_checks (s : String) (maxDepth : Option Nat) (config : PoolConfig) :
    (∀ e, parse s maxDepth = .error e → analyze s maxDepth config = .error (.ofText e)) ∧
      ∀ f, parse s maxDepth = .ok f →
        (64 ≤ f.vars.length →
          analyze s maxDepth config = .error (.ofSemantics (.tooManyVariables f.vars.length))) ∧
        (f.vars.length < 64 →
          ∃ a, analyze s maxDepth config = .ok a ∧ a.formula = f ∧
            f.isTautology config = .ok a.isTautology ∧
            f.isContradiction config = .ok a.isContradiction ∧
            f.isSatisfiable config = .ok a.isSatisfiable ∧
            ¬(a.isTautology = true ∧ a.isContradiction = true) ∧
            (a.isTautology = true → a.isSatisfiable = true)) := by
  refine ⟨fun e he => by rw [analyze, he]; rfl, fun f hf => ?_⟩
  have hanalyze : analyze s maxDepth config =
      (Analysis.ofFormula f config).mapError .ofSemantics := by
    rw [analyze, hf]
    rfl
  constructor
  · intro hmany
    rw [hanalyze, Analysis.ofFormula_eq_error config hmany]
    rfl
  · intro hfew
    obtain ⟨a, ha⟩ := Analysis.exists_ofFormula config hfew
    obtain ⟨hformula, htautology, hcontradiction, hsatisfiable⟩ :=
      Analysis.ofFormula_eq_ok_iff.mp ha
    refine ⟨a, by rw [hanalyze, ha]; rfl, hformula, htautology, hcontradiction, hsatisfiable,
      ?_, fun h => (Analysis.of_isTautology ha h).2⟩
    rintro ⟨h, hboth⟩
    rw [(Analysis.of_isTautology ha h).1] at hboth
    cases hboth

/-- Two workers that take one number at a time find `(p|~p)` to be a tautology, hence satisfiable
and no contradiction. In `(T|F` the end of the text is reported, behind its last character. -/
theorem analyze_agrees_with_checks_two_texts :
    (∃ a, analyze "(p|~p)" none ⟨2, 1⟩ = .ok a ∧ a.isTautology = true ∧
      a.isContradiction = false ∧ a.isSatisfiable = true) ∧
      analyze "(T|F" none ⟨2, 1⟩ = .error (.ofText ⟨.unexpectedEnd, 5⟩) := by
  have hp : isVariable "p" = true := by decide
  have htext : (Formula.binary .or (.var "p") (.not (.var "p"))).text = "(p|~p)" := by
    rw [Formula.text_eq]
    decide
  have hparse : parse "(p|~p)" = .ok (.binary .or (.var "p") (.not (.var "p"))) :=
    parse_eq_ok_iff.mpr ⟨⟨hp, hp⟩, htext⟩
  have hend : parse "(T|F" = .error ⟨.unexpectedEnd, 5⟩ := by cbv
  have htrue : ∀ v, (Formula.binary .or (.var "p") (.not (.var "p"))).value v = true := fun v =>
    Bool.or_not_self (v "p")
  have hfew : (Formula.binary .or (.var "p") (.not (.var "p"))).vars.length < 64 := by decide
  obtain ⟨-, hchecks⟩ := analyze_agrees_with_checks "(p|~p)" none ⟨2, 1⟩
  obtain ⟨a, ha, -, htautology, -, -, hnever, hsatisfiable⟩ := (hchecks _ hparse).2 hfew
  obtain ⟨b, hcheck, hb⟩ := Formula.exists_isTautology ⟨2, 1⟩ hfew
  obtain rfl : b = a.isTautology := Except.ok.inj (hcheck.symm.trans htautology)
  have hreported := hb.mpr htrue
  exact ⟨⟨a, ha, hreported, Bool.eq_false_iff.mpr fun h => hnever ⟨hreported, h⟩,
    hsatisfiable hreported⟩, (analyze_agrees_with_checks "(T|F" none ⟨2, 1⟩).1 _ hend⟩

end Propositional

import Propositional.Proofs.Semantics.Soundness
import Propositional.Proofs.Substitution.Meaning

/-!
# Instances of Sound Rules Are Sound

A substitution of variables turns a rule into an instance of it: every formula of the rule
is rewritten, one after the other, by the same substitution, which keeps what it learns
(`InferenceRule.instantiate`). The chain of implications of the instance is the rewritten
chain of the rule. Its value under an assignment is therefore that of the chain of the rule
under another one, which gives each variable the value of the formula that replaces it. So
an assignment that falsifies the instance would yield one that falsifies the rule. The
instance may have other variables than the rule, and more or fewer of them; the checks of
the two have nothing in common but these values.

## Main results

* `InferenceRule.isSound_eq_true_iff`: the rules that are found to be sound.
* `InferenceRule.implicationChain_instantiate`: the chain of the instance.
* `InferenceRule.isSound_of_instances`: the instances of sound rules and of tautologies are
  sound and tautologies.
-/

namespace Propositional

namespace VariableSubstitution

/-- The formulas rewritten one after the other, and the substitution with what it then
knows. -/
def applyAll (s : VariableSubstitution) : List Formula → List Formula × VariableSubstitution
  | [] => ([], s)
  | f :: fs =>
      ((s.apply f).1 :: ((s.apply f).2.applyAll fs).1, ((s.apply f).2.applyAll fs).2)

/-- A substitution replaces the variables of all the formulas, and stands for the same
assignment afterwards. -/
theorem Stands.applyAll {s : VariableSubstitution} {m : String → Option Formula}
    (h : s.Stands m) (fs : List Formula) :
    (s.applyAll fs).1 = fs.map (Formula.substituteForm m) ∧ (s.applyAll fs).2.Stands m := by
  induction fs generalizing s with
  | nil => exact ⟨rfl, h⟩
  | cons f fs ih =>
      obtain ⟨hf, hstands⟩ := follows.apply f h
      obtain ⟨hfs, hafter⟩ := ih hstands
      refine ⟨?_, hafter⟩
      rw [VariableSubstitution.applyAll, List.map_cons]
      exact congrArg₂ List.cons hf hfs

end VariableSubstitution

namespace InferenceRule

variable {r : InferenceRule}

/-- The rules that are found to be sound are those with fewer than 64 variables whose chain
is true under every assignment. -/
theorem isSound_eq_true_iff {config : PoolConfig} :
    r.isSound config = .ok true ↔
      r.vars.length < variableLimit ∧ ∀ v, r.implicationChain.value v = true := by
  rcases Nat.lt_or_ge r.vars.length variableLimit with hfew | hmany
  · obtain ⟨b, hcheck, hb⟩ := exists_isSound config hfew
    rw [hcheck, Except.ok.injEq, hb]
    exact (and_iff_right hfew).symm
  · rw [isSound_eq_error config hmany]
    simp [Nat.not_lt.mpr hmany]

/-- The rule with the variables of its assumptions and then of its conclusion replaced by
the substitution. -/
def instantiate (s : VariableSubstitution) (r : InferenceRule) : InferenceRule :=
  ⟨(s.applyAll r.assumptions).1, ((s.applyAll r.assumptions).2.apply r.conclusion).1⟩

/-- The instance has the formulas of the rule with their variables replaced. -/
theorem instantiate_eq {s : VariableSubstitution} {m : String → Option Formula} (h : s.Stands m)
    (r : InferenceRule) :
    r.instantiate s =
      ⟨r.assumptions.map (Formula.substituteForm m), r.conclusion.substituteForm m⟩ := by
  obtain ⟨hassumptions, hafter⟩ := h.applyAll r.assumptions
  obtain ⟨hconclusion, -⟩ := VariableSubstitution.follows.apply r.conclusion hafter
  rw [instantiate, hassumptions]
  exact congrArg (InferenceRule.mk _) hconclusion

/-- **The chain of the instance is the rewritten chain.** -/
theorem implicationChain_instantiate {s : VariableSubstitution} {m : String → Option Formula}
    (h : s.Stands m) (r : InferenceRule) :
    (r.instantiate s).implicationChain = r.implicationChain.substituteForm m := by
  rw [instantiate_eq h]
  obtain ⟨assumptions, conclusion⟩ := r
  induction assumptions with
  | nil => rfl
  | cons f fs ih => exact congrArg (Formula.binary .implies (f.substituteForm m)) ih

/-- **Substitution preserves soundness.** For every substitution of variables, with any
history of insertions and applications: the instance of a rule that is found to be sound is
found to be sound, unless it has too many variables to be checked. The same holds of
tautologies. It does not matter which workers are asked for in either check. -/
theorem isSound_of_instances (before : List (SubstitutionCall String))
    (config config' : PoolConfig) :
    (∀ r : InferenceRule, r.isSound config = .ok true →
      (r.instantiate (VariableSubstitution.kind.after before)).vars.length < 64 →
        (r.instantiate (VariableSubstitution.kind.after before)).isSound config' = .ok true) ∧
      ∀ f : Formula, f.isTautology config = .ok true →
        ((VariableSubstitution.kind.after before).apply f).1.vars.length < 64 →
          ((VariableSubstitution.kind.after before).apply f).1.isTautology config' = .ok true := by
  have hstands := VariableSubstitution.follows.invariant before
  constructor
  · intro r hsound hfew
    refine isSound_eq_true_iff.mpr ⟨hfew, fun v => ?_⟩
    rw [implicationChain_instantiate hstands, Formula.value_substituteForm]
    exact (isSound_eq_true_iff.mp hsound).2 _
  · intro f htautology hfew
    refine Formula.isTautology_eq_true_iff.mpr ⟨hfew, fun v => ?_⟩
    have happly : ((VariableSubstitution.kind.after before).apply f).1 =
        f.substituteForm (VariableSubstitution.law.assigned before) :=
      (VariableSubstitution.follows.apply f hstands).1
    rw [happly, Formula.value_substituteForm]
    exact (Formula.isTautology_eq_true_iff.mp htautology).2 _

/-- With `(q&x)` for `p` and `~p` for `q` at once, the sound rule `[p, (p->q)] ==> q` becomes
`[(q&x), ((q&x)->~p)] ==> ~p`, which four workers find to be sound. -/
theorem isSound_of_instances_detachment :
    (InferenceRule.instantiate
      (VariableSubstitution.kind.after
        [.insert "p" (.binary .and (.var "q") (.var "x")), .insert "q" (.not (.var "p"))])
      ⟨[.var "p", .binary .implies (.var "p") (.var "q")], .var "q"⟩).isSound ⟨4, 0⟩ =
        .ok true := by
  refine (isSound_of_instances _ ⟨1, 256⟩ ⟨4, 0⟩).1 _ ?_ ?_
  · refine isSound_eq_true_iff.mpr ⟨by decide, fun v => ?_⟩
    simp only [value_implicationChain, List.any_cons, List.any_nil, Formula.value,
      Connective.apply]
    cases v "p" <;> cases v "q" <;> rfl
  · rw [instantiate_eq (VariableSubstitution.follows.invariant _)]
    decide

end InferenceRule

end Propositional

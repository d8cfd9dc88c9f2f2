import Propositional.Proofs.Substitution.BottomUp
import Propositional.Substitution.Variables

/-!
# The Rewriting Machine Step by Step

`BottomUp.run` is one step after the other: the first task is taken, and what it causes is put on
the stacks and into the cache. A step does not change what the machine comes to in the end
(`BottomUp.Step.outcome_eq`), and every step makes the tasks lighter
(`BottomUp.Step.totalWeight_lt`). So what is known of the outcome holds of every state on the way:
as the machine comes to a formula from a faithful cache, it is never stuck, and a task that combines
operands always finds as many results as it takes off.

## Main definitions

* `BottomUp.State`, `BottomUp.Step`, `BottomUp.Steps`: the states of the machine, and its steps.

## Main results

* `BottomUp.State.exists_steps`: a machine that comes to a formula stops after finitely many steps,
  with that formula as its one result.
* `BottomUp.machine_computes_fold`: what the machine comes to, and what holds on the way.
-/

namespace Propositional.BottomUp

/-- A state of the machine: what is to be done, the results so far, the newest first, and what is
known. -/
structure State where
  tasks : List Task
  results : List Formula
  cache : Cache

/-- The state in which a formula is to be rewritten. -/
def State.start (f : Formula) (cache : Cache) : State :=
  ⟨[.visit f], [], cache⟩

/-- One step of the machine. -/
inductive Step (rule : Rule) : State → State → Prop
  /-- A formula that is known is not looked into. -/
  | known {f g : Formula} {tasks : List Task} {results : List Formula} {cache : Cache}
      (hknown : cache[f]? = some g) :
      Step rule ⟨.visit f :: tasks, results, cache⟩ ⟨tasks, g :: results, cache⟩
  /-- A formula without operands is replaced at once. -/
  | leaf {f : Formula} {tasks : List Task} {results : List Formula} {cache : Cache}
      (hnew : cache[f]? = none) (hleaf : f.operands = []) :
      Step rule ⟨.visit f :: tasks, results, cache⟩
        ⟨tasks, rule f [] :: results, cache.insert f (rule f [])⟩
  /-- Of any other formula the operands come first. -/
  | expand {f : Formula} {tasks : List Task} {results : List Formula} {cache : Cache}
      (hnew : cache[f]? = none) (hbranch : f.operands ≠ []) :
      Step rule ⟨.visit f :: tasks, results, cache⟩
        ⟨f.operands.map Task.visit ++ Task.combine f :: tasks, results, cache⟩
  /-- Then the formula is replaced, if there are enough results for its operands. -/
  | combine {f : Formula} {tasks : List Task} {results operands rest : List Formula}
      {cache : Cache} (hpop : popOperands? f.operands.length [] results = some (operands, rest)) :
      Step rule ⟨.combine f :: tasks, results, cache⟩
        ⟨tasks, rule f operands :: rest, cache.insert f (rule f operands)⟩

/-- A number of steps, one after the other. -/
inductive Steps (rule : Rule) : Nat → State → State → Prop
  | none (s : State) : Steps rule 0 s s
  | more {n : Nat} {s s' s'' : State} (hstep : Step rule s s') (hsteps : Steps rule n s' s'') :
      Steps rule (n + 1) s s''

/-- What the machine comes to from a state. -/
def State.outcome (rule : Rule) (s : State) : Option (Formula × Cache) :=
  run rule s.tasks s.results s.cache

variable {rule : Rule} {s s' : State} {n : Nat} {f : Formula} {cache : Cache}

/-! ### One step -/

/-- **A step does not change what the machine comes to.** -/
theorem Step.outcome_eq (h : Step rule s s') : s.outcome rule = s'.outcome rule := by
  cases h with
  | known hknown => rw [State.outcome, run, hknown]; rfl
  | leaf hnew hleaf => rw [State.outcome, run, hnew, hleaf]; rfl
  | expand hnew hbranch =>
      have hempty : ¬ (_ : Formula).operands.isEmpty = true := mt List.isEmpty_iff.mp hbranch
      rw [State.outcome, run, hnew]
      simp only [if_neg hempty]
      rfl
  | combine hpop => rw [State.outcome, run, hpop]; rfl

/-- A step makes the tasks lighter. -/
theorem Step.totalWeight_lt (h : Step rule s s') :
    totalWeight Task.weight s'.tasks < totalWeight Task.weight s.tasks := by
  cases h with
  | @known f => have := f.nodeCount_pos; simp [Task.weight]; omega
  | @leaf f => have := f.nodeCount_pos; simp [Task.weight]; omega
  | @expand f _ _ _ hnew hbranch =>
      cases f <;> simp_all [Task.weight, Formula.operands, Formula.nodeCount] <;> omega
  | combine => simp [Task.weight]

/-- If a machine that has something to do comes to a formula, it makes a step. -/
theorem State.exists_step (hrun : s.outcome rule ≠ none) (htasks : s.tasks ≠ []) :
    ∃ s', Step rule s s' := by
  obtain ⟨tasks, results, cache⟩ := s
  match tasks with
  | [] => exact absurd rfl htasks
  | .visit f :: tasks =>
      cases hknown : cache[f]? with
      | some g => exact ⟨_, .known hknown⟩
      | none =>
          by_cases hleaf : f.operands = []
          · exact ⟨_, .leaf hknown hleaf⟩
          · exact ⟨_, .expand hknown hleaf⟩
  | .combine f :: tasks =>
      cases hpop : popOperands? f.operands.length [] results with
      | some popped => exact ⟨_, .combine hpop⟩
      | none =>
          -- lacking an operand, the machine would come to nothing
          rw [State.outcome, run, hpop] at hrun
          exact absurd rfl hrun

/-- As many entries as are taken off a stack lie on it. -/
theorem le_length_of_popOperands? {α : Type} {n : Nat} {taken stack xs rest : List α}
    (h : popOperands? n taken stack = some (xs, rest)) : n ≤ stack.length := by
  induction n generalizing taken stack with
  | zero => exact Nat.zero_le _
  | succ n ih =>
      cases stack with
      | nil => cases h
      | cons x stack => exact Nat.succ_le_succ (ih h)

/-- A task that combines operands takes no more results than there are. -/
theorem Step.length_operands_le {tasks : List Task} (h : Step rule s s')
    (htasks : s.tasks = .combine f :: tasks) : f.operands.length ≤ s.results.length := by
  cases h with
  | combine hpop =>
      obtain ⟨⟨rfl⟩, -⟩ := List.cons.inj htasks
      exact le_length_of_popOperands? hpop
  | known | leaf | expand => cases htasks

/-! ### All steps -/

/-- Nor do any number of steps change what the machine comes to. -/
theorem Steps.outcome_eq (h : Steps rule n s s') : s.outcome rule = s'.outcome rule := by
  induction h with
  | none s => rfl
  | more hstep _ ih => exact hstep.outcome_eq.trans ih

/-- The steps that are made and those that the tasks may still cause are no more than the tasks
could cause at first. -/
theorem Steps.add_totalWeight_le (h : Steps rule n s s') :
    n + totalWeight Task.weight s'.tasks ≤ totalWeight Task.weight s.tasks := by
  induction h with
  | none s => exact Nat.le_of_eq (Nat.zero_add _)
  | more hstep _ ih =>
      have := hstep.totalWeight_lt
      omega

/-- Where nothing is left to do, what the machine comes to is its one result. -/
theorem State.eq_of_outcome {g : Formula} (hrun : s.outcome rule = some (g, cache))
    (htasks : s.tasks = []) : s = ⟨[], [g], cache⟩ := by
  obtain ⟨tasks, results, known⟩ := s
  obtain rfl : tasks = [] := htasks
  match results with
  | [r] =>
      rw [State.outcome, run] at hrun
      obtain ⟨rfl, rfl⟩ := Prod.mk.inj (Option.some.inj hrun)
      rfl
  | [] | _ :: _ :: _ => simp [State.outcome, run] at hrun

/-- **A machine that comes to a formula stops** after finitely many steps, with that formula as its
one result. -/
theorem State.exists_steps {g : Formula} (hrun : s.outcome rule = some (g, cache)) :
    ∃ n, Steps rule n s ⟨[], [g], cache⟩ := by
  induction hweight : totalWeight Task.weight s.tasks using Nat.strongRecOn generalizing s with
  | ind weight ih =>
      by_cases htasks : s.tasks = []
      · exact ⟨0, State.eq_of_outcome hrun htasks ▸ .none s⟩
      · have hsome : s.outcome rule ≠ none := by simp [hrun]
        obtain ⟨s', hstep⟩ := State.exists_step hsome htasks
        obtain ⟨n, hsteps⟩ := ih _ (hweight ▸ hstep.totalWeight_lt)
          (hstep.outcome_eq.symm.trans hrun) rfl
        exact ⟨n + 1, .more hstep hsteps⟩

/-- **The machine computes the fold**, whatever it knows, as long as its cache is faithful. It comes
to the fold of the formula, with a cache that is faithful again, and stops with the fold as its one
result. On the way, which is no longer than twice the number of nodes, it never takes more results
than there are, and it stops nowhere else. -/
theorem machine_computes_fold (h : Faithful rule cache) (f : Formula) :
    ∃ cache', Faithful rule cache' ∧
      run rule [.visit f] [] cache = some (fold rule f, cache') ∧
      apply rule cache f = (fold rule f, cache') ∧
      (∃ n, Steps rule n (.start f cache) ⟨[], [fold rule f], cache'⟩) ∧
      ∀ n s, Steps rule n (.start f cache) s →
        n ≤ 2 * f.nodeCount ∧
        (s.tasks = [] → s = ⟨[], [fold rule f], cache'⟩) ∧
        (s.tasks ≠ [] → ∃ s', Step rule s s') ∧
        ∀ g tasks, s.tasks = .combine g :: tasks → g.operands.length ≤ s.results.length := by
  obtain ⟨cache', hcache', hrun⟩ := run_eq_some h f
  have houtcome : (State.start f cache).outcome rule = some (fold rule f, cache') := hrun
  refine ⟨cache', hcache', hrun, by rw [apply, hrun, Option.getD_some],
    State.exists_steps houtcome, fun n s hsteps => ?_⟩
  have hthen : s.outcome rule = some (fold rule f, cache') := hsteps.outcome_eq.symm.trans houtcome
  have hstep : s.tasks ≠ [] → ∃ s', Step rule s s' := State.exists_step (by simp [hthen])
  refine ⟨?_, State.eq_of_outcome hthen, hstep, fun g tasks htasks => ?_⟩
  · have hle := hsteps.add_totalWeight_le
    simp only [State.start, totalWeight_cons, totalWeight_nil, Task.weight] at hle
    omega
  · obtain ⟨s', hs'⟩ := hstep (by rw [htasks]; exact List.cons_ne_nil _ _)
    exact hs'.length_operands_le htasks

/-- The two sides of an implication are equal, and so are the operands on either side; one variable
is known already. -/
theorem machine_computes_fold_shared :
    (apply (VariableSubstitution.rule (.ofList [("p", .not (.var "q"))]))
      ((∅ : Cache).insert (.var "p") (.not (.var "q")))
      (.binary .implies (.binary .and (.var "p") (.var "r"))
        (.binary .and (.var "p") (.var "r")))).1 =
      .binary .implies (.binary .and (.not (.var "q")) (.var "r"))
        (.binary .and (.not (.var "q")) (.var "r")) := by
  have hp : (OrderedMap.ofList [("p", Formula.not (.var "q"))]).get? "p" =
      some (.not (.var "q")) := rfl
  have hr : (OrderedMap.ofList [("p", Formula.not (.var "q"))]).get? "r" = none := rfl
  obtain ⟨cache', -, -, happly, -⟩ := machine_computes_fold
    ((faithful_empty (VariableSubstitution.rule (.ofList [("p", .not (.var "q"))]))).insert
      (.var "p"))
    (.binary .implies (.binary .and (.var "p") (.var "r")) (.binary .and (.var "p") (.var "r")))
  simpa [fold, VariableSubstitution.rule, Formula.rebuild, hp, hr] using congrArg Prod.fst happly

end Propositional.BottomUp

import Propositional.Substitution.BottomUp

/-!
# The Rewriting Machine Computes the Fold

`BottomUp.run` works off a stack of tasks with a cache that outlives it; `BottomUp.fold`
is the plain recursion. The two agree as soon as the cache is **faithful**: each of its
entries is what the recursion makes of its formula. Every run keeps the cache faithful,
so the agreement carries over from one run to the next.

The induction is on the formula. Its one step (`Visits.of_operands`) is the same for every
kind of formula: visiting the operands leaves their folds on the stack of results, in
reverse, and there the combining task finds them.

## Main results

* `BottomUp.run_eq_some`: with a faithful cache every run ends with the fold as its one
  result, and with a faithful cache.
* `BottomUp.apply_fst`, `BottomUp.faithful_apply`: the same for `BottomUp.apply`.
-/

namespace Propositional.BottomUp

/-- Every entry of the cache is what the rule makes of its formula. -/
def Faithful (rule : Rule) (cache : Cache) : Prop :=
  ∀ f g, cache[f]? = some g → g = fold rule f

/-- A cache without entries is faithful to every rule. -/
theorem faithful_empty (rule : Rule) : Faithful rule ∅ := by
  intro f g h
  exact absurd h (by simp)

/-- Adding the fold of a formula keeps the cache faithful. -/
theorem Faithful.insert {rule : Rule} {cache : Cache} (h : Faithful rule cache)
    (f : Formula) : Faithful rule (cache.insert f (fold rule f)) := by
  intro f' g hg
  rw [Std.HashMap.getElem?_insert] at hg
  split at hg
  · rename_i heq
    obtain rfl := eq_of_beq heq
    exact (Option.some.inj hg).symm
  · exact h f' g hg

/-- The fold applies the rule to the folds of the operands. -/
theorem fold_eq (rule : Rule) (f : Formula) :
    fold rule f = rule f (f.operands.map (fold rule)) := by
  cases f <;> rfl

/-- Operands are taken off the stack of results in the order in which they were put
there. -/
theorem popOperands?_append {α : Type} (xs taken stack : List α) :
    popOperands? xs.length taken (xs ++ stack) = some (xs.reverse ++ taken, stack) := by
  induction xs generalizing taken with
  | nil => rfl
  | cons x xs ih =>
      rw [List.length_cons, List.cons_append, popOperands?, ih, List.reverse_cons,
        List.append_assoc, List.singleton_append]

/-- To visit the formula is to put its fold on the stack of results, whatever else is to
be done and whatever the faithful cache knows. -/
def Visits (rule : Rule) (f : Formula) : Prop :=
  ∀ (tasks : List Task) (results : List Formula) (cache : Cache), Faithful rule cache →
    ∃ cache', Faithful rule cache' ∧
      run rule (.visit f :: tasks) results cache =
        run rule tasks (fold rule f :: results) cache'

/-- Formulas that are visited one after the other leave their folds in reverse order. -/
theorem run_visits {rule : Rule} {fs : List Formula} (hfs : ∀ f ∈ fs, Visits rule f)
    (tasks : List Task) (results : List Formula) {cache : Cache}
    (hcache : Faithful rule cache) :
    ∃ cache', Faithful rule cache' ∧
      run rule (fs.map Task.visit ++ tasks) results cache =
        run rule tasks ((fs.map (fold rule)).reverse ++ results) cache' := by
  induction fs generalizing results cache with
  | nil => exact ⟨cache, hcache, rfl⟩
  | cons f fs ih =>
      obtain ⟨hf, hfs⟩ := List.forall_mem_cons.mp hfs
      obtain ⟨cache₁, hcache₁, hrun₁⟩ := hf (fs.map Task.visit ++ tasks) results cache hcache
      obtain ⟨cache₂, hcache₂, hrun₂⟩ := ih hfs (fold rule f :: results) hcache₁
      refine ⟨cache₂, hcache₂, ?_⟩
      rw [List.map_cons, List.cons_append, hrun₁, hrun₂, List.map_cons, List.reverse_cons,
        List.append_assoc, List.singleton_append]

/-- The step of the induction: a formula is visited through its operands, unless the cache
knows it already. -/
theorem Visits.of_operands {rule : Rule} {f : Formula}
    (h : ∀ g ∈ f.operands, Visits rule g) : Visits rule f := by
  intro tasks results cache hcache
  cases hknown : cache[f]? with
  | some g =>
      obtain rfl := hcache f g hknown
      refine ⟨cache, hcache, ?_⟩
      rw [run, hknown]
  | none =>
      by_cases hleaf : f.operands = []
      · have hfold : rule f [] = fold rule f := by rw [fold_eq, hleaf, List.map_nil]
        refine ⟨cache.insert f (fold rule f), hcache.insert f, ?_⟩
        rw [run, hknown]
        simp [hleaf, hfold]
      · obtain ⟨cache', hcache', hrun⟩ := run_visits h (.combine f :: tasks) results hcache
        refine ⟨cache'.insert f (fold rule f), hcache'.insert f, ?_⟩
        have hpop : popOperands? f.operands.length []
            ((f.operands.map (fold rule)).reverse ++ results) =
            some (f.operands.map (fold rule), results) := by
          have := popOperands?_append (f.operands.map (fold rule)).reverse [] results
          simpa using this
        rw [run, hknown]
        simp only [List.isEmpty_iff, hleaf, if_false, hrun]
        rw [run, hpop]
        simp only [← fold_eq]

/-- Every formula is visited. -/
theorem visits (rule : Rule) (f : Formula) : Visits rule f := by
  induction f with
  | var name => exact .of_operands (by simp [Formula.operands])
  | const value => exact .of_operands (by simp [Formula.operands])
  | not f ih => exact .of_operands (by simpa [Formula.operands] using ih)
  | binary c f g ihf ihg => exact .of_operands (by simpa [Formula.operands] using ⟨ihf, ihg⟩)

/-- **With a faithful cache the machine computes the fold**: it never lacks an operand,
ends with exactly one result, and leaves a faithful cache. -/
theorem run_eq_some {rule : Rule} {cache : Cache} (h : Faithful rule cache) (f : Formula) :
    ∃ cache', Faithful rule cache' ∧
      run rule [.visit f] [] cache = some (fold rule f, cache') := by
  obtain ⟨cache', hcache', hrun⟩ := visits rule f [] [] cache h
  refine ⟨cache', hcache', ?_⟩
  rw [hrun, run]

/-- What is returned is the fold. -/
theorem apply_fst {rule : Rule} {cache : Cache} (h : Faithful rule cache) (f : Formula) :
    (apply rule cache f).1 = fold rule f := by
  obtain ⟨cache', -, hrun⟩ := run_eq_some h f
  rw [apply, hrun, Option.getD_some]

/-- The cache stays faithful. -/
theorem faithful_apply {rule : Rule} {cache : Cache} (h : Faithful rule cache)
    (f : Formula) : Faithful rule (apply rule cache f).2 := by
  obtain ⟨cache', hcache', hrun⟩ := run_eq_some h f
  rw [apply, hrun, Option.getD_some]
  exact hcache'

end Propositional.BottomUp

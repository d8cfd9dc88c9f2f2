import Propositional.Proofs.WorkerPool.Collecting
import Propositional.Proofs.WorkerPool.Searching

/-!
# The Schedule Makes No Difference

However many workers have started, and in whatever order they make their steps, a search
ends with the flag that tells the answer of the calling worker on its own, and a
collection with the values that the calling worker lists. Both are the answers of a check
without a queue, one number after the other.

## Main results

* `PoolConfig.every_schedule_agrees`: the answers after every schedule.
-/

namespace Propositional.PoolConfig

/-- **Every schedule gives the answer of the sequential check.** The predicate holds below
the bound iff it holds of every number, and the values are those at the numbers in
ascending order. So it is after every schedule of any workers that have all stopped, also
if a worker finds the flag down after another one has raised it, and every schedule can be
continued until they have. For at most `2 ^ 63` numbers, no number that the cutting forms
is too large for 64 bits. -/
theorem every_schedule_agrees {α : Type} (config : PoolConfig) {count : Nat}
    (hcount : count ≤ 2 ^ 63) (p : Nat → Bool) (f : Nat → α) :
    (config.holdsBelow count p = true ↔ ∀ i < count, p i = true) ∧
      config.valuesBelow count f = (List.range count).map f ∧
      (config.isSequential count = false → ∀ c ∈ config.chunks count,
        c.start + config.effectiveSize count < 2 ^ 64) ∧
      ∀ workers, 0 < workers →
        (∀ schedule s, (Search.start (config.chunks count) workers).run p schedule = s →
          (s.Finished → (!s.failed) = config.holdsBelow count p) ∧
            ∃ more, (s.run p more).Finished) ∧
        (∀ s, Search.Reaches p (.start (config.chunks count) workers) s → s.Finished →
          (!s.failed) = config.holdsBelow count p) ∧
        ∀ schedule s, (Collection.start (config.chunks count) workers).run f schedule = s →
          (s.Finished → s.result = config.valuesBelow count f) ∧
            ∃ more, (s.run f more).Finished := by
  refine ⟨config.holdsBelow_iff count p, config.valuesBelow_eq count f,
    fun hqueue c => start_add_effectiveSize_lt hcount hqueue, ?_⟩
  intro workers hworkers
  have hsearch : ∀ s, Search.Reaches p (.start (config.chunks count) workers) s → s.Finished →
      (!s.failed) = config.holdsBelow count p := by
    intro s hsteps hfinished
    rw [Bool.eq_iff_iff, Bool.not_eq_true', config.holdsBelow_iff count p]
    exact config.failed_eq_false_iff hworkers hsteps hfinished
  refine ⟨?_, hsearch, ?_⟩
  · rintro schedule s rfl
    exact ⟨hsearch _ (Search.reaches_run p _ schedule), Search.exists_finished p _⟩
  · rintro schedule s rfl
    refine ⟨fun hfinished => ?_, Collection.exists_finished f _⟩
    rw [config.valuesBelow_eq count f]
    exact config.result_eq hworkers hfinished

/-- Two of three workers on the numbers below five in chunks of two: one finds the
counterexample `2` while the other one still has the first chunk, which then takes the
last chunk only to drop it; and one keeps the last two chunks before the other one has
kept the first. -/
theorem every_schedule_agrees_two_workers :
    ((Search.start ((PoolConfig.mk 3 2).chunks 5) 2).run (· != 2)
        [0, 1, 1, 1, 0, 1, 0, 0, 0]).failed = true ∧
      ((Collection.start ((PoolConfig.mk 3 2).chunks 5) 2).run (· * 10)
        [0, 1, 1, 1, 0, 1, 0, 1]).result = [0, 10, 20, 30, 40] := by
  obtain ⟨hholds, hvalues, -, hworkers⟩ :=
    @every_schedule_agrees Nat (PoolConfig.mk 3 2) 5 (by decide) (· != 2) (· * 10)
  obtain ⟨hsearch, -, hcollection⟩ := hworkers 2 (by decide)
  constructor
  · have hstopped : ∀ w ∈ ((Search.start ((PoolConfig.mk 3 2).chunks 5) 2).run (· != 2)
        [0, 1, 1, 1, 0, 1, 0, 0, 0]).workers, w = .stopped := by decide
    have hflag := (hsearch _ _ rfl).1 hstopped
    have hnot : (PoolConfig.mk 3 2).holdsBelow 5 (· != 2) = false := by
      rw [Bool.eq_false_iff]
      exact fun hall => absurd (hholds.mp hall 2 (by decide)) (by decide)
    rwa [hnot, Bool.not_eq_false'] at hflag
  · have hstopped : ∀ w ∈ ((Collection.start ((PoolConfig.mk 3 2).chunks 5) 2).run (· * 10)
        [0, 1, 1, 1, 0, 1, 0, 1]).workers, w.weight = 0 := by decide
    have hresult := (hcollection _ _ rfl).1 fun w hw =>
      Collector.weight_eq_zero_iff.mp (hstopped w hw)
    rw [hresult, hvalues]
    rfl

end Propositional.PoolConfig

import Mathlib.Algebra.Ring.Nat
import Propositional.WorkerPool.Chunk

/-!
# Progress of a Pool

The load of a pool is what is left to do: a number of steps for each chunk in the queue,
and for each worker the steps that it makes with what it has. If a step of one worker
makes the load smaller, some schedule brings the work to its end.

## Main results

* `Pool.load_set_lt`: the load after a step of one worker.
* `Pool.exists_schedule`: a load that can always be made smaller comes to its end.
-/

namespace Propositional.Pool

variable {W : Type}

/-- The load: `perChunk` steps for each chunk in the queue, and those of each worker. -/
def load (perChunk : Nat) (weight : W → Nat) (queue : List Chunk) (workers : List W) : Nat :=
  perChunk * queue.length + (workers.map weight).sum

/-- The worker at a place stands between others, and stands there when it is replaced. -/
theorem exists_place {workers : List W} {place : Nat} {worker : W}
    (h : workers[place]? = some worker) (worker' : W) :
    ∃ before after, workers = before ++ worker :: after ∧
      workers.set place worker' = before ++ worker' :: after := by
  obtain ⟨hlt, rfl⟩ := List.getElem?_eq_some_iff.mp h
  obtain ⟨before, after, hworkers, -, hset⟩ := @List.exists_of_set _ place worker' workers hlt
  exact ⟨before, after, hworkers, hset⟩

/-- The load gets smaller with what a step leaves to its worker and in the queue. -/
theorem load_set_lt {perChunk : Nat} {weight : W → Nat} {queue queue' : List Chunk}
    {workers : List W} {place : Nat} {worker worker' : W} (hplace : workers[place]? = some worker)
    (h : perChunk * queue'.length + weight worker' < perChunk * queue.length + weight worker) :
    load perChunk weight queue' (workers.set place worker') <
      load perChunk weight queue workers := by
  obtain ⟨before, after, hworkers, hset⟩ := exists_place hplace worker'
  rw [hset, hworkers]
  simp only [load, List.map_append, List.map_cons, List.sum_append, List.sum_cons]
  omega

/-- A state whose load can be made smaller until the work is done has a schedule after
which it is done. -/
theorem exists_schedule {σ : Type} {next : σ → Nat → σ} {Done : σ → Prop} (size : σ → Nat)
    (h : ∀ s, ¬ Done s → ∃ place, size (next s place) < size s) (s : σ) :
    ∃ schedule : List Nat, Done (schedule.foldl next s) := by
  induction hsize : size s using Nat.strongRecOn generalizing s with
  | ind n ih =>
      by_cases hdone : Done s
      · exact ⟨[], hdone⟩
      · obtain ⟨place, hlt⟩ := h s hdone
        obtain ⟨schedule, hend⟩ := ih _ (hsize ▸ hlt) _ rfl
        exact ⟨place :: schedule, hend⟩

end Propositional.Pool

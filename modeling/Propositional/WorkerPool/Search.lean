import Propositional.WorkerPool.Chunk

/-!
# Searching for a Counterexample

To find out whether a predicate holds of all numbers below a bound, workers take chunks from a
common queue until it is empty. A worker that finds a number of which the predicate does not hold
raises a common flag and stops; a worker that has taken a chunk and finds the flag raised drops the
chunk and stops. When all workers have stopped, the predicate holds of all numbers iff the flag is
down.

A state of the search consists of the queue, the flag, and what each worker is about to do. One
worker makes one step at a time, and a schedule says which worker is next; whatever the schedule,
the flag is the same in the end. `PoolConfig.holdsBelow` takes the schedule in which the calling
worker does everything.

## Main definitions

* `Searcher`, `Searcher.step`: what a worker is about to do, and its steps.
* `Search`, `Search.advance`, `Search.run`: states of the search, and schedules.
* `PoolConfig.holdsBelow`: whether a predicate holds of all numbers below a bound.
-/

namespace Propositional

/-- What a worker that searches is about to do. -/
inductive Searcher
  /-- It takes a chunk, or stops if there is none. -/
  | ready
  /-- It has taken a chunk and reads the flag. -/
  | holding (chunk : Chunk)
  /-- It has found the flag down and checks the chunk. -/
  | checking (chunk : Chunk)
  /-- It has found a counterexample and raises the flag. -/
  | refuted
  /-- It does nothing any more. -/
  | stopped
  deriving DecidableEq

namespace Searcher

/-- The queue, the flag and the worker after its next step. -/
def step (p : Nat → Bool) (queue : List Chunk) (failed : Bool) :
    Searcher → List Chunk × Bool × Searcher
  | ready =>
    match queue with
    | [] => ([], failed, stopped)
    | chunk :: queue => (queue, failed, holding chunk)
  | holding chunk => (queue, failed, if failed then stopped else checking chunk)
  | checking chunk => (queue, failed, if chunk.holds p then ready else refuted)
  | refuted => (queue, true, stopped)
  | stopped => (queue, failed, stopped)

/-- The number of steps that the worker makes with the chunk it has. -/
def weight : Searcher → Nat
  | ready => 1
  | holding _ => 3
  | checking _ => 2
  | refuted => 1
  | stopped => 0

theorem weight_step (p : Nat → Bool) (queue : List Chunk) (failed : Bool) {worker : Searcher}
    (h : worker ≠ stopped) :
    3 * (worker.step p queue failed).1.length + (worker.step p queue failed).2.2.weight <
      3 * queue.length + worker.weight := by
  cases worker with
  | ready =>
    cases queue with
    | nil => simp [step, weight]
    | cons chunk queue => simp only [step, weight, List.length_cons]; omega
  | holding chunk => cases failed <;> simp [step, weight]
  | checking chunk => cases hp : chunk.holds p <;> simp [step, weight, hp]
  | refuted => simp [step, weight]
  | stopped => exact absurd rfl h

/-- Whether the flag is raised once the worker, working alone, has stopped. -/
def runAlone (p : Nat → Bool) (queue : List Chunk) (failed : Bool) (worker : Searcher) : Bool :=
  if worker = stopped then failed
  else
    let next := worker.step p queue failed
    runAlone p next.1 next.2.1 next.2.2
termination_by 3 * queue.length + worker.weight
decreasing_by exact weight_step p queue failed ‹_›

end Searcher

/-- A state of the search: the queue, the flag, and the workers. -/
structure Search where
  queue : List Chunk
  failed : Bool
  workers : List Searcher

namespace Search

/-- The state in which `workers` workers begin. -/
def start (queue : List Chunk) (workers : Nat) : Search :=
  ⟨queue, false, List.replicate workers .ready⟩

/-- The state after the next step of the worker at the given place. -/
def advance (p : Nat → Bool) (s : Search) (place : Nat) : Search :=
  match s.workers[place]? with
  | none => s
  | some worker =>
    let (queue, failed, worker) := worker.step p s.queue s.failed
    ⟨queue, failed, s.workers.set place worker⟩

/-- The state after the steps that the schedule names, from the first to the last. -/
def run (p : Nat → Bool) (s : Search) (schedule : List Nat) : Search :=
  schedule.foldl (advance p) s

/-- All workers have stopped. -/
def Finished (s : Search) : Prop :=
  ∀ worker ∈ s.workers, worker = .stopped

end Search

/-- Whether the predicate holds of every number below `count`. -/
def PoolConfig.holdsBelow (config : PoolConfig) (count : Nat) (p : Nat → Bool) : Bool :=
  if config.isSequential count then Chunk.holds ⟨0, count⟩ p
  else !Searcher.runAlone p (config.chunks count) false .ready

end Propositional

import Propositional.WorkerPool.Chunk

/-!
# Collecting Values

To list the values of a function at all numbers below a bound, workers take chunks from a common
queue until it is empty, and each keeps the values of its chunks with the number each chunk starts
at. When all workers have stopped, what they have kept is put together and sorted by those numbers,
which gives the values in ascending order whatever the schedule was.

## Main definitions

* `Collector`, `Collector.step`: what a worker is about to do, and its steps.
* `Collection`, `Collection.advance`, `Collection.run`, `Collection.result`: states of the
  collection, schedules, and the values put together.
* `PoolConfig.valuesBelow`: the values of a function at all numbers below a bound.
-/

namespace Propositional

/-- What a worker that collects is about to do, and what it has kept so far. -/
inductive Collector (α : Type)
  /-- It takes a chunk, or stops if there is none. -/
  | ready (kept : List (Nat × List α))
  /-- It has taken a chunk and finds its values. -/
  | holding (chunk : Chunk) (kept : List (Nat × List α))
  /-- It does nothing any more. -/
  | stopped (kept : List (Nat × List α))

namespace Collector

variable {α : Type}

/-- The queue and the worker after its next step. -/
def step (f : Nat → α) (queue : List Chunk) : Collector α → List Chunk × Collector α
  | ready kept =>
    match queue with
    | [] => ([], stopped kept)
    | chunk :: queue => (queue, holding chunk kept)
  | holding chunk kept => (queue, ready ((chunk.start, chunk.values f) :: kept))
  | stopped kept => (queue, stopped kept)

/-- What the worker has kept. -/
def kept : Collector α → List (Nat × List α)
  | ready kept => kept
  | holding _ kept => kept
  | stopped kept => kept

/-- The number of steps that the worker makes with the chunk it has. -/
def weight : Collector α → Nat
  | ready _ => 1
  | holding _ _ => 2
  | stopped _ => 0

theorem weight_step (f : Nat → α) (queue : List Chunk) {worker : Collector α}
    (h : worker.weight ≠ 0) :
    2 * (worker.step f queue).1.length + (worker.step f queue).2.weight <
      2 * queue.length + worker.weight := by
  cases worker with
  | ready =>
    cases queue with
    | nil => simp [step, weight]
    | cons chunk queue => simp only [step, weight, List.length_cons]; omega
  | holding => simp [step, weight]
  | stopped => exact absurd rfl h

/-- What the worker has kept once it, working alone, has stopped. -/
def runAlone (f : Nat → α) (queue : List Chunk) (worker : Collector α) : List (Nat × List α) :=
  if worker.weight = 0 then worker.kept
  else
    let next := worker.step f queue
    runAlone f next.1 next.2
termination_by 2 * queue.length + worker.weight
decreasing_by exact weight_step f queue ‹_›

end Collector

/-- A state of the collection: the queue and the workers. -/
structure Collection (α : Type) where
  queue : List Chunk
  workers : List (Collector α)

namespace Collection

variable {α : Type}

/-- The state in which `workers` workers begin. -/
def start (queue : List Chunk) (workers : Nat) : Collection α :=
  ⟨queue, List.replicate workers (.ready [])⟩

/-- The state after the next step of the worker at the given place. -/
def advance (f : Nat → α) (s : Collection α) (place : Nat) : Collection α :=
  match s.workers[place]? with
  | none => s
  | some worker =>
    let (queue, worker) := worker.step f s.queue
    ⟨queue, s.workers.set place worker⟩

/-- The state after the steps that the schedule names, from the first to the last. -/
def run (f : Nat → α) (s : Collection α) (schedule : List Nat) : Collection α :=
  schedule.foldl (advance f) s

/-- All workers have stopped. -/
def Finished (s : Collection α) : Prop :=
  ∀ worker ∈ s.workers, ∃ kept, worker = .stopped kept

/-- The values kept for all chunks, in the order of the numbers the chunks start at. -/
def assemble (kept : List (Nat × List α)) : List α :=
  (kept.mergeSort fun a b => a.1 ≤ b.1).flatMap (·.2)

/-- The values that all workers have kept, put together. -/
def result (s : Collection α) : List α :=
  assemble (s.workers.flatMap Collector.kept)

end Collection

/-- The values of the function at every number below `count`, in ascending order. -/
def PoolConfig.valuesBelow {α : Type} (config : PoolConfig) (count : Nat) (f : Nat → α) : List α :=
  if config.isSequential count then Chunk.values ⟨0, count⟩ f
  else Collection.assemble (Collector.runAlone f (config.chunks count) (.ready []))

end Propositional

/-!
# Chunks of Work

A check of all numbers below a bound is cut into chunks, ranges of equal size but for the last one,
which workers take from a queue. The size is the one asked for, but at least one and large enough
that there are no more than `WorkerPool.maxChunks` chunks. With a single worker, or with no more
than one chunk to do, no queue is made.

## Main definitions

* `PoolConfig`: the number of workers and the size of a chunk that are asked for.
* `Chunk`, `PoolConfig.chunks`: the ranges that cover all numbers below a bound.
* `PoolConfig.isSequential`: whether no queue is made.
-/

namespace Propositional

/-- How a check of many numbers is to be divided among workers. -/
structure PoolConfig where
  numThreads : Nat := 1
  chunkSize : Nat := 256
  deriving DecidableEq

/-- The numbers from `start` on and below `stop`. -/
structure Chunk where
  start : Nat
  stop : Nat
  deriving DecidableEq

namespace Chunk

/-- The number of members. -/
def size (c : Chunk) : Nat := c.stop - c.start

/-- Whether the predicate holds of the `count` numbers from `start` on. It stops at the first one
of which it does not. -/
def holdsFrom (p : Nat → Bool) (start : Nat) : Nat → Bool
  | 0 => true
  | count + 1 => p start && holdsFrom p (start + 1) count

/-- Whether the predicate holds of every member. -/
def holds (c : Chunk) (p : Nat → Bool) : Bool :=
  holdsFrom p c.start c.size

/-- The values of the function at the members, in ascending order. -/
def values {α : Type} (c : Chunk) (f : Nat → α) : List α :=
  (List.range' c.start c.size).map f

end Chunk

namespace PoolConfig

/-- The largest number of chunks that a queue is given. -/
def maxChunks : Nat := 65536

/-- The number of parts of size `size` that `count` things make, the last one perhaps smaller. -/
def partCount (count size : Nat) : Nat :=
  (count + size - 1) / size

/-- Whether the numbers below `count` are checked without a queue. -/
def isSequential (config : PoolConfig) (count : Nat) : Bool :=
  config.numThreads ≤ 1 || count ≤ max config.chunkSize 1

/-- The size of the chunks for the numbers below `count`. -/
def effectiveSize (config : PoolConfig) (count : Nat) : Nat :=
  max (max config.chunkSize 1) (partCount count maxChunks)

/-- The number of chunks for the numbers below `count`. -/
def chunkCount (config : PoolConfig) (count : Nat) : Nat :=
  partCount count (config.effectiveSize count)

/-- The chunks for the numbers below `count`, in ascending order. -/
def chunks (config : PoolConfig) (count : Nat) : List Chunk :=
  let size := config.effectiveSize count
  (List.range (config.chunkCount count)).map fun i => ⟨i * size, min (i * size + size) count⟩

end PoolConfig

end Propositional

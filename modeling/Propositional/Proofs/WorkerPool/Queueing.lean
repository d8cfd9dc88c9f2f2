import Mathlib.Data.List.Basic
import Propositional.Proofs.WorkerPool.Chunking

/-!
# The Queue Has Room for Every Chunk

The chunks are put into a queue one after the other. The queue has room for a fixed number of
chunks, and numbers have 64 bits; the filling fails if a chunk finds no room, or if the end of a
chunk, before it is cut off at the bound, is too large a number (`ChunkQueue.fill?`). Neither
happens for at most `2 ^ 63` numbers: after `i` chunks the queue holds the first `i` of
`PoolConfig.chunks`, and the loop is at the start of the next one (`PoolConfig.fill?_eq_some`).

The queue then holds the numbers below the bound, cut into ranges. How many ranges there are is said
with divisions that are rounded up (`PoolConfig.IsCeilDiv`).

## Main definitions

* `ChunkQueue`, `ChunkQueue.push?`: a queue with limited room.
* `ChunkQueue.fill?`, `PoolConfig.fillQueue?`: the loop that fills it.
* `PoolConfig.IsCeilDiv`: quotients that are rounded up.

## Main results

* `PoolConfig.length_chunks_le`: there are never more than `PoolConfig.maxChunks` chunks.
* `PoolConfig.fillQueue?_partitions`: the queue is filled, with what, and with how many chunks.
-/

namespace Propositional

/-- A queue with room for `capacity` chunks. -/
structure ChunkQueue (capacity : Nat) where
  chunks : List Chunk
  length_le : chunks.length ≤ capacity

namespace ChunkQueue

variable {capacity : Nat}

/-- The queue without chunks. -/
def empty : ChunkQueue capacity :=
  ⟨[], Nat.zero_le capacity⟩

/-- The queue with one more chunk at its end, if there is room. -/
def push? (queue : ChunkQueue capacity) (c : Chunk) : Option (ChunkQueue capacity) :=
  if h : queue.chunks.length < capacity then
    some ⟨queue.chunks ++ [c], by rw [List.length_append]; exact h⟩
  else none

/-- The sum of two numbers, if it has 64 bits. -/
def addWord? (a b : Nat) : Option Nat :=
  if a + b < 2 ^ 64 then some (a + b) else none

/-- Puts the chunks of the given size for the numbers from `start` on and below `count` into the
queue, from the first to the last. The size must not be zero. -/
def fill? (size count : Nat) (queue : ChunkQueue capacity) (start : Nat) :
    Option (ChunkQueue capacity) :=
  if _hstart : start < count then
    if _hsize : 0 < size then
      match addWord? start size with
      | none => none
      | some stop =>
          match queue.push? ⟨start, min stop count⟩ with
          | none => none
          | some queue => fill? size count queue (start + size)
    else none
  else some queue
termination_by count - start

/-- If there is room, the chunk is put at the end. -/
theorem exists_push? {queue : ChunkQueue capacity} (h : queue.chunks.length < capacity)
    (c : Chunk) :
    ∃ queue', queue.push? c = some queue' ∧ queue'.chunks = queue.chunks ++ [c] :=
  ⟨_, dif_pos h, rfl⟩

/-- A turn of the loop in which nothing fails. -/
theorem fill?_of_push? {size count start : Nat} {queue queue' : ChunkQueue capacity}
    (hstart : start < count) (hsize : 0 < size) (hword : start + size < 2 ^ 64)
    (hpush : queue.push? ⟨start, min (start + size) count⟩ = some queue') :
    fill? size count queue start = fill? size count queue' (start + size) := by
  rw [fill?, dif_pos hstart, dif_pos hsize, addWord?, if_pos hword]
  simp only [hpush]

/-- The loop ends at the bound. -/
theorem fill?_of_le {size count start : Nat} (h : count ≤ start) (queue : ChunkQueue capacity) :
    fill? size count queue start = some queue := by
  rw [fill?, dif_neg (Nat.not_lt.mpr h)]

end ChunkQueue

namespace PoolConfig

/-- Puts all chunks for the numbers below `count` into a queue that has room for as many, and for at
least one. -/
def fillQueue? (config : PoolConfig) (count : Nat) :
    Option (ChunkQueue (max (config.chunkCount count) 1)) :=
  ChunkQueue.fill? (config.effectiveSize count) count .empty 0

variable {config : PoolConfig} {count : Nat}

/-! ### Sizes and counts -/

/-- The number `n` is the quotient of `count` by `size`, rounded up: `n` times `size` is no less
than `count`, and so for the larger numbers, but for no smaller one. -/
def IsCeilDiv (count size n : Nat) : Prop :=
  ∀ m, n ≤ m ↔ count ≤ m * size

/-- There is one such quotient. -/
theorem IsCeilDiv.unique {size n n' : Nat} (h : IsCeilDiv count size n)
    (h' : IsCeilDiv count size n') : n = n' :=
  Nat.le_antisymm ((h n').mpr ((h' n').mp (Nat.le_refl n')))
    ((h' n).mpr ((h n).mp (Nat.le_refl n)))

/-- The number of parts is a quotient rounded up. -/
theorem isCeilDiv_partCount (count : Nat) {size : Nat} (h : 0 < size) :
    IsCeilDiv count size (partCount count size) := by
  intro m
  rw [← Nat.not_lt, lt_partCount_iff h, Nat.not_lt]

/-- There are as many chunks as were counted. -/
theorem length_chunks (config : PoolConfig) (count : Nat) :
    (config.chunks count).length = config.chunkCount count := by
  rw [chunks, List.length_map, List.length_range]

/-- **There are never more than `maxChunks` chunks**, because that many chunks of the size in use
cover all numbers. -/
theorem length_chunks_le (config : PoolConfig) (count : Nat) :
    (config.chunks count).length ≤ maxChunks := by
  rw [length_chunks, chunkCount, isCeilDiv_partCount count (config.effectiveSize_pos count)]
  have hsize : partCount count maxChunks ≤ config.effectiveSize count := le_max_right _ _
  calc count ≤ partCount count maxChunks * maxChunks := le_partCount_mul (by decide)
    _ ≤ config.effectiveSize count * maxChunks := Nat.mul_le_mul_right maxChunks hsize
    _ = maxChunks * config.effectiveSize count := Nat.mul_comm _ _

/-- No chunk is empty. -/
theorem start_lt_stop {c : Chunk} (hc : c ∈ config.chunks count) : c.start < c.stop := by
  obtain ⟨i, hi, rfl⟩ := List.mem_map.mp hc
  have hstart := (lt_partCount_iff (config.effectiveSize_pos count)).mp (List.mem_range.mp hi)
  have hsize := config.effectiveSize_pos count
  exact Nat.lt_min.mpr ⟨Nat.lt_add_of_pos_right hsize, hstart⟩

/-- Every chunk ends before the later ones start. -/
theorem pairwise_stop_chunks (config : PoolConfig) (count : Nat) :
    (config.chunks count).Pairwise fun c d => c.stop ≤ d.start := by
  rw [chunks, List.pairwise_map]
  refine List.pairwise_lt_range.imp fun {i j} hij => ?_
  calc min (i * config.effectiveSize count + config.effectiveSize count) count
      ≤ (i + 1) * config.effectiveSize count := by rw [Nat.succ_mul]; exact Nat.min_le_left _ _
    _ ≤ j * config.effectiveSize count := Nat.mul_le_mul_right _ hij

/-- Chunks of which one ends before the other one starts have no member in common. -/
theorem disjoint_members {c d : Chunk} (h : c.stop ≤ d.start) : c.members.Disjoint d.members := by
  intro i hc hd
  simp only [Chunk.members, Chunk.size, List.mem_range'_1] at hc hd
  omega

/-! ### The loop -/

/-- **After `i` turns the queue holds the first `i` chunks**, and the loop goes on to put the others
there. -/
theorem fill?_eq_some {capacity : Nat} (hcount : count ≤ 2 ^ 63)
    (hqueue : config.isSequential count = false) (hroom : config.chunkCount count ≤ capacity)
    (i : Nat) (hi : i ≤ config.chunkCount count) {queue : ChunkQueue capacity}
    (hchunks : queue.chunks = (config.chunks count).take i) :
    ∃ queue', ChunkQueue.fill? (config.effectiveSize count) count queue
        (i * config.effectiveSize count) = some queue' ∧
      queue'.chunks = config.chunks count := by
  induction hleft : config.chunkCount count - i generalizing i queue with
  | zero =>
      have hall : i = config.chunkCount count := by omega
      refine ⟨queue, ChunkQueue.fill?_of_le ?_ queue, ?_⟩
      · rw [hall]
        exact le_partCount_mul (config.effectiveSize_pos count)
      · rw [hchunks, List.take_of_length_le (by rw [length_chunks, hall])]
  | succ left ih =>
      have hlt : i < config.chunkCount count := by omega
      have hlength : i < (config.chunks count).length := by rwa [length_chunks]
      have hget : (config.chunks count)[i] = ⟨i * config.effectiveSize count,
          min (i * config.effectiveSize count + config.effectiveSize count) count⟩ := by
        simp [chunks]
      have hstart := (lt_partCount_iff (config.effectiveSize_pos count)).mp hlt
      have hword := start_add_effectiveSize_lt hcount hqueue (List.getElem_mem hlength)
      rw [hget] at hword
      have hsmall : queue.chunks.length < capacity := by
        rw [hchunks, List.length_take]
        omega
      obtain ⟨queue', hpush, hpushed⟩ := ChunkQueue.exists_push? hsmall (config.chunks count)[i]
      rw [hget] at hpush
      rw [ChunkQueue.fill?_of_push? hstart (config.effectiveSize_pos count) hword hpush,
        ← Nat.succ_mul]
      refine ih (i + 1) hlt ?_ (by omega)
      rw [hpushed, hchunks, List.take_append_getElem hlength]

/-- **The numbers below the bound are cut into the chunks of the queue.** If a queue is made for at
most `2 ^ 63` numbers, whatever size is asked for, it is filled without failure. The chunks in it
are not empty, have no member in common, ascend, and one after the other have all numbers below the
bound as members. The end of each of them could be formed in 64 bits. Their size, but for the last
one, is the one asked for, but at least one, and at least the quotient of the bound by 65536,
rounded up; their number is the quotient of the bound by that size, rounded up, and it is at most
65536 and no more than there is room for. -/
theorem fillQueue?_partitions (hcount : count ≤ 2 ^ 63)
    (hqueue : config.isSequential count = false) :
    ∃ queue, config.fillQueue? count = some queue ∧ queue.chunks = config.chunks count ∧
      (∀ c ∈ queue.chunks, c.start < c.stop ∧ c.start + config.effectiveSize count < 2 ^ 64) ∧
      (queue.chunks.Pairwise fun c d => c.members.Disjoint d.members) ∧
      (queue.chunks.Pairwise fun c d => c.stop ≤ d.start) ∧
      queue.chunks.flatMap Chunk.members = List.range count ∧
      (∃ least, IsCeilDiv count 65536 least ∧
        config.effectiveSize count = max (max config.chunkSize 1) least) ∧
      IsCeilDiv count (config.effectiveSize count) queue.chunks.length ∧
      queue.chunks.length ≤ 65536 ∧
      queue.chunks.length ≤ max (config.chunkCount count) 1 := by
  have hempty : (ChunkQueue.empty : ChunkQueue (max (config.chunkCount count) 1)).chunks =
      (config.chunks count).take 0 := rfl
  obtain ⟨queue, hfill, hchunks⟩ := fill?_eq_some hcount hqueue (le_max_left _ 1) 0
    (Nat.zero_le _) hempty
  rw [Nat.zero_mul] at hfill
  refine ⟨queue, hfill, hchunks, ?_, ?_, ?_, ?_, ?_, ?_, ?_, queue.length_le⟩
  · rw [hchunks]
    exact fun c hc => ⟨start_lt_stop hc, start_add_effectiveSize_lt hcount hqueue hc⟩
  · rw [hchunks]
    exact (config.pairwise_stop_chunks count).imp disjoint_members
  · rw [hchunks]
    exact config.pairwise_stop_chunks count
  · rw [hchunks]
    exact config.flatMap_members_chunks count
  · exact ⟨partCount count maxChunks, isCeilDiv_partCount count (by decide), rfl⟩
  · rw [hchunks, length_chunks]
    exact isCeilDiv_partCount count (config.effectiveSize_pos count)
  · rw [hchunks]
    exact config.length_chunks_le count

/-- The largest bound, with the size that is asked for so small that the number of chunks decides:
`65536` chunks of `2 ^ 47` numbers each. -/
theorem fillQueue?_partitions_largest :
    ∃ queue, (PoolConfig.mk 2 0).fillQueue? (2 ^ 63) = some queue ∧
      queue.chunks.length = 65536 ∧ ∀ c ∈ queue.chunks, c.start + 2 ^ 47 < 2 ^ 64 := by
  obtain ⟨queue, hfill, -, hchunks, -, -, -, -, hlength, -⟩ :=
    @fillQueue?_partitions (PoolConfig.mk 2 0) (2 ^ 63) (by decide) (by decide)
  have hsize : (PoolConfig.mk 2 0).effectiveSize (2 ^ 63) = 2 ^ 47 := by decide
  rw [hsize] at hchunks hlength
  refine ⟨queue, hfill, ?_, fun c hc => (hchunks c hc).2⟩
  exact hlength.unique (isCeilDiv_partCount (2 ^ 63) (by decide))

end PoolConfig

end Propositional

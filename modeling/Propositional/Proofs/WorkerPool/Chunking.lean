import Mathlib.Algebra.Ring.Nat
import Mathlib.Tactic.ByContra
import Propositional.WorkerPool.Chunk

/-!
# Chunks Cut the Numbers Below a Bound

The chunks of a queue are consecutive: where one ends the next one starts, and the last
one ends at the bound. So their members, one chunk after the other, are all numbers below
the bound in ascending order, and each of them once.

## Main results

* `PoolConfig.flatMap_members_chunks`: the members of all chunks are the numbers below the
  bound.
* `PoolConfig.pairwise_start_chunks`: the chunks start at different numbers, in ascending
  order.
* `PoolConfig.start_add_effectiveSize_lt`: below `2 ^ 63` the numbers that the cutting
  forms fit into 64 bits.
-/

namespace Propositional

namespace Chunk

/-- The members of the chunk, in ascending order. -/
def members (c : Chunk) : List Nat :=
  List.range' c.start c.size

theorem holdsFrom_iff (p : Nat → Bool) (start count : Nat) :
    holdsFrom p start count = true ↔ ∀ i ∈ List.range' start count, p i = true := by
  induction count generalizing start with
  | zero => simp [holdsFrom]
  | succ count ih => rw [holdsFrom, Bool.and_eq_true, ih, List.range'_succ, List.forall_mem_cons]

/-- The predicate is checked for every member. -/
theorem holds_iff (c : Chunk) (p : Nat → Bool) :
    c.holds p = true ↔ ∀ i ∈ c.members, p i = true :=
  holdsFrom_iff p c.start c.size

/-- The values are those at the members. -/
theorem values_eq {α : Type} (c : Chunk) (f : Nat → α) : c.values f = c.members.map f := rfl

/-- The numbers below a bound as one chunk. -/
theorem members_zero (count : Nat) : members ⟨0, count⟩ = List.range count :=
  List.range_eq_range'.symm

end Chunk

namespace PoolConfig

/-- A chunk has at least one place. -/
theorem effectiveSize_pos (config : PoolConfig) (count : Nat) : 0 < config.effectiveSize count := by
  unfold effectiveSize
  omega

/-- There are as many parts as start below the count. -/
theorem lt_partCount_iff {count size i : Nat} (h : 0 < size) :
    i < partCount count size ↔ i * size < count := by
  rw [partCount, Nat.lt_iff_add_one_le, Nat.le_div_iff_mul_le h, Nat.add_mul, Nat.one_mul]
  omega

/-- All parts together are no fewer than the count. -/
theorem le_partCount_mul {count size : Nat} (h : 0 < size) :
    count ≤ partCount count size * size := by
  by_contra hlt
  exact Nat.lt_irrefl _ ((lt_partCount_iff h).mpr (Nat.lt_of_not_le hlt))

/-- The first `parts` chunks have the numbers below the end of the last of them. -/
theorem flatMap_members_range (size count parts : Nat) :
    ((List.range parts).flatMap fun i =>
      Chunk.members ⟨i * size, min (i * size + size) count⟩) =
        List.range (min (parts * size) count) := by
  induction parts with
  | zero => simp
  | succ parts ih =>
      rw [List.range_succ, List.flatMap_append, ih, List.flatMap_singleton, Chunk.members,
        Chunk.size, List.range_eq_range', List.range_eq_range', Nat.succ_mul]
      rcases Nat.le_total (parts * size) count with hle | hge
      · rw [Nat.min_eq_left hle]
        have hcut := @List.range'_append 0 (parts * size)
          (min (parts * size + size) count - parts * size) 1
        rw [Nat.one_mul, Nat.zero_add] at hcut
        rw [hcut]
        congr 1
        omega
      · have hnone : min (parts * size + size) count - parts * size = 0 := by omega
        have hend : min (parts * size) count = min (parts * size + size) count := by omega
        rw [hnone, hend, List.range'_zero, List.append_nil]

/-- **The members of all chunks are the numbers below the bound**, each of them once. -/
theorem flatMap_members_chunks (config : PoolConfig) (count : Nat) :
    (config.chunks count).flatMap Chunk.members = List.range count := by
  have hend : min (config.chunkCount count * config.effectiveSize count) count = count :=
    Nat.min_eq_right (le_partCount_mul (config.effectiveSize_pos count))
  rw [chunks, List.flatMap_map, flatMap_members_range, hend]

/-- Every chunk starts at a multiple of the size, below the bound. -/
theorem exists_start_eq {config : PoolConfig} {count : Nat} {c : Chunk}
    (h : c ∈ config.chunks count) :
    ∃ i, c.start = i * config.effectiveSize count ∧ c.start < count := by
  obtain ⟨i, hi, rfl⟩ := List.mem_map.mp h
  exact ⟨i, rfl, (lt_partCount_iff (config.effectiveSize_pos count)).mp (List.mem_range.mp hi)⟩

/-- The chunks start at different numbers, in ascending order. -/
theorem pairwise_start_chunks (config : PoolConfig) (count : Nat) :
    (config.chunks count).Pairwise fun c d => c.start < d.start := by
  rw [chunks, List.pairwise_map]
  refine List.pairwise_lt_range.imp fun {i j} hij => ?_
  exact Nat.mul_lt_mul_of_pos_right hij (config.effectiveSize_pos count)

/-- Where a queue is made, a chunk is no larger than the count. -/
theorem effectiveSize_le {config : PoolConfig} {count : Nat}
    (h : config.isSequential count = false) : config.effectiveSize count ≤ count := by
  simp only [isSequential, Bool.or_eq_false_iff, decide_eq_false_iff_not] at h
  simp only [effectiveSize, partCount, maxChunks]
  omega

/-- Where a queue for at most `2 ^ 63` numbers is made, the numbers formed to cut the
chunks fit into 64 bits. -/
theorem start_add_effectiveSize_lt {config : PoolConfig} {count : Nat} (hcount : count ≤ 2 ^ 63)
    (hqueue : config.isSequential count = false) {c : Chunk} (hc : c ∈ config.chunks count) :
    c.start + config.effectiveSize count < 2 ^ 64 := by
  obtain ⟨-, -, hstart⟩ := exists_start_eq hc
  have hsize := effectiveSize_le hqueue
  omega

/-- A predicate holds of all numbers below the bound if it holds in every chunk. -/
theorem forall_chunks_iff (config : PoolConfig) (count : Nat) (p : Nat → Bool) :
    (∀ c ∈ config.chunks count, c.holds p = true) ↔ ∀ i < count, p i = true := by
  simp only [Chunk.holds_iff, ← List.mem_range, ← config.flatMap_members_chunks count,
    List.mem_flatMap]
  exact ⟨fun h i ⟨c, hc, hi⟩ => h c hc i hi, fun h c hc i hi => h i ⟨c, hc, hi⟩⟩

/-- The values at all numbers below the bound are those of all chunks. -/
theorem flatMap_values_chunks {α : Type} (config : PoolConfig) (count : Nat) (f : Nat → α) :
    ((config.chunks count).flatMap fun c => c.values f) = (List.range count).map f := by
  rw [← config.flatMap_members_chunks count, List.map_flatMap]
  rfl

end PoolConfig

end Propositional

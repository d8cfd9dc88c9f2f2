import Mathlib.Data.List.Nodup
import Propositional.Proofs.WorkerPool.Chunking
import Propositional.Proofs.WorkerPool.Progress
import Propositional.WorkerPool.Collection

/-!
# Every Collection Lists the Same Values

Each chunk gives one entry, the values at its members with the number it starts at. The
entries of the chunks in the queue, of those that workers have taken, and those that
workers have kept are at any time the entries of all chunks in some order: a step only
moves an entry from one place to the next (`Collection.Step.perm_entries`). Once all
workers have stopped the queue is empty, so what they have kept is all of it, and as no
two chunks start at the same number, sorting leaves only one order.

## Main results

* `Collection.Accounts.step`, `Collection.Accounts.run`: the invariant and what preserves
  it.
* `Collection.assemble_eq`: the entries are put together in the order of the chunks.
* `Collection.exists_finished`: every collection can be brought to its end.
* `PoolConfig.valuesBelow_eq`: the values that the calling worker lists on its own.
-/

namespace Propositional

variable {α : Type}

/-- The values at the members of the chunk with the number it starts at. -/
def Chunk.entry (f : Nat → α) (c : Chunk) : Nat × List α :=
  (c.start, c.values f)

/-- What the worker has kept, and what it is about to keep. -/
def Collector.entries (f : Nat → α) : Collector α → List (Nat × List α)
  | ready kept => kept
  | holding chunk kept => chunk.entry f :: kept
  | stopped kept => kept

/-- A worker has no step to make only if it has stopped. -/
theorem Collector.weight_eq_zero_iff {worker : Collector α} :
    worker.weight = 0 ↔ ∃ kept, worker = .stopped kept := by
  cases worker <;> simp [weight]

namespace Collection

/-! ### Steps -/

/-- A step of the worker that stands between `before` and `after`. -/
inductive Step (f : Nat → α) : Collection α → Collection α → Prop
  /-- Nobody does anything. -/
  | idle (s : Collection α) : Step f s s
  /-- It takes a chunk. -/
  | take (chunk : Chunk) (queue : List Chunk) (kept : List (Nat × List α))
    (before after : List (Collector α)) :
    Step f ⟨chunk :: queue, before ++ .ready kept :: after⟩
      ⟨queue, before ++ .holding chunk kept :: after⟩
  /-- It finds the queue empty. -/
  | leave (kept : List (Nat × List α)) (before after : List (Collector α)) :
    Step f ⟨[], before ++ .ready kept :: after⟩ ⟨[], before ++ .stopped kept :: after⟩
  /-- It keeps the values of its chunk. -/
  | keep (chunk : Chunk) (queue : List Chunk) (kept : List (Nat × List α))
    (before after : List (Collector α)) :
    Step f ⟨queue, before ++ .holding chunk kept :: after⟩
      ⟨queue, before ++ .ready (chunk.entry f :: kept) :: after⟩

/-- The worker that is next makes one of the steps. -/
theorem step_advance (f : Nat → α) (s : Collection α) (place : Nat) :
    Step f s (s.advance f place) := by
  obtain ⟨queue, workers⟩ := s
  cases hworker : workers[place]? with
  | none =>
      rw [advance, hworker]
      exact .idle _
  | some worker =>
      obtain ⟨before, after, hworkers, hset⟩ := Pool.exists_place hworker (worker.step f queue).2
      have hnext : advance f ⟨queue, workers⟩ place =
          ⟨(worker.step f queue).1, before ++ (worker.step f queue).2 :: after⟩ := by
        rw [← hset, advance, hworker]
      rw [hnext, hworkers]
      cases worker with
      | ready kept =>
          cases queue with
          | nil => exact .leave kept before after
          | cons chunk queue => exact .take chunk queue kept before after
      | holding chunk kept => exact .keep chunk queue kept before after
      | stopped kept => exact .idle _

/-- The entries of the chunks in the queue, and those of the workers. -/
def entries (f : Nat → α) (s : Collection α) : List (Nat × List α) :=
  s.queue.map (Chunk.entry f) ++ s.workers.flatMap (Collector.entries f)

variable {f : Nat → α} {chunks : List Chunk} {s s' : Collection α}

/-- No entry is lost and none is made: a step moves at most one of them. -/
theorem Step.perm_entries (h : Step f s s') : (s'.entries f).Perm (s.entries f) := by
  cases h with
  | idle | leave | keep =>
      simp only [entries, List.flatMap_append, List.flatMap_cons, Collector.entries]
      exact .refl _
  | take chunk queue kept before after =>
      -- the one step that moves an entry, from the head of the queue to the worker
      simp only [entries, List.flatMap_append, List.flatMap_cons, Collector.entries,
        List.map_cons, List.cons_append, ← List.append_assoc]
      rw [List.append_assoc _ kept]
      exact List.perm_middle

/-- A worker stops only when the queue is empty, and so it stays. -/
theorem Step.exhausted (h : Step f s s') (hs : ∀ kept, .stopped kept ∈ s.workers → s.queue = []) :
    ∀ kept, .stopped kept ∈ s'.workers → s'.queue = [] := by
  cases h with
  | idle => exact hs
  | take | leave | keep =>
      simp only [List.mem_append, List.mem_cons] at hs ⊢
      grind

/-- The number of workers stays the same. -/
theorem Step.length_workers (h : Step f s s') : s'.workers.length = s.workers.length := by
  cases h with
  | idle => rfl
  | take | leave | keep => simp only [List.length_append, List.length_cons]

/-! ### The invariant -/

/-- What is true of the entries at any time of a collection. -/
structure Accounts (f : Nat → α) (chunks : List Chunk) (s : Collection α) : Prop where
  /-- The entries to come and those that are kept are the entries of all chunks. -/
  balanced : (s.entries f).Perm (chunks.map (Chunk.entry f))
  /-- Nobody stops with chunks in the queue. -/
  exhausted : ∀ kept, .stopped kept ∈ s.workers → s.queue = []
  /-- There are workers. -/
  manned : 0 < s.workers.length

/-- The invariant holds when one worker or more begin with all chunks in the queue. -/
theorem accounts_start (f : Nat → α) (chunks : List Chunk) {workers : Nat} (h : 0 < workers) :
    Accounts f chunks (start chunks workers) := by
  have hready : ∀ w ∈ (start (α := α) chunks workers).workers, w = .ready [] :=
    fun w hw => (List.mem_replicate.mp hw).2
  have hnone : (start chunks workers).workers.flatMap (Collector.entries f) = [] := by
    rw [List.flatMap_eq_nil_iff]
    intro w hw
    rw [hready w hw]
    rfl
  refine ⟨?_, ?_, ?_⟩
  · rw [entries, hnone, List.append_nil]
    exact .refl _
  · intro kept hmem
    simpa using hready _ hmem
  · simpa [start] using h

/-- **Every step preserves the invariant.** -/
theorem Accounts.step (h : Accounts f chunks s) (hstep : Step f s s') : Accounts f chunks s' where
  balanced := hstep.perm_entries.trans h.balanced
  exhausted := hstep.exhausted h.exhausted
  manned := hstep.length_workers ▸ h.manned

/-- So does every schedule. -/
theorem Accounts.run (h : Accounts f chunks s) (schedule : List Nat) :
    Accounts f chunks (s.run f schedule) := by
  induction schedule generalizing s with
  | nil => exact h
  | cons place schedule ih => exact ih (h.step (step_advance f s place))

/-- Once all workers have stopped they have kept the entries of all chunks. -/
theorem Accounts.perm_kept (h : Accounts f chunks s) (hfinished : s.Finished) :
    (s.workers.flatMap Collector.kept).Perm (chunks.map (Chunk.entry f)) := by
  obtain ⟨worker, hmem⟩ := List.exists_mem_of_length_pos h.manned
  obtain ⟨kept, rfl⟩ := hfinished worker hmem
  have hqueue : s.queue = [] := h.exhausted kept hmem
  have hentries : s.workers.flatMap (Collector.entries f) = s.workers.flatMap Collector.kept := by
    refine List.flatMap_congr fun w hw => ?_
    obtain ⟨kept, rfl⟩ := hfinished w hw
    rfl
  have hbalanced := h.balanced
  rwa [entries, hqueue, hentries] at hbalanced

/-! ### Putting the entries together -/

/-- **Whatever order the entries are kept in, they are put together in the order of the
numbers they start with**, if these are different. -/
theorem assemble_eq {kept entries : List (Nat × List α)} (hperm : kept.Perm entries)
    (hentries : entries.Pairwise fun a b => a.1 < b.1) :
    assemble kept = entries.flatMap (·.2) := by
  let le : Nat × List α → Nat × List α → Bool := fun a b => a.1 ≤ b.1
  have hsorted : (kept.mergeSort le).Pairwise fun a b => le a b = true :=
    List.pairwise_mergeSort (by simp only [le, decide_eq_true_eq]; omega)
      (by simp only [le, Bool.or_eq_true, decide_eq_true_eq]; omega) kept
  have hle : entries.Pairwise fun a b => le a b = true :=
    hentries.imp fun h => decide_eq_true (Nat.le_of_lt h)
  have hperm' : (kept.mergeSort le).Perm entries := (List.mergeSort_perm kept le).trans hperm
  have heq : kept.mergeSort le = entries := by
    refine hperm'.eq_of_pairwise (fun a b ha hb hab hba => ?_) hsorted hle
    have hstart : a.1 = b.1 := Nat.le_antisymm (of_decide_eq_true hab) (of_decide_eq_true hba)
    have hnodup : (entries.map (·.1)).Nodup := by
      rw [List.nodup_iff_pairwise_ne, List.pairwise_map]
      exact hentries.imp Nat.ne_of_lt
    exact List.inj_on_of_nodup_map hnodup (hperm'.mem_iff.mp ha) hb hstart
  rw [assemble, heq]

/-- The entries of chunks that start in ascending order give the values of the chunks. -/
theorem assemble_of_perm_entries {kept : List (Nat × List α)}
    (hperm : kept.Perm (chunks.map (Chunk.entry f)))
    (hchunks : chunks.Pairwise fun c d => c.start < d.start) :
    assemble kept = chunks.flatMap fun c => c.values f := by
  rw [assemble_eq hperm (List.pairwise_map.mpr hchunks), List.flatMap_map]
  rfl

/-! ### The end of a collection -/

/-- A worker that has not stopped makes the load smaller. -/
theorem load_advance_lt (f : Nat → α) {s : Collection α} {place : Nat} {worker : Collector α}
    (hplace : s.workers[place]? = some worker) (h : worker.weight ≠ 0) :
    Pool.load 2 Collector.weight (s.advance f place).queue (s.advance f place).workers <
      Pool.load 2 Collector.weight s.queue s.workers := by
  have hlt := Pool.load_set_lt hplace (Collector.weight_step f s.queue h)
  simpa only [advance, hplace] using hlt

/-- **Every collection can be brought to its end.** -/
theorem exists_finished (f : Nat → α) (s : Collection α) :
    ∃ schedule, (s.run f schedule).Finished := by
  refine Pool.exists_schedule (fun s => Pool.load 2 Collector.weight s.queue s.workers) ?_ s
  intro s hfinished
  simp only [Finished, not_forall] at hfinished
  obtain ⟨worker, hmem, hworker⟩ := hfinished
  obtain ⟨place, hplace⟩ := List.mem_iff_getElem?.mp hmem
  exact ⟨place, load_advance_lt f hplace (mt Collector.weight_eq_zero_iff.mp hworker)⟩

/-- A worker on its own does what the schedule says that names it again and again. -/
theorem exists_run_eq_runAlone (f : Nat → α) (queue : List Chunk) (worker : Collector α) :
    ∃ schedule, (run f ⟨queue, [worker]⟩ schedule).Finished ∧
      (run f ⟨queue, [worker]⟩ schedule).workers.flatMap Collector.kept =
        Collector.runAlone f queue worker := by
  fun_induction Collector.runAlone f queue worker with
  | case1 queue worker hweight =>
      refine ⟨[], fun w hw => ?_, List.flatMap_singleton ..⟩
      obtain rfl := List.mem_singleton.mp hw
      exact Collector.weight_eq_zero_iff.mp hweight
  | case2 queue worker _ next ih =>
      obtain ⟨schedule, hfinished, hkept⟩ := ih
      exact ⟨0 :: schedule, hfinished, hkept⟩

end Collection

namespace PoolConfig

/-- The entries of all chunks, in any order, give the values below the bound. -/
theorem assemble_eq_map (config : PoolConfig) {count : Nat} {f : Nat → α}
    {kept : List (Nat × List α)}
    (h : kept.Perm ((config.chunks count).map (Chunk.entry f))) :
    Collection.assemble kept = (List.range count).map f := by
  rw [Collection.assemble_of_perm_entries h (config.pairwise_start_chunks count),
    config.flatMap_values_chunks]

/-- The values after every collection below the bound, once all have stopped. -/
theorem result_eq (config : PoolConfig) {count workers : Nat} {f : Nat → α}
    {schedule : List Nat} (hworkers : 0 < workers)
    (hfinished : ((Collection.start (config.chunks count) workers).run f schedule).Finished) :
    ((Collection.start (config.chunks count) workers).run f schedule).result =
      (List.range count).map f :=
  config.assemble_eq_map
    (((Collection.accounts_start f _ hworkers).run schedule).perm_kept hfinished)

/-- **The calling worker lists the values at all numbers below the bound.** -/
theorem valuesBelow_eq (config : PoolConfig) (count : Nat) (f : Nat → α) :
    config.valuesBelow count f = (List.range count).map f := by
  rw [valuesBelow]
  split
  · rw [Chunk.values_eq, Chunk.members_zero]
  · obtain ⟨schedule, hfinished, hkept⟩ :=
      Collection.exists_run_eq_runAlone f (config.chunks count) (.ready [])
    rw [← hkept]
    exact config.result_eq Nat.one_pos hfinished

end PoolConfig

end Propositional

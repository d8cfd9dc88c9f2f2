import Mathlib.Logic.Relation
import Propositional.Proofs.WorkerPool.Chunking
import Propositional.Proofs.WorkerPool.Progress
import Propositional.WorkerPool.Search

/-!
# Every Search Finds the Same Answer

A chunk is pending as long as it is in the queue or some worker has it. What keeps the
flag right, whoever is next, is that a chunk with a counterexample stays pending until
somebody has refuted it, and that nobody refutes anything else (`Search.Explains`). A
worker drops a chunk only when the flag is up already, and it stops with chunks left in
the queue only then. So once all workers have stopped, either the flag is up and there is
a counterexample, or no chunk is pending and there is none.

The steps are written down as a relation, `Search.Step`, in which a worker may find the
flag down although another worker has just raised it.

## Main results

* `Search.Explains.step`, `Search.Explains.reaches`: the invariant and what preserves it.
* `Search.failed_eq_false_iff`: the flag once all workers have stopped.
* `Search.exists_finished`: every search can be brought to its end.
* `PoolConfig.holdsBelow_iff`: the answer of the calling worker on its own.
-/

namespace Propositional

namespace Searcher

/-- The chunk that the worker has taken and not yet checked. -/
def chunk? : Searcher → Option Chunk
  | holding chunk => some chunk
  | checking chunk => some chunk
  | _ => none

end Searcher

namespace Search

/-! ### Steps -/

/-- A step of the worker that stands between `before` and `after`. -/
inductive Step (p : Nat → Bool) : Search → Search → Prop
  /-- Nobody does anything. -/
  | idle (s : Search) : Step p s s
  /-- It takes a chunk. -/
  | take (chunk : Chunk) (queue : List Chunk) (failed : Bool) (before after : List Searcher) :
    Step p ⟨chunk :: queue, failed, before ++ .ready :: after⟩
      ⟨queue, failed, before ++ .holding chunk :: after⟩
  /-- It finds the queue empty. -/
  | leave (failed : Bool) (before after : List Searcher) :
    Step p ⟨[], failed, before ++ .ready :: after⟩ ⟨[], failed, before ++ .stopped :: after⟩
  /-- It finds the flag up and drops its chunk. -/
  | drop (chunk : Chunk) (queue : List Chunk) (before after : List Searcher) :
    Step p ⟨queue, true, before ++ .holding chunk :: after⟩
      ⟨queue, true, before ++ .stopped :: after⟩
  /-- It finds the flag down, perhaps too late. -/
  | keep (chunk : Chunk) (queue : List Chunk) (failed : Bool) (before after : List Searcher) :
    Step p ⟨queue, failed, before ++ .holding chunk :: after⟩
      ⟨queue, failed, before ++ .checking chunk :: after⟩
  /-- It finds no counterexample in its chunk. -/
  | pass (chunk : Chunk) (queue : List Chunk) (failed : Bool) (before after : List Searcher)
    (h : chunk.holds p = true) :
    Step p ⟨queue, failed, before ++ .checking chunk :: after⟩
      ⟨queue, failed, before ++ .ready :: after⟩
  /-- It finds a counterexample in its chunk. -/
  | refute (chunk : Chunk) (queue : List Chunk) (failed : Bool) (before after : List Searcher)
    (h : chunk.holds p = false) :
    Step p ⟨queue, failed, before ++ .checking chunk :: after⟩
      ⟨queue, failed, before ++ .refuted :: after⟩
  /-- It raises the flag. -/
  | raise (queue : List Chunk) (failed : Bool) (before after : List Searcher) :
    Step p ⟨queue, failed, before ++ .refuted :: after⟩ ⟨queue, true, before ++ .stopped :: after⟩

/-- Steps lead from the first state to the second one. -/
def Reaches (p : Nat → Bool) : Search → Search → Prop :=
  Relation.ReflTransGen (Step p)

/-- The worker that is next makes one of the steps. -/
theorem step_advance (p : Nat → Bool) (s : Search) (place : Nat) :
    Step p s (s.advance p place) := by
  obtain ⟨queue, failed, workers⟩ := s
  cases hworker : workers[place]? with
  | none =>
      rw [advance, hworker]
      exact .idle _
  | some worker =>
      obtain ⟨before, after, hworkers, hset⟩ :=
        Pool.exists_place hworker (worker.step p queue failed).2.2
      have hnext : advance p ⟨queue, failed, workers⟩ place =
          ⟨(worker.step p queue failed).1, (worker.step p queue failed).2.1,
            before ++ (worker.step p queue failed).2.2 :: after⟩ := by
        rw [← hset, advance, hworker]
      rw [hnext, hworkers]
      cases worker with
      | ready =>
          cases queue with
          | nil => exact .leave failed before after
          | cons chunk queue => exact .take chunk queue failed before after
      | holding chunk =>
          cases failed with
          | false => exact .keep chunk queue false before after
          | true => exact .drop chunk queue before after
      | checking chunk =>
          cases hholds : chunk.holds p with
          | false =>
              simp only [Searcher.step, hholds]
              exact .refute chunk queue failed before after hholds
          | true =>
              simp only [Searcher.step, hholds]
              exact .pass chunk queue failed before after hholds
      | refuted => exact .raise queue failed before after
      | stopped => exact .idle _

/-- A schedule is a way to go by steps. -/
theorem reaches_run (p : Nat → Bool) (s : Search) (schedule : List Nat) :
    Reaches p s (s.run p schedule) := by
  induction schedule generalizing s with
  | nil => exact .refl
  | cons place schedule ih => exact .head (step_advance p s place) (ih _)

/-! ### What a step changes -/

/-- The chunks in the queue, and those that a worker has. -/
def pending (s : Search) : List Chunk :=
  s.queue ++ s.workers.filterMap Searcher.chunk?

/-- Somebody has found a counterexample. -/
def Refuted (s : Search) : Prop :=
  s.failed = true ∨ .refuted ∈ s.workers

/-- A chunk is pending in the queue, with the worker in the middle or with another one. -/
theorem mem_pending_iff {queue : List Chunk} {failed : Bool} {before after : List Searcher}
    {worker : Searcher} {c : Chunk} :
    c ∈ pending ⟨queue, failed, before ++ worker :: after⟩ ↔
      c ∈ queue ∨ worker.chunk? = some c ∨ ∃ w ∈ before ++ after, w.chunk? = some c := by
  simp only [pending, List.mem_append, List.mem_filterMap, List.mem_cons]
  grind

/-- What has been found is shown by the flag, the worker in the middle or another one. -/
theorem refuted_iff {queue : List Chunk} {failed : Bool} {before after : List Searcher}
    {worker : Searcher} :
    Refuted ⟨queue, failed, before ++ worker :: after⟩ ↔
      failed = true ∨ worker = .refuted ∨ .refuted ∈ before ++ after := by
  simp only [Refuted, List.mem_append, List.mem_cons]
  grind

variable {p : Nat → Bool} {chunks : List Chunk} {s s' : Search}

/-- A step makes no further chunk pending. -/
theorem Step.mem_pending (h : Step p s s') {c : Chunk} (hc : c ∈ s'.pending) : c ∈ s.pending := by
  cases h with
  | idle => exact hc
  | take | leave | drop | keep | pass | refute | raise =>
      simp only [mem_pending_iff, Searcher.chunk?, List.mem_cons] at hc ⊢
      grind

/-- A chunk is pending no more after a step only if it holds or something is refuted. -/
theorem Step.mem_pending_or (h : Step p s s') {c : Chunk} (hc : c ∈ s.pending) :
    c ∈ s'.pending ∨ s'.Refuted ∨ c.holds p = true := by
  cases h with
  | idle => exact .inl hc
  | take | leave | drop | keep | pass | refute | raise =>
      simp only [mem_pending_iff, refuted_iff, Searcher.chunk?, List.mem_cons] at hc ⊢
      grind

/-- What is refuted stays refuted. -/
theorem Step.refuted (h : Step p s s') (hr : s.Refuted) : s'.Refuted := by
  cases h with
  | idle => exact hr
  | take | leave | drop | keep | pass | refute | raise =>
      simp only [refuted_iff] at hr ⊢
      grind

/-- What a step refutes is a pending chunk with a counterexample. -/
theorem Step.exists_of_refuted (h : Step p s s') (hr : s'.Refuted) :
    s.Refuted ∨ ∃ c ∈ s.pending, c.holds p = false := by
  cases h with
  | idle => exact .inl hr
  | take | leave | drop | keep | pass | raise =>
      simp only [refuted_iff] at hr ⊢
      grind
  | refute chunk queue failed before after hholds =>
      exact .inr ⟨chunk, mem_pending_iff.mpr (.inr (.inl rfl)), hholds⟩

/-- A worker stops only when the flag is up or the queue is empty, and so it stays. -/
theorem Step.exhausted (h : Step p s s')
    (hs : .stopped ∈ s.workers → s.failed = true ∨ s.queue = []) :
    .stopped ∈ s'.workers → s'.failed = true ∨ s'.queue = [] := by
  cases h with
  | idle => exact hs
  | take | leave | drop | keep | pass | refute | raise =>
      simp only [List.mem_append, List.mem_cons] at hs ⊢
      grind

/-- The number of workers stays the same. -/
theorem Step.length_workers (h : Step p s s') : s'.workers.length = s.workers.length := by
  cases h with
  | idle => rfl
  | take | leave | drop | keep | pass | refute | raise =>
      simp only [List.length_append, List.length_cons]

/-! ### The invariant -/

/-- What is true of the chunks at any time of a search. -/
structure Explains (p : Nat → Bool) (chunks : List Chunk) (s : Search) : Prop where
  /-- The pending chunks are among those of the beginning. -/
  opened : ∀ c ∈ s.pending, c ∈ chunks
  /-- Nothing is refuted unless there is a counterexample. -/
  sound : s.Refuted → ∃ c ∈ chunks, c.holds p = false
  /-- A chunk with a counterexample is pending until something is refuted. -/
  complete : ∀ c ∈ chunks, c.holds p = false → s.Refuted ∨ c ∈ s.pending
  /-- Nobody stops with chunks in the queue unless the flag is up. -/
  exhausted : .stopped ∈ s.workers → s.failed = true ∨ s.queue = []
  /-- There are workers. -/
  manned : 0 < s.workers.length

/-- The invariant holds when one worker or more begin with all chunks in the queue. -/
theorem explains_start (p : Nat → Bool) (chunks : List Chunk) {workers : Nat}
    (h : 0 < workers) : Explains p chunks (start chunks workers) := by
  have hready : ∀ w ∈ (start chunks workers).workers, w = .ready :=
    fun w hw => (List.mem_replicate.mp hw).2
  have hpending : (start chunks workers).pending = chunks := by
    have hnone : (start chunks workers).workers.filterMap Searcher.chunk? = [] := by
      rw [List.filterMap_eq_nil_iff]
      intro w hw
      rw [hready w hw]
      rfl
    rw [pending, hnone, List.append_nil]
    rfl
  have hrefuted : ¬ (start chunks workers).Refuted := by
    rintro (hfailed | hmem)
    · exact Bool.false_ne_true hfailed
    · exact Searcher.noConfusion (hready _ hmem)
  refine ⟨?_, fun hr => absurd hr hrefuted, ?_, ?_, ?_⟩
  · rw [hpending]
    exact fun c hc => hc
  · rw [hpending]
    exact fun c hc _ => .inr hc
  · exact fun hmem => Searcher.noConfusion (hready _ hmem)
  · simpa [start] using h

/-- **Every step preserves the invariant.** -/
theorem Explains.step (h : Explains p chunks s) (hstep : Step p s s') : Explains p chunks s' where
  opened c hc := h.opened c (hstep.mem_pending hc)
  sound hr := by
    rcases hstep.exists_of_refuted hr with hr | ⟨c, hc, hholds⟩
    · exact h.sound hr
    · exact ⟨c, h.opened c hc, hholds⟩
  complete c hc hholds := by
    rcases h.complete c hc hholds with hr | hpending
    · exact .inl (hstep.refuted hr)
    · -- A chunk leaves the pending ones when it is checked, or dropped with the flag up.
      rcases hstep.mem_pending_or hpending with hc' | hr | hpass
      · exact .inr hc'
      · exact .inl hr
      · exact absurd (hholds.symm.trans hpass) Bool.false_ne_true
  exhausted := hstep.exhausted h.exhausted
  manned := hstep.length_workers ▸ h.manned

/-- So do any number of steps. -/
theorem Explains.reaches (h : Explains p chunks s) (hsteps : Reaches p s s') :
    Explains p chunks s' := by
  induction hsteps with
  | refl => exact h
  | tail _ hstep ih => exact ih.step hstep

/-- **Once all workers have stopped the flag is down iff all chunks hold.** -/
theorem Explains.failed_eq_false_iff (h : Explains p chunks s) (hfinished : s.Finished) :
    s.failed = false ↔ ∀ c ∈ chunks, c.holds p = true := by
  have hrefuted : s.Refuted → s.failed = true := by
    rintro (hfailed | hmem)
    · exact hfailed
    · exact Searcher.noConfusion (hfinished _ hmem)
  have hpending : s.failed = false → s.pending = [] := by
    intro hfailed
    obtain ⟨worker, hmem⟩ := List.exists_mem_of_length_pos h.manned
    have hqueue : s.queue = [] := by
      rcases h.exhausted (hfinished worker hmem ▸ hmem) with hup | hqueue
      · exact absurd (hfailed.symm.trans hup) Bool.false_ne_true
      · exact hqueue
    have hnone : s.workers.filterMap Searcher.chunk? = [] := by
      rw [List.filterMap_eq_nil_iff]
      intro w hw
      rw [hfinished w hw]
      rfl
    rw [pending, hqueue, hnone, List.append_nil]
  constructor
  · intro hfailed c hc
    by_contra hholds
    rcases h.complete c hc (Bool.eq_false_iff.mpr hholds) with hr | hopen
    · exact absurd (hfailed.symm.trans (hrefuted hr)) Bool.false_ne_true
    · rw [hpending hfailed] at hopen
      exact absurd hopen List.not_mem_nil
  · intro hall
    by_contra hfailed
    obtain ⟨c, hc, hholds⟩ := h.sound (.inl (eq_true_of_ne_false hfailed))
    exact absurd (hholds.symm.trans (hall c hc)) Bool.false_ne_true

/-! ### The end of a search -/

/-- A worker that has not stopped makes the load smaller. -/
theorem load_advance_lt (p : Nat → Bool) {s : Search} {place : Nat} {worker : Searcher}
    (hplace : s.workers[place]? = some worker) (h : worker ≠ .stopped) :
    Pool.load 3 Searcher.weight (s.advance p place).queue (s.advance p place).workers <
      Pool.load 3 Searcher.weight s.queue s.workers := by
  have hlt := Pool.load_set_lt hplace (Searcher.weight_step p s.queue s.failed h)
  simpa only [advance, hplace] using hlt

/-- **Every search can be brought to its end.** -/
theorem exists_finished (p : Nat → Bool) (s : Search) :
    ∃ schedule, (s.run p schedule).Finished := by
  refine Pool.exists_schedule (fun s => Pool.load 3 Searcher.weight s.queue s.workers) ?_ s
  intro s hfinished
  simp only [Finished, not_forall] at hfinished
  obtain ⟨worker, hmem, hworker⟩ := hfinished
  obtain ⟨place, hplace⟩ := List.mem_iff_getElem?.mp hmem
  exact ⟨place, load_advance_lt p hplace hworker⟩

/-- A worker on its own does what the schedule says that names it again and again. -/
theorem exists_run_eq_runAlone (p : Nat → Bool) (queue : List Chunk) (failed : Bool)
    (worker : Searcher) :
    ∃ schedule, (run p ⟨queue, failed, [worker]⟩ schedule).Finished ∧
      (run p ⟨queue, failed, [worker]⟩ schedule).failed =
        Searcher.runAlone p queue failed worker := by
  fun_induction Searcher.runAlone p queue failed worker with
  | case1 queue failed => exact ⟨[], fun w hw => List.mem_singleton.mp hw, rfl⟩
  | case2 queue failed worker _ next ih =>
      obtain ⟨schedule, hfinished, hfailed⟩ := ih
      exact ⟨0 :: schedule, hfinished, hfailed⟩

end Search

namespace PoolConfig

/-- The flag after every search of the numbers below the bound, once all have stopped. -/
theorem failed_eq_false_iff (config : PoolConfig) {count workers : Nat} {p : Nat → Bool}
    {s : Search} (hworkers : 0 < workers)
    (hsteps : Search.Reaches p (.start (config.chunks count) workers) s)
    (hfinished : s.Finished) : s.failed = false ↔ ∀ i < count, p i = true :=
  (((Search.explains_start p _ hworkers).reaches hsteps).failed_eq_false_iff hfinished).trans
    (config.forall_chunks_iff count p)

/-- **The calling worker finds out whether the predicate holds of all numbers.** -/
theorem holdsBelow_iff (config : PoolConfig) (count : Nat) (p : Nat → Bool) :
    config.holdsBelow count p = true ↔ ∀ i < count, p i = true := by
  rw [holdsBelow]
  split
  · simp only [Chunk.holds_iff, Chunk.members_zero, List.mem_range]
  · obtain ⟨schedule, hfinished, hfailed⟩ :=
      Search.exists_run_eq_runAlone p (config.chunks count) false .ready
    rw [← hfailed, Bool.not_eq_true']
    exact config.failed_eq_false_iff Nat.one_pos (Search.reaches_run p _ schedule) hfinished

end PoolConfig

end Propositional

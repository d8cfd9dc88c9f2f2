import Mathlib.Data.List.Induction
import Propositional.Substitution.Operators

/-!
# Histories of a Substitution

A substitution is kept between requests: entries are inserted and formulas are rewritten
in any order, and what a request leaves behind (the map, the cache) is what the next one
finds. Both kinds of substitution answer their requests alike, so histories are described
once, for a `SubstitutionKind`.

A `SubstitutionLaw` says what the answers ought to be without any state: which insertions
are refused, and what a formula becomes under a given assignment of formulas to keys. The
assignment in force is read off the history (`SubstitutionLaw.assigned`): for each key the
last insertion that was not refused.

A kind **follows** a law if some relation between its states and assignments holds at the
start, is kept by each single request, and lets each request be answered as the law says.
The induction over histories is done here once.

## Main results

* `SubstitutionKind.Follows.invariant`: the relation holds after every history.
* `SubstitutionKind.Follows.step_eq`: after every history each request is answered as the
  law says.
* `SubstitutionKind.Follows.answers_refused`: a refused insertion changes no other answer.
-/

namespace Propositional

variable {κ σ : Type}

/-- A request to a substitution. -/
inductive SubstitutionCall (κ : Type)
  /-- Map the key to the formula. -/
  | insert (key : κ) (f : Formula)
  /-- Rewrite the formula. -/
  | apply (f : Formula)

/-- The insertions of the entries, one after the other. -/
def SubstitutionCall.insertions (entries : List (κ × Formula)) : List (SubstitutionCall κ) :=
  entries.map fun e => .insert e.1 e.2

theorem SubstitutionCall.insertions_append_singleton (entries : List (κ × Formula)) (key : κ)
    (f : Formula) : insertions (entries ++ [(key, f)]) = insertions entries ++ [.insert key f] :=
  List.map_append

/-- The answer to a request. -/
inductive SubstitutionAnswer
  | inserted
  | refused (e : SubstitutionError)
  | rewritten (g : Formula)

/-- A kind of substitution, with states of type `σ`: its first state, and what its two
requests do. -/
structure SubstitutionKind (κ σ : Type) where
  start : σ
  insert : σ → κ → Formula → Except SubstitutionError σ
  apply : σ → Formula → Formula × σ

/-- The substitution of variables. -/
def VariableSubstitution.kind : SubstitutionKind String VariableSubstitution where
  start := empty
  insert := insert
  apply := apply

/-- The substitution of operators. -/
def OperatorSubstitution.kind : SubstitutionKind Operator OperatorSubstitution where
  start := empty
  insert := insert
  apply := apply

namespace SubstitutionKind

/-- The answer to one request, and the state after it. A refused insertion leaves the
state as it was. -/
def step (k : SubstitutionKind κ σ) (s : σ) :
    SubstitutionCall κ → SubstitutionAnswer × σ
  | .insert key f =>
      match k.insert s key f with
      | .ok s' => (.inserted, s')
      | .error e => (.refused e, s)
  | .apply f => (.rewritten (k.apply s f).1, (k.apply s f).2)

theorem step_insert_of_ok {k : SubstitutionKind κ σ} {s s' : σ} {key : κ} {f : Formula}
    (h : k.insert s key f = .ok s') : k.step s (.insert key f) = (.inserted, s') := by
  rw [step, h]

theorem step_insert_of_error {k : SubstitutionKind κ σ} {s : σ} {key : κ} {f : Formula}
    {e : SubstitutionError} (h : k.insert s key f = .error e) :
    k.step s (.insert key f) = (.refused e, s) := by
  rw [step, h]

/-- The answers to requests that are made one after the other, and the state after
them. -/
def run (k : SubstitutionKind κ σ) (s : σ) :
    List (SubstitutionCall κ) → List SubstitutionAnswer × σ
  | [] => ([], s)
  | call :: calls =>
      ((k.step s call).1 :: (k.run (k.step s call).2 calls).1,
        (k.run (k.step s call).2 calls).2)

/-- The state after a history that began with a new substitution. -/
def after (k : SubstitutionKind κ σ) (history : List (SubstitutionCall κ)) : σ :=
  (k.run k.start history).2

/-- The answers given in a history that began with a new substitution. -/
def answers (k : SubstitutionKind κ σ) (history : List (SubstitutionCall κ)) :
    List SubstitutionAnswer :=
  (k.run k.start history).1

/-- A history can be cut anywhere: the later requests start from the state that the
earlier ones left. -/
theorem run_append (k : SubstitutionKind κ σ) (s : σ) (calls later : List (SubstitutionCall κ)) :
    k.run s (calls ++ later) =
      ((k.run s calls).1 ++ (k.run (k.run s calls).2 later).1,
        (k.run (k.run s calls).2 later).2) := by
  induction calls generalizing s with
  | nil => rfl
  | cons call calls ih => simp only [List.cons_append, run, ih]

/-- Every request is answered. -/
theorem length_run (k : SubstitutionKind κ σ) (s : σ) (calls : List (SubstitutionCall κ)) :
    (k.run s calls).1.length = calls.length := by
  induction calls generalizing s with
  | nil => rfl
  | cons call calls ih => rw [run, List.length_cons, List.length_cons, ih]

/-- The answers are those of the earlier requests, then those of the later ones. -/
theorem answers_append (k : SubstitutionKind κ σ) (history later : List (SubstitutionCall κ)) :
    k.answers (history ++ later) = k.answers history ++ (k.run (k.after history) later).1 := by
  rw [answers, run_append]
  rfl

/-- One more request leads on from the state after the history. -/
theorem after_append_singleton (k : SubstitutionKind κ σ) (history : List (SubstitutionCall κ))
    (call : SubstitutionCall κ) :
    k.after (history ++ [call]) = (k.step (k.after history) call).2 := by
  rw [after, run_append]
  rfl

end SubstitutionKind

/-- What a substitution ought to answer: the fault of an insertion that is refused, and
the effect on a formula of an assignment of formulas to keys. -/
structure SubstitutionLaw (κ : Type) where
  fault? : κ → Formula → Option SubstitutionError
  effect : (κ → Option Formula) → Formula → Formula

namespace SubstitutionLaw

variable [DecidableEq κ]

/-- The formula that a key is mapped to after a history: that of the last insertion for
the key that was not refused. -/
def assigned (law : SubstitutionLaw κ) (history : List (SubstitutionCall κ)) (key : κ) :
    Option Formula :=
  history.reverse.findSome? fun
    | .insert key' f => if key' = key ∧ law.fault? key' f = none then some f else none
    | .apply _ => none

/-- The answer to a request after a history. -/
def answer (law : SubstitutionLaw κ) (history : List (SubstitutionCall κ)) :
    SubstitutionCall κ → SubstitutionAnswer
  | .insert key f =>
      match law.fault? key f with
      | none => .inserted
      | some e => .refused e
  | .apply f => .rewritten (law.effect (law.assigned history) f)

/-- An insertion that is not refused is in force for its key, and for no other. -/
theorem assigned_insert {law : SubstitutionLaw κ} (history : List (SubstitutionCall κ))
    {key : κ} {f : Formula} (h : law.fault? key f = none) :
    law.assigned (history ++ [.insert key f]) =
      fun key' => if key = key' then some f else law.assigned history key' := by
  funext key'
  by_cases hkey : key = key'
  · subst hkey
    simp [assigned, h]
  · simp [assigned, hkey]

/-- A refused insertion is never in force. -/
theorem assigned_refused {law : SubstitutionLaw κ} (history : List (SubstitutionCall κ))
    {key : κ} {f : Formula} {e : SubstitutionError} (h : law.fault? key f = some e) :
    law.assigned (history ++ [.insert key f]) = law.assigned history := by
  funext key'
  simp [assigned, h]

/-- Rewriting a formula assigns nothing. -/
theorem assigned_apply (law : SubstitutionLaw κ) (history : List (SubstitutionCall κ))
    (f : Formula) : law.assigned (history ++ [.apply f]) = law.assigned history := by
  funext key'
  simp [assigned]

/-- Of the entries that are inserted one after the other, none of which is refused, the
last one for a key is in force. -/
theorem assigned_insertions {law : SubstitutionLaw κ} {entries : List (κ × Formula)}
    (h : ∀ e ∈ entries, law.fault? e.1 e.2 = none) :
    law.assigned (SubstitutionCall.insertions entries) =
      fun key => OrderedMap.lookup key entries.reverse := by
  funext key
  have hall : ∀ e ∈ entries.reverse, law.fault? e.1 e.2 = none := fun e he =>
    h e (List.mem_reverse.mp he)
  rw [assigned, SubstitutionCall.insertions, ← List.map_reverse, List.findSome?_map]
  generalize entries.reverse = latest at hall
  induction latest with
  | nil => rfl
  | cons e latest ih =>
      obtain ⟨key', f⟩ := e
      obtain ⟨hfault, hlatest⟩ := List.forall_mem_cons.mp hall
      rw [List.findSome?_cons, OrderedMap.lookup]
      by_cases hkey : key' = key
      · subst hkey
        simp [hfault]
      · simp [hkey, ih hlatest]

/-- Only an insertion that is not refused is ever in force. -/
theorem fault?_of_assigned {law : SubstitutionLaw κ} {history : List (SubstitutionCall κ)}
    {key : κ} {f : Formula} (h : law.assigned history key = some f) : law.fault? key f = none := by
  obtain ⟨call, -, hcall⟩ := List.exists_of_findSome?_eq_some h
  cases call with
  | apply g => exact absurd hcall (by simp)
  | insert key' f' =>
      simp only [Option.ite_none_right_eq_some, Option.some.injEq] at hcall
      obtain ⟨⟨rfl, hfault⟩, rfl⟩ := hcall
      exact hfault

end SubstitutionLaw

namespace SubstitutionKind

variable [DecidableEq κ]

/-- The states of the kind, each of which stands for an assignment, obey the law in every
single request. -/
structure Follows (k : SubstitutionKind κ σ) (law : SubstitutionLaw κ)
    (Stands : σ → (κ → Option Formula) → Prop) : Prop where
  start : Stands k.start fun _ => none
  insert : ∀ {s m key f}, Stands s m → law.fault? key f = none →
    ∃ s', k.insert s key f = .ok s' ∧
      Stands s' fun key' => if key = key' then some f else m key'
  refuse : ∀ {s m key f e}, Stands s m → law.fault? key f = some e →
    k.insert s key f = .error e
  apply : ∀ {s m} (f : Formula), Stands s m →
    (k.apply s f).1 = law.effect m f ∧ Stands (k.apply s f).2 m

namespace Follows

variable {k : SubstitutionKind κ σ} {law : SubstitutionLaw κ}
  {Stands : σ → (κ → Option Formula) → Prop}

/-- **The invariant of a history**: the state stands for the assignment in force. -/
theorem invariant (h : k.Follows law Stands) (history : List (SubstitutionCall κ)) :
    Stands (k.after history) (law.assigned history) := by
  induction history using List.reverseRecOn with
  | nil => exact h.start
  | append_singleton history call ih =>
      rw [after_append_singleton]
      cases call with
      | apply f =>
          rw [law.assigned_apply]
          exact (h.apply f ih).2
      | insert key f =>
          cases hfault : law.fault? key f with
          | none =>
              obtain ⟨s', hs', hstands⟩ := h.insert ih hfault
              rw [SubstitutionLaw.assigned_insert history hfault, step_insert_of_ok hs']
              exact hstands
          | some e =>
              rw [SubstitutionLaw.assigned_refused history hfault,
                step_insert_of_error (h.refuse ih hfault)]
              exact ih

/-- Entries that the law does not refuse are all inserted. -/
theorem foldlM_insert (h : k.Follows law Stands) {entries : List (κ × Formula)}
    (hfault : ∀ e ∈ entries, law.fault? e.1 e.2 = none) :
    entries.foldlM (fun s e => k.insert s e.1 e.2) k.start =
      .ok (k.after (SubstitutionCall.insertions entries)) := by
  induction entries using List.reverseRecOn with
  | nil => rfl
  | append_singleton entries e ih =>
      obtain ⟨s', hs', -⟩ := h.insert (h.invariant (SubstitutionCall.insertions entries))
        (hfault e (by simp))
      rw [List.foldlM_append, ih fun e he => hfault e (List.mem_append_left _ he),
        SubstitutionCall.insertions_append_singleton, after_append_singleton,
        step_insert_of_ok hs']
      simp only [List.foldlM_cons, List.foldlM_nil, bind, Except.bind, hs', pure, Except.pure]

/-- **Every request is answered as the law says**, whatever the history before it. -/
theorem step_eq (h : k.Follows law Stands) (history : List (SubstitutionCall κ))
    (call : SubstitutionCall κ) :
    (k.step (k.after history) call).1 = law.answer history call := by
  have hstands := h.invariant history
  cases call with
  | apply f => rw [step, SubstitutionLaw.answer, (h.apply f hstands).1]
  | insert key f =>
      cases hfault : law.fault? key f with
      | none =>
          obtain ⟨s', hs', -⟩ := h.insert hstands hfault
          rw [step_insert_of_ok hs', SubstitutionLaw.answer, hfault]
      | some e =>
          rw [step_insert_of_error (h.refuse hstands hfault), SubstitutionLaw.answer, hfault]

/-- The answer to a request stands at the place of the request among all answers. -/
theorem answers_getElem? (h : k.Follows law Stands) (before later : List (SubstitutionCall κ))
    (call : SubstitutionCall κ) :
    (k.answers (before ++ call :: later))[before.length]? = some (law.answer before call) := by
  have hlength : (k.answers before).length = before.length := k.length_run k.start before
  rw [answers_append, List.getElem?_append_right (Nat.le_of_eq hlength), hlength,
    Nat.sub_self, ← h.step_eq before call]
  rfl

/-- **A refused insertion changes no other answer**: the later requests are answered as
they are without it. -/
theorem answers_refused (h : k.Follows law Stands) (before later : List (SubstitutionCall κ))
    {key : κ} {f : Formula} {e : SubstitutionError} (hfault : law.fault? key f = some e) :
    k.answers (before ++ .insert key f :: later) =
      k.answers before ++ .refused e :: (k.answers (before ++ later)).drop before.length := by
  have hstep : k.step (k.after before) (.insert key f) = (.refused e, k.after before) :=
    step_insert_of_error (h.refuse (h.invariant before) hfault)
  have hlength : (k.answers before).length = before.length := k.length_run k.start before
  rw [answers_append, answers_append, run, hstep, ← hlength, List.drop_left]

end Follows

end SubstitutionKind

end Propositional

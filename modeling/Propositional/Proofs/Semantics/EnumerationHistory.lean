import Propositional.Proofs.Semantics.ModelOrder

/-!
# The History of an Enumeration

An enumeration is stepped, skipped ahead, and asked for a model by its number, for the number of
models still to come, and for the number of all models, in any order and as often as one likes.
All that remains of such a history is how many models the calls have asked to pass
(`EnumerationCall.passed`): one by a step, and one more than it skips by a skip.

A call passes just the models that it asks to pass, or all of them if there are fewer
(`Enumeration.snd_step`), and one that passes some after another one is like one call that passes
all of these (`Enumeration.passing_passing`). So a history leaves the enumeration where a single
call would leave it (`Enumeration.after_eq`), and what the next call returns is found in the list of
all models (`Enumeration.fst_step_passing`). That a position is cut off at `maxPosition` does not
matter, since the models end long before it (`Enumeration.nth?_eq`).

## Main definitions

* `EnumerationCall`, `EnumerationAnswer`, `Enumeration.step`, `Enumeration.after`: the calls, what
  they return, and what they do to an enumeration.
* `EnumerationCall.answer`: what a call has to return, in terms of the list of all models.
* `Enumeration.IsFaithful`: what it is to be a faithful view of an enumeration.

## Main results

* `Enumeration.nth?_eq`: to skip models is to step over each of them.
* `Enumeration.after_eq`: where a history leaves an enumeration.
* `Enumeration.history_faithful`: an enumeration is a faithful view after every history.
-/

namespace Propositional

/-! ### Calls and what they have to return -/

/-- A call on an enumeration. -/
inductive EnumerationCall
  /-- Take the next model. -/
  | next
  /-- Skip `n` models and take the one after them. -/
  | nth (n : Nat)
  /-- Count the models still to come. -/
  | remaining
  /-- Count all models. -/
  | numModels
  /-- Look at the model with a number. -/
  | modelAt (number : Nat)

/-- What a call returns. -/
inductive EnumerationAnswer
  | model (found : Option Model)
  | count (models : Nat)

namespace EnumerationCall

/-- The number of models that a call asks to pass. -/
def passes : EnumerationCall → Nat
  | next => 1
  | nth n => n + 1
  | remaining | numModels | modelAt _ => 0

/-- The number of models that the calls ask to pass, all together. -/
def passed (calls : List EnumerationCall) : Nat :=
  (calls.map passes).sum

/-- What the call has to return, if `models` are all models in order and the calls before it have
asked to pass `passed` of them. -/
def answer (models : List Model) (passed : Nat) : EnumerationCall → EnumerationAnswer
  | next => .model models[passed]?
  | nth n => .model models[passed + n]?
  | remaining => .count (models.length - passed)
  | numModels => .count models.length
  | modelAt number => .model models[number]?

end EnumerationCall

open EnumerationCall (passed)

namespace Enumeration

/-- What the call returns, and the enumeration after it. -/
def step (e : Enumeration) : EnumerationCall → EnumerationAnswer × Enumeration
  | .next => (.model e.next?.1, e.next?.2)
  | .nth n => (.model (e.nth? n).1, (e.nth? n).2)
  | .remaining => (.count e.remaining, e)
  | .numModels => (.count e.numModels, e)
  | .modelAt number => (.model (e.modelAt? number), e)

/-- The enumeration after the calls. -/
def after (e : Enumeration) (calls : List EnumerationCall) : Enumeration :=
  calls.foldl (fun e call => (e.step call).2) e

/-- The enumeration after so many models, or after the last one if there are fewer to come. -/
def passing (e : Enumeration) (count : Nat) : Enumeration :=
  { e with next := min (e.next + count) e.stop }

/-! ### Passing models -/

variable {e : Enumeration}

/-- No model is passed that is not there. -/
theorem next_passing_le (e : Enumeration) (count : Nat) :
    (e.passing count).next ≤ (e.passing count).stop :=
  Nat.min_le_right _ _

/-- To pass no model changes nothing. -/
theorem passing_zero (h : e.next ≤ e.stop) : e.passing 0 = e := by
  rw [passing, Nat.add_zero, Nat.min_eq_left h]

/-- To pass some models and then others is to pass all of them. -/
theorem passing_passing (e : Enumeration) (first second : Nat) :
    (e.passing first).passing second = e.passing (first + second) := by
  have hnext : min (min (e.next + first) e.stop + second) e.stop =
      min (e.next + (first + second)) e.stop := by omega
  simp only [passing, hnext]

/-- A step passes one model. -/
theorem snd_next? (h : e.next ≤ e.stop) : e.next?.2 = e.passing 1 :=
  stepped_iterate h 1

/-- After some models the next one is that with the number from there on, if it is there. -/
theorem fst_next?_passing (h : e.next ≤ e.stop) (count : Nat) :
    (e.passing count).next?.1 = e.modelAt? (e.next + count) := by
  rw [passing, ← stepped_iterate h, fst_next?_iterate h]

/-- **Models that are skipped are passed**, however many they are: the sum is cut off only where
it is beyond the end. -/
theorem nth?_eq (hstop : e.stop ≤ maxPosition) (n : Nat) : e.nth? n = (e.passing n).next? := by
  have hnext : min (skip e.next n) e.stop = min (e.next + n) e.stop := by
    rw [skip]
    omega
  rw [nth?, hnext, passing]

/-- Where an enumeration stands has no effect on the numbers of the models. -/
theorem modelAt?_passing (e : Enumeration) (count number : Nat) :
    (e.passing count).modelAt? number = e.modelAt? number :=
  rfl

/-- The models still to come are those that have not been passed. -/
theorem rest_passing (e : Enumeration) (count : Nat) :
    (e.passing count).rest = e.rest.drop count := by
  refine List.ext_getElem? fun i => ?_
  rw [List.getElem?_drop, getElem?_rest, getElem?_rest, modelAt?_passing, ← Nat.add_assoc]
  rcases Nat.lt_or_ge (e.next + count) e.stop with hlt | hge
  · rw [passing, Nat.min_eq_left (Nat.le_of_lt hlt)]
  · -- there is no model at the end or beyond it
    rw [passing, Nat.min_eq_right hge, modelAt?, modelAt?,
      if_neg (Nat.not_lt.mpr (Nat.le_add_right e.stop i)),
      if_neg (Nat.not_lt.mpr (Nat.le_trans hge (Nat.le_add_right _ i)))]

/-! ### What a call does, and what a history does -/

/-- **A call passes as many models as it asks to pass**, or all of them if there are fewer. -/
theorem snd_step (h : e.next ≤ e.stop) (hstop : e.stop ≤ maxPosition) (call : EnumerationCall) :
    (e.step call).2 = e.passing call.passes := by
  cases call with
  | next => exact snd_next? h
  | nth n =>
      change (e.nth? n).2 = _
      rw [nth?_eq hstop, snd_next? (next_passing_le e n), passing_passing]
      rfl
  | remaining | numModels | modelAt number => exact (passing_zero h).symm

/-- **A history leaves an enumeration after the models that its calls have asked to pass.** -/
theorem after_eq (h : e.next ≤ e.stop) (hstop : e.stop ≤ maxPosition)
    (calls : List EnumerationCall) : e.after calls = e.passing (passed calls) := by
  induction calls generalizing e with
  | nil => exact (passing_zero h).symm
  | cons call calls ih =>
      have hfirst := snd_step h hstop call
      calc e.after (call :: calls)
          = (e.passing call.passes).after calls := by rw [← hfirst]; rfl
        _ = (e.passing call.passes).passing (passed calls) := ih (next_passing_le _ _) hstop
        _ = e.passing (passed (call :: calls)) := passing_passing e _ _

/-- To skip models and take the one after them is to step over each of them. -/
theorem step_nth (h : e.next ≤ e.stop) (hstop : e.stop ≤ maxPosition) (n : Nat) :
    e.step (.nth n) = (e.after (List.replicate n .next)).step .next := by
  have hcount : passed (List.replicate n .next) = n := by
    rw [passed, List.map_replicate, List.sum_replicate_nat]
    exact Nat.mul_one n
  have hskip : e.step (.nth n) = (e.passing n).step .next := by
    change (EnumerationAnswer.model (e.nth? n).1, (e.nth? n).2) = _
    rw [nth?_eq hstop]
    rfl
  rw [hskip, after_eq h hstop, hcount]

/-- **What a call returns is found in the list of all models.** -/
theorem fst_step_passing {vars : List String} (hstop : 2 ^ vars.length ≤ maxPosition) (count : Nat)
    (call : EnumerationCall) :
    (((start vars).passing count).step call).1 = call.answer (start vars).rest count := by
  have hnext : ∀ count, ((start vars).passing count).next?.1 = (start vars).rest[count]? := by
    intro count
    rw [fst_next?_passing (Nat.zero_le _), getElem?_rest]
  cases call with
  | next => exact congrArg _ (hnext count)
  | nth n =>
      refine congrArg EnumerationAnswer.model ?_
      rw [nth?_eq hstop, passing_passing, hnext]
  | remaining =>
      refine congrArg EnumerationAnswer.count ?_
      rw [← length_rest, rest_passing, List.length_drop]
  | numModels =>
      refine congrArg EnumerationAnswer.count ?_
      rw [length_rest]
      rfl
  | modelAt number => exact congrArg _ (getElem?_rest_start vars number).symm

/-- The enumeration `e'`, after calls that have asked to pass `count` models of `e`, is a faithful
view of the models of `e`. -/
structure IsFaithful (e' e : Enumeration) (count : Nat) : Prop where
  /-- The position is never beyond the end, and the end is no farther than can be counted. -/
  next_le : e'.next ≤ e'.stop
  stop_le : e'.stop ≤ maxPosition
  /-- The models from the position on are still to come, and the others have been passed. -/
  next_eq : e'.next = min count e.rest.length
  rest_eq : e'.rest = e.rest.drop e'.next
  /-- So many models are still to come as have not been passed. -/
  remaining_eq : e'.remaining = e'.rest.length
  next_add_remaining : e'.next + e'.remaining = e.rest.length
  /-- The next call returns what it has to. -/
  fst_step : ∀ call, (e'.step call).1 = call.answer e.rest count
  /-- To skip models and take the one after them is to take one after the other. -/
  step_nth : ∀ n, e'.step (.nth n) = (e'.after (List.replicate n .next)).step .next
  /-- The models and their number have not changed. -/
  modelAt?_eq : ∀ number, e'.modelAt? number = e.modelAt? number
  numModels_eq : e'.numModels = e.numModels
  /-- Once the end is reached no model comes any more, whatever is called. -/
  ended : e'.next = e'.stop → ∀ later, (e'.after later).next?.1 = none ∧
    ∀ n, ((e'.after later).nth? n).1 = none

/-- At the end nothing comes any more. -/
theorem ended_of_next_eq (h : e.next = e.stop) (hstop : e.stop ≤ maxPosition)
    (later : List EnumerationCall) :
    (e.after later).next?.1 = none ∧ ∀ n, ((e.after later).nth? n).1 = none := by
  have hnone : ∀ count, (e.passing count).next?.1 = none := by
    intro count
    rw [fst_next?_passing (Nat.le_of_eq h), h]
    exact if_neg (Nat.not_lt.mpr (Nat.le_add_right e.stop count))
  rw [after_eq (Nat.le_of_eq h) hstop]
  refine ⟨hnone _, fun n => ?_⟩
  rw [nth?_eq (e := e.passing _) hstop, passing_passing, hnone]

/-- **An enumeration is a faithful view of its models after every history.** Let an enumeration of
the models over some variables be made, and any calls follow: steps, skips of any length, counts and
lookups. The position is then at the model after those that were passed, and never beyond the end;
the models from there on are still to come, and they are counted right. A skip, even one
that leads beyond all positions that can be counted to, returns what as many steps and one more
return last, and leaves the enumeration where they do. Lookups and the number of all models do not
depend on the position, and after the end neither a step nor a skip yields a model ever again. -/
theorem history_faithful {vars : List String} {e : Enumeration} (h : ofVariables vars = .ok e)
    (calls : List EnumerationCall) : (e.after calls).IsFaithful e (passed calls) := by
  obtain ⟨-, hfew, rfl⟩ := of_ofVariables h
  have hstop : (start vars).stop ≤ maxPosition := by
    have hpow : 2 ^ vars.length ≤ 2 ^ 63 :=
      Nat.pow_le_pow_right (by decide) (Nat.le_of_lt_succ hfew)
    exact Nat.le_trans hpow (by decide)
  have hlength : (start vars).rest.length = (start vars).stop := length_rest (start vars)
  rw [after_eq (Nat.zero_le _) hstop]
  have hle := next_passing_le (start vars) (passed calls)
  have hnext : ((start vars).passing (passed calls)).next =
      min (passed calls) (start vars).rest.length := by
    rw [hlength, passing, start, Nat.zero_add]
  constructor
  case next_le => exact hle
  case stop_le => exact hstop
  case next_eq => exact hnext
  case rest_eq =>
    rw [rest_passing, hnext, List.drop_eq_drop_iff, Nat.min_assoc, Nat.min_self]
  case remaining_eq => exact (length_rest _).symm
  case next_add_remaining =>
    rw [hlength]
    exact Nat.add_sub_cancel' hle
  case fst_step => exact fst_step_passing hstop (passed calls)
  case step_nth => exact step_nth hle hstop
  case modelAt?_eq => exact modelAt?_passing _ _
  case numModels_eq => rfl
  case ended => exact fun hend => ended_of_next_eq hend hstop

/-- The four models over `q7` and `p`: one step and a skip of the greatest length lead to the end,
where nothing is still to come, and the model with the number 2 can still be looked up. -/
theorem history_faithful_two_variables :
    ∃ e, ofVariables ["q7", "p"] = .ok e ∧
      (e.after [.next, .nth 18446744073709551615]).next = 4 ∧
      (e.after [.next, .nth 18446744073709551615]).remaining = 0 ∧
      ((e.after [.next, .nth 18446744073709551615]).step (.modelAt 2)).1 = .model e.rest[2]? ∧
      (((e.after [.next, .nth 18446744073709551615]).after [.modelAt 2]).nth? 1).1 = none ∧
      (e.after [.next, .nth 1]).rest = e.rest.drop 3 := by
  have hvariables : ofVariables ["q7", "p"] = .ok (start ["q7", "p"]) :=
    ofVariables_eq_ok (by decide) (by decide) (by decide)
  have hlong := history_faithful hvariables [.next, .nth 18446744073709551615]
  have hshort := history_faithful hvariables [.next, .nth 1]
  have hlength : (start ["q7", "p"]).rest.length = 4 := length_rest _
  have hpast : min (passed [.next, .nth 18446744073709551615]) 4 = 4 := by decide
  have hend := hlong.next_eq
  have hstep := hshort.next_eq
  have hcount := hlong.next_add_remaining
  rw [hlength, hpast] at hend
  rw [hlength] at hstep hcount
  have hended := hlong.ended (hend.trans hlong.numModels_eq.symm)
  refine ⟨_, hvariables, hend, by omega, hlong.fst_step _, (hended [.modelAt 2]).2 1, ?_⟩
  rw [hshort.rest_eq, hstep]
  rfl

end Enumeration

end Propositional

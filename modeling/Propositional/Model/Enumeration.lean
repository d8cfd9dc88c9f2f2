import Propositional.Model.Basic
import Propositional.OrderedSet

/-!
# The Enumeration of Models

The models over a list of distinct variables are numbered from zero: the number is read in binary,
one digit per variable, the first variable being the most significant digit and a digit of one
meaning that the variable is true. So `F` comes before `T`, and earlier variables change more
slowly. An enumeration is the list of variables with the number of the next model; it can be
stepped, skipped ahead, asked for any model by number, and gone through to its end or to the first
failure.

## Main definitions

* `bit`: the digit of a variable in the number of a model.
* `numModels`: the number of models over a number of variables, or the refusal to count so many.
* `Enumeration`, with `ofVariables`, `modelAt?`, `next?`, `nth?`, `rest`, `traverse`.
* `Enumeration.maxPosition`: where a skip that leads too far is cut off.

## Main results

* `Enumeration.rest_eq`: the models still to come are the next one and those after it.
* `Enumeration.traverse_eq`: to go through an enumeration is to go through these models.
-/

namespace Propositional

/-- The digit at place `i`, counted from the most significant of `width` digits, of a number. -/
def bit (width number i : Nat) : Bool :=
  number.testBit (width - 1 - i)

/-- The number of variables from which on the models are too many to be numbered. -/
def variableLimit : Nat := 64

/-- The number of models over `count` variables. -/
def numModels (count : Nat) : Except SemanticsError Nat :=
  if variableLimit ≤ count then .error (.tooManyVariables count) else .ok (Nat.pow 2 count)

/-- The first member of a list that is among `seen` or stands earlier in the list. -/
def firstRepeated? (seen : OrderedSet String) : List String → Option String
  | [] => none
  | x :: xs => if x ∈ seen then some x else firstRepeated? (seen.insert x) xs

/-- The models over a list of variables, from the number `next` on, of `stop` models in all. -/
structure Enumeration where
  vars : List String
  next : Nat
  stop : Nat

namespace Enumeration

/-- The enumeration of all models over the variables, at its start. -/
def ofVariables (vars : List String) : Except SemanticsError Enumeration :=
  match vars.find? fun name => !isVariable name with
  | some name => .error (.invalidVariable name)
  | none =>
    match firstRepeated? ∅ vars with
    | some name => .error (.duplicateVariable name)
    | none => (numModels vars.length).map fun stop => ⟨vars, 0, stop⟩

/-- The number of all models, those already passed included. -/
def numModels (e : Enumeration) : Nat := e.stop

/-- The number of models still to come. -/
def remaining (e : Enumeration) : Nat := e.stop - e.next

/-- The entries of the model with the given number, where `i` variables stand before these. -/
def entriesAt (width number : Nat) (i : Nat) : List String → List (String × Bool)
  | [] => []
  | name :: rest => (name, bit width number i) :: entriesAt width number (i + 1) rest

/-- The model with the given number. -/
def modelAt? (e : Enumeration) (number : Nat) : Option Model :=
  if number < e.stop then
    some ⟨⟨entriesAt e.vars.length number 0 e.vars⟩⟩
  else none

/-- The next model, and the enumeration after it. -/
def next? (e : Enumeration) : Option Model × Enumeration :=
  match e.modelAt? e.next with
  | some m => (some m, { e with next := e.next + 1 })
  | none => (none, e)

/-- The greatest position that can be counted to, 2⁶⁴ - 1. -/
def maxPosition : Nat := 18446744073709551615

/-- The position `n` places on, or `maxPosition` if it is farther. -/
def skip (position n : Nat) : Nat := min (position + n) maxPosition

/-- The model after skipping `n` models, and the enumeration after it. -/
def nth? (e : Enumeration) (n : Nat) : Option Model × Enumeration :=
  next? { e with next := min (skip e.next n) e.stop }

/-- The models still to come. -/
def rest (e : Enumeration) : List Model :=
  (List.range' e.next e.remaining).filterMap e.modelAt?

/-- A model that is still to come comes out and is passed. -/
theorem next?_of_lt {e : Enumeration} (h : e.next < e.stop) :
    ∃ m, e.modelAt? e.next = some m ∧ e.next? = (some m, { e with next := e.next + 1 }) := by
  simp [next?, modelAt?, h]

/-- An enumeration stays where it is after its last model. -/
theorem next?_of_le {e : Enumeration} (h : e.stop ≤ e.next) : e.next? = (none, e) := by
  simp [next?, modelAt?, Nat.not_lt.2 h]

/-- The models still to come are the next one and those that come after it. -/
theorem rest_eq (e : Enumeration) :
    e.rest = match e.next? with
      | (none, _) => []
      | (some m, after) => m :: after.rest := by
  rcases Nat.lt_or_ge e.next e.stop with h | h
  · obtain ⟨m, hm, hn⟩ := next?_of_lt h
    have hr : e.remaining = (e.stop - (e.next + 1)) + 1 := by unfold remaining; omega
    rw [hn, rest, hr, List.range'_succ, List.filterMap_cons, hm]
    rfl
  · rw [next?_of_le h, rest, remaining, Nat.sub_eq_zero_of_le h]
    rfl

/-- A step that yields a model leaves fewer models to come. -/
theorem remaining_lt {e after : Enumeration} {m : Model} (h : e.next? = (some m, after)) :
    after.remaining < e.remaining := by
  rcases Nat.lt_or_ge e.next e.stop with hlt | hle
  · obtain ⟨_, _, hn⟩ := next?_of_lt hlt
    obtain rfl : { e with next := e.next + 1 } = after := (Prod.mk.inj (hn.symm.trans h)).2
    simp only [remaining]
    omega
  · simp [next?_of_le hle] at h

/-- Adds what `act` makes of the models still to come to the results `done`, the last of which
comes first. -/
def traverseOnto {ε α : Type} (act : Model → Except ε α) (e : Enumeration) (done : List α) :
    Except ε (List α) :=
  match _h : e.next? with
  | (none, _) => .ok done.reverse
  | (some m, after) =>
    match act m with
    | .error x => .error x
    | .ok a => traverseOnto act after (a :: done)
termination_by e.remaining
decreasing_by exact remaining_lt _h

/-- What `act` makes of the models still to come, one model after the other. The models after one
that `act` fails on are never made. -/
def traverse {ε α : Type} (act : Model → Except ε α) (e : Enumeration) : Except ε (List α) :=
  e.traverseOnto act []

theorem traverseOnto_eq {ε α : Type} (act : Model → Except ε α) (e : Enumeration)
    (done : List α) :
    e.traverseOnto act done = (e.rest.mapM act).map (done.reverse ++ ·) := by
  fun_induction traverseOnto act e done with
  | case1 e done e' h => simp [rest_eq e, h, pure, Except.pure, Except.map]
  | case2 e done m after h x hx =>
    simp [rest_eq e, h, hx, bind, Except.bind, Except.map]
  | case3 e done m after h a ha ih =>
    rw [ih, rest_eq e, h]
    simp only [List.mapM_cons, ha, bind, Except.bind]
    cases after.rest.mapM act <;> simp [Except.map, pure, Except.pure]

/-- To go through an enumeration is to go through the list of the models still to come. -/
theorem traverse_eq {ε α : Type} (act : Model → Except ε α) (e : Enumeration) :
    e.traverse act = e.rest.mapM act := by
  rw [traverse, traverseOnto_eq]
  cases e.rest.mapM act <;> rfl

end Enumeration

end Propositional

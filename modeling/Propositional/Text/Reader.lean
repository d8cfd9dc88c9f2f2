import Propositional.Formula.Basic
import Propositional.Text.Token

/-!
# Readers

A notation is read by an automaton that is fed one token after the other. A state either has a
result, and then reading ends, or it takes some of the tokens and refuses the others. In some states
an operand is about to be read; the number of operations around it is known there, so that the
depth of the formula can be bounded before it is read.

`Reader.run` feeds an automaton from a lexer. It returns the result or the first error, and the
lexer where it stands then: a token that was refused has been read, a character that starts no
token has not.

## Main definitions

* `Reader`: an automaton that reads formulas.
* `Reader.run`: reading from a lexer.

## Main results

* `Reader.run_eq`: one round of reading.
-/

namespace Propositional

/-- An automaton that reads a formula from tokens. -/
structure Reader (σ : Type) where
  /-- The state before the first token. -/
  start : σ
  /-- The state after a token, unless the token is refused. -/
  feed : σ → Token → Option σ
  /-- The formula that has been read, once it is complete. -/
  result? : σ → Option Formula
  /-- The number of operations around the operand that is about to be read, if one is. -/
  enclosing? : σ → Option Nat

namespace Reader

variable {σ : Type}

/-- The bound on the depth, if the operand that is about to be read in the state would exceed it. -/
def exceeded? (r : Reader σ) (limit : Option Nat) (s : σ) : Option Nat :=
  limit.filter fun d => (r.enclosing? s).any (d ≤ ·)

/-- Feeds the automaton from the lexer until it has a result or an error occurs. -/
def run (r : Reader σ) (limit : Option Nat) (s : σ) (l : Lexer) :
    Except SyntaxError Formula × Lexer :=
  match r.result? s with
  | some f => (.ok f, l)
  | none =>
    match r.exceeded? limit s with
    | some d => (.error ⟨.tooDeep d, l.column⟩, l)
    | none =>
      match _next : l.next with
      | .error e => (.error e, l)
      | .ok (token, l') =>
        match r.feed s token with
        | none => (.error ⟨.unexpectedToken token, l.column⟩, l')
        | some s' => run r limit s' l'
termination_by l.rest.length
decreasing_by exact Lexer.length_next _next

/-- One round of reading. -/
theorem run_eq (r : Reader σ) (limit : Option Nat) (s : σ) (l : Lexer) :
    r.run limit s l =
      match r.result? s with
      | some f => (.ok f, l)
      | none =>
        match r.exceeded? limit s with
        | some d => (.error ⟨.tooDeep d, l.column⟩, l)
        | none =>
          match l.next with
          | .error e => (.error e, l)
          | .ok (token, l') =>
            match r.feed s token with
            | none => (.error ⟨.unexpectedToken token, l.column⟩, l')
            | some s' => r.run limit s' l' := by
  rw [run]
  split
  · rfl
  · split
    · rfl
    · split <;> rename_i h <;> simp only [h]

end Reader

end Propositional

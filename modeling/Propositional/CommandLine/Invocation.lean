import Propositional.CommandLine.Log
import Propositional.WorkerPool.Chunk

/-!
# What the Program Is Asked to Do

A command line asks for a command, and for the records that are to be written. How it is read is
left open. A reader of command lines is any function that either finds out what a line asks for or
ends the program with what is to be said about the line itself, and how the program is described to
its users, or what it tells them about a line that it does not accept, is the reader's own affair.

## Main definitions

* `Command`, `Invocation`: what the program is asked to do.
* `Outcome`: how a run of the program ends.
* `ArgumentReader`: readers of command lines.
-/

namespace Propositional

/-- What the program is asked to do. A formula that is `-` is read from the input. -/
inductive Command
  | parse (formula : String) (maxDepth : Option Nat) (polish : Bool)
  | eval (formula : String) (maxDepth : Option Nat) (assignments : List String)
  | table (formula : String) (maxDepth : Option Nat) (config : PoolConfig)
  | analyze (formula : String) (maxDepth : Option Nat) (config : PoolConfig)
  | synth (names : String) (values : String) (conjunctive : Bool)
  | subst (formula : String) (maxDepth : Option Nat) (entries : List String) (ofVariables : Bool)
  | infer (conclusion : String) (maxDepth : Option Nat) (assumptions : List String)
      (model : List String) (config : PoolConfig)

/-- A command and the records that are to be written. -/
structure Invocation where
  level : LogLevel
  command : Command

/-- How a run of the program ends: its exit code and the texts it has written. -/
structure Outcome where
  exitCode : Nat
  stdout : String
  stderr : String
  deriving DecidableEq

/-- Reads command lines. A line asks for a command, or else the reader tells how the program ends,
as it does for a line that is not accepted or that asks for a description of the program. -/
abbrev ArgumentReader := List String → Except Outcome Invocation

end Propositional

import Propositional.CommandLine.Arguments
import Propositional.CommandLine.Run

/-!
# The Program

The outer layer: reads the input, runs the program with the conventional reader of command lines,
and writes what it has to say. The input is read only if some argument asks for it, and only up to
the end of its first line.
-/

open Propositional

/-- Reads the bytes of a stream up to and including the first line feed. -/
partial def readLineBytes (stream : IO.FS.Stream) (line : List UInt8) : IO (List UInt8) := do
  let bytes ← stream.read 1
  match bytes.toList with
  | [] => return line.reverse
  | byte :: _ =>
    if byte = 10 then return (byte :: line).reverse else readLineBytes stream (byte :: line)

/-- The texts of notices. -/
def noticeText : Notice → String
  | .version => "propositional\n"
  | .help | .refusal =>
    "usage: [--log LEVEL] [--no-color] parse|eval|table|analyze|synth|subst|infer [OPTIONS] ...\n"

/-- Runs the program. -/
def main (arguments : List String) : IO UInt32 := do
  let input ← if arguments.contains "-" then readLineBytes (← IO.getStdin) [] else pure []
  let outcome := runProgram (.conventional noticeText) arguments input
  IO.print outcome.stdout
  IO.eprint outcome.stderr
  return outcome.exitCode.toUInt32

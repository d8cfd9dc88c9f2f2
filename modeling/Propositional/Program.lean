import Propositional.Evaluation
import Propositional.Model.Enumeration

/-!
# Compiled Formulas

To be evaluated in many models a formula is compiled, once, to a list of instructions for a stack
of truth values: a variable loads its digit of the number of the model, an operator replaces its
operands on the stack by its value. Along with the instructions the compiler keeps the height of
the stack after each of them.

## Main definitions

* `Instruction`, `Program`: compiled formulas.
* `Program.compile`: the program of a formula over a list of variables.
* `Program.run?`, `Program.eval`: the value in the model with a given number.
-/

namespace Propositional

/-- An instruction for a stack of truth values. -/
inductive Instruction
  /-- Push the value of the variable at the given place. -/
  | load (place : Nat)
  /-- Replace the operands on top of the stack by the value of the operator. -/
  | apply (op : Operator)
  deriving DecidableEq

/-- The change that an instruction makes to the stack, in the model with the given number. -/
def Instruction.run? (width number : Nat) (stack : List Bool) : Instruction → Option (List Bool)
  | load place => some (bit width number place :: stack)
  | apply op => op.reduce? stack

/-- A compiled formula: its instructions, the number of variables of the models it is evaluated
in, and the greatest height of the stack. -/
structure Program where
  instructions : List Instruction
  width : Nat
  maxHeight : Nat

/-- A program under construction: its instructions from the last to the first, the height of the
stack after them, and the greatest height so far. -/
structure Compilation where
  code : List Instruction
  height : Nat
  maxHeight : Nat

namespace Compilation

/-- The program without instructions. -/
def start : Compilation := ⟨[], 0, 0⟩

/-- Adds an instruction that takes `arity` values off the stack and pushes one. -/
def emit (c : Compilation) (instruction : Instruction) (arity : Nat) : Compilation :=
  let height := c.height - arity + 1
  ⟨instruction :: c.code, height, max c.maxHeight height⟩

/-- Adds the instruction of a subformula whose operands have been compiled. -/
def add (vars : List String) (c : Compilation) (f : Formula) :
    Except SemanticsError Compilation :=
  match f with
  | .var name =>
    match vars.idxOf? name with
    | some place => .ok (c.emit (.load place) 0)
    | none => .error (.missingVariable name)
  | .const value => .ok (c.emit (.apply (.constant value)) 0)
  | .not _ => .ok (c.emit (.apply .negation) 1)
  | .binary k _ _ => .ok (c.emit (.apply (.binary k)) 2)

/-- The finished program, for models over `width` variables. -/
def finish (c : Compilation) (width : Nat) : Program :=
  ⟨c.code.reverse, width, c.maxHeight⟩

end Compilation

namespace Program

/-- The program of a formula for the models over the given variables. -/
def compile (f : Formula) (vars : List String) : Except SemanticsError Program :=
  let compilation : Except SemanticsError Compilation :=
    f.postorderStart.foldl (fun c g => c.bind (Compilation.add vars · g)) (.ok .start)
  compilation.map fun c => c.finish vars.length

/-- The stack after all instructions, in the model with the given number. -/
def run? (p : Program) (number : Nat) : Option (List Bool) :=
  p.instructions.foldlM (Instruction.run? p.width number) []

/-- The value in the model with the given number: the one value left on the stack. -/
def eval (p : Program) (number : Nat) : Bool :=
  match p.run? number with
  | some [value] => value
  | _ => false

end Program

end Propositional

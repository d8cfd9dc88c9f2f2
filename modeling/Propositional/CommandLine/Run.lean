import Propositional.Analysis
import Propositional.CommandLine.Invocation
import Propositional.Inference
import Propositional.Text.Split
import Propositional.TruthTable.Rendering
import Propositional.TruthTable.Synthesis

/-!
# The Commands

Each command is a computation that prints text and makes records, and that an error may end; what
was printed before the error stays. The program as a whole is a function from the arguments and the
bytes of its input to an exit code and two texts, for any reader of its command line.

## Main definitions

* `CommandError`: what can end a command, with its text `CommandError.message`.
* `Activity`: computations that print, make records and may fail.
* `Command.run`: the commands.
* `runProgram`: the program.
-/

namespace Propositional

/-- What can end a command. -/
inductive CommandError
  | expectedTruthValue (got : String)
  | expectedPair (got : String)
  | notAnOperator (got : String)
  | undecodableInput
  | failed (e : Error)
  deriving DecidableEq

/-- The text of the error. -/
def CommandError.message : CommandError → String
  | expectedTruthValue got => s!"invalid argument: expected truth value, got '{got}'"
  | expectedPair got => s!"invalid argument: expected 'key=value', got '{got}'"
  | notAnOperator got => s!"invalid argument: '{got}' is not an operator"
  | undecodableInput => "IO error: stream did not contain valid UTF-8"
  | failed e => e.message

/-- What a command has printed, and the records it has made. -/
structure Output where
  printed : String := ""
  records : List Record := []

/-- A computation that prints text and makes records, and that an error may end. -/
abbrev Activity := ExceptT CommandError (StateM Output)

namespace Activity

/-- Prints a line. -/
def print (line : String) : Activity Unit :=
  modify fun out => { out with printed := out.printed ++ line ++ "\n" }

/-- Makes a record. -/
def log (severity : Severity) (message : String) : Activity Unit :=
  modify fun out => { out with records := out.records ++ [⟨severity, message⟩] }

/-- Goes on with a result, or ends with its error. -/
def lift {ε α : Type} (cause : ε → Error) : Except ε α → Activity α
  | .ok a => pure a
  | .error e => throw (.failed (cause e))

/-- The part of the input up to the first line end, which is included. -/
def firstLine : List UInt8 → List UInt8
  | [] => []
  | b :: rest => if b = 10 then [b] else b :: firstLine rest

/-- The text without the line feeds and carriage returns at its end. -/
def trimLineEnd (s : String) : String :=
  String.ofList (s.toList.reverse.dropWhile fun c => c == '\n' || c == '\r').reverse

/-- The text of a formula argument, which is the first line of the input if it is `-`. -/
def formulaText (input : List UInt8) (argument : String) : Activity String :=
  if argument = "-" then
    match String.fromUTF8? (ByteArray.mk (firstLine input).toArray) with
    | some line => pure (trimLineEnd line)
    | none => throw .undecodableInput
  else pure argument

/-- A formula in standard notation. -/
def formula (s : String) (maxDepth : Option Nat) : Activity Formula :=
  lift .ofText (parse s maxDepth)

/-- A truth value as an argument. -/
def truthValue (s : String) : Activity Bool :=
  if s = "T" ∨ s = "true" ∨ s = "1" then pure true
  else if s = "F" ∨ s = "false" ∨ s = "0" then pure false
  else throw (.expectedTruthValue s)

/-- The two sides of the first `=` of an argument. -/
def pair (argument : String) : Activity (String × String) :=
  match Split.first '=' argument.toList with
  | (key, some value) => pure (String.ofList key, String.ofList value)
  | (_, none) => throw (.expectedPair argument)

/-- A model given by the values of its variables. -/
def model (assignments : List String) : Activity Model := do
  let pairs ← assignments.mapM fun assignment => do
    let (name, value) ← pair assignment
    return (name, ← truthValue value)
  lift .ofSemantics (Model.ofPairs pairs)

/-- Reports how a check of `count` models is divided among threads, unless it is not. -/
def logDispatch (config : PoolConfig) (count : Nat) : Activity Unit :=
  if config.isSequential count then pure ()
  else
    let chunks := config.chunkCount count
    let size := config.effectiveSize count
    log .debug s!"dispatching {chunks} chunks of {size} models to {config.numThreads} workers"

/-- Reports the check of the models over `vars` variables, if they can be enumerated. -/
def logModels (config : PoolConfig) (vars : Nat) : Activity Unit :=
  match numModels vars with
  | .ok count => logDispatch config count
  | .error _ => pure ()

/-- The parts of a text between the commas in it, without the empty ones. -/
def commaSeparated (s : String) : List String :=
  ((Split.all ',' s.toList).filter (!·.isEmpty)).map String.ofList

end Activity

open Activity

/-- The text of a truth value as a word. -/
def boolWord (value : Bool) : String :=
  if value then "true" else "false"

namespace NormalForm

/-- The abbreviation of the normal form. -/
def label : NormalForm → String
  | disjunctive => "DNF"
  | conjunctive => "CNF"

end NormalForm

/-- Prints a formula in both notations. -/
def Command.runParse (input : List UInt8) (argument : String) (maxDepth : Option Nat)
    (polish : Bool) : Activity Unit := do
  let s ← formulaText input argument
  let f ← if polish then lift .ofText (parsePolish s maxDepth) else formula s maxDepth
  print f.text
  print f.polish

/-- Prints the value of a formula in a model. -/
def Command.runEval (input : List UInt8) (argument : String) (maxDepth : Option Nat)
    (assignments : List String) : Activity Unit := do
  let f ← formula (← formulaText input argument) maxDepth
  let m ← model assignments
  log .info s!"evaluating '{f.text}' in {m.text}"
  let value ← lift .ofSemantics (f.evaluate m)
  print (Model.letter value)

/-- Prints the truth table of a formula. -/
def Command.runTable (input : List UInt8) (argument : String) (maxDepth : Option Nat)
    (config : PoolConfig) : Activity Unit := do
  let f ← formula (← formulaText input argument) maxDepth
  logModels config f.vars.length
  print (← lift .ofSemantics (f.renderTruthTable config))

/-- Prints whether a formula is a tautology, a contradiction, and satisfiable. -/
def Command.runAnalyze (input : List UInt8) (argument : String) (maxDepth : Option Nat)
    (config : PoolConfig) : Activity Unit := do
  let f ← formula (← formulaText input argument) maxDepth
  let count := f.vars.length
  log .debug s!"analyzing '{f.text}' over {count} variables"
  logModels config count
  let result ← lift .ofSemantics (Analysis.ofFormula f config)
  unless result.isTautology do logModels config count
  print s!"tautology: {boolWord result.isTautology}"
  print s!"contradiction: {boolWord result.isContradiction}"
  print s!"satisfiable: {boolWord result.isSatisfiable}"

/-- Prints the formula with a given truth table. -/
def Command.runSynth (names values : String) (form : NormalForm) : Activity Unit := do
  let vars := commaSeparated names
  let values ← values.toList.mapM fun c => truthValue (String.singleton c)
  unless vars.isEmpty do
    match Enumeration.ofVariables vars with
    | .ok e => log .debug s!"enumerating {e.numModels} models over {vars.length} variables"
    | .error _ => pure ()
  let f ← lift .ofSemantics (form.synthesize vars values)
  let clauses := values.count form.selected
  log .debug s!"synthesized {form.label} with {clauses} clauses"
  print f.text

/-- Reads the entries of a substitution of variables, and adds them one after the other. -/
def Command.variableEntries (maxDepth : Option Nat) (s : VariableSubstitution) :
    List String → Activity VariableSubstitution
  | [] => pure s
  | argument :: arguments => do
    let (name, replacement) ← pair argument
    let f ← formula replacement maxDepth
    variableEntries maxDepth (← lift .ofSubstitution (s.insert name f)) arguments

/-- Reads the entries of a substitution of operators, and adds them one after the other. -/
def Command.operatorEntries (maxDepth : Option Nat) (s : OperatorSubstitution) :
    List String → Activity OperatorSubstitution
  | [] => pure s
  | argument :: arguments => do
    let (symbol, template) ← pair argument
    match Operator.ofSymbol? symbol with
    | none => throw (.notAnOperator symbol)
    | some op =>
      let f ← formula template maxDepth
      operatorEntries maxDepth (← lift .ofSubstitution (s.insert op f)) arguments

/-- Prints a formula after a substitution. -/
def Command.runSubst (input : List UInt8) (argument : String) (maxDepth : Option Nat)
    (entries : List String) (ofVariables : Bool) : Activity Unit := do
  let f ← formula (← formulaText input argument) maxDepth
  let g ←
    if ofVariables then
      (fun s => (s.apply f).1) <$> variableEntries maxDepth .empty entries
    else
      (fun s => (s.apply f).1) <$> operatorEntries maxDepth .empty entries
  print g.text

/-- Prints whether a rule is sound, and whether it holds in the model that is given, if one is. -/
def Command.runInfer (input : List UInt8) (argument : String) (maxDepth : Option Nat)
    (assumptions : List String) (assignments : List String) (config : PoolConfig) :
    Activity Unit := do
  let assumptions ← assumptions.mapM fun s => formula s maxDepth
  let conclusion ← formula (← formulaText input argument) maxDepth
  let r : InferenceRule := ⟨assumptions, conclusion⟩
  log .info s!"checking rule {r.text}"
  match numModels r.vars.length with
  | .ok count =>
    log .debug s!"checking rule with {assumptions.length} assumptions over {count} models"
    logDispatch config count
  | .error _ => pure ()
  let sound ← lift .ofSemantics (r.isSound config)
  print (if sound then "sound" else "unsound")
  unless assignments.isEmpty do
    let m ← model assignments
    let holds ← lift .ofSemantics (r.evaluate m)
    print ((if holds then "holds" else "does not hold") ++ " in " ++ m.text)

/-- What a command does with the bytes of its input. -/
def Command.run (input : List UInt8) : Command → Activity Unit
  | parse f depth polish => runParse input f depth polish
  | eval f depth assignments => runEval input f depth assignments
  | table f depth config => runTable input f depth config
  | analyze f depth config => runAnalyze input f depth config
  | synth names values conjunctive =>
    runSynth names values (if conjunctive then .conjunctive else .disjunctive)
  | subst f depth entries ofVariables => runSubst input f depth entries ofVariables
  | infer f depth assumptions assignments config =>
    runInfer input f depth assumptions assignments config

/-- The lines of the records that the level admits. -/
def writtenRecords (level : LogLevel) (records : List Record) : String :=
  String.join ((records.filter fun r => level.admits r.severity).map Record.line)

/-- The program: what it does with its arguments, which are read by the given reader, and the bytes
of its input. Where the arguments ask for no command it ends as the reader tells. An error of the
command ends it with exit code 1 and a record of the error. -/
def runProgram (read : ArgumentReader) (arguments : List String) (input : List UInt8) : Outcome :=
  match read arguments with
  | .error outcome => outcome
  | .ok invocation =>
    match (invocation.command.run input).run {} with
    | (.ok (), out) => ⟨0, out.printed, writtenRecords invocation.level out.records⟩
    | (.error e, out) =>
      ⟨1, out.printed,
        writtenRecords invocation.level (out.records ++ [⟨.error, e.message⟩])⟩

end Propositional

import Propositional.CommandLine.Invocation
import Propositional.Text.Split

/-!
# A Reader of Command Lines

A command line names a command, gives it positional arguments, and sets options. An option is
written `--name`, or `-n` if it has a short name; its value, if it takes one, follows as the next
argument or after `=`, and after a short name also directly. Options that hold for every command
may stand before the command too, where an option after the command has precedence. Options and
positional arguments may be mixed; `--` makes all arguments after it positional, and so is `-` by
itself. Any other argument that starts with `-` is an option, even where a value is expected.

An option that takes a value must be given one, and may stand on the command line once. An option
that is a list may be repeated; then it is enough that one of its occurrences has a value, and the
others add nothing to the list.

Where a description of the program is asked for, reading ends at once, and the rest of the line
does not count. The texts of what a user is told in place of a command are left to the outer layer.

## Main definitions

* `OptionSpec`, `Scanned`, `scanAll`: the options and positional arguments of a list of arguments.
* `Notice`: what a user is told in place of a command.
* `Invocation.ofArguments`: the reading of a command line.
* `ArgumentReader.conventional`: the reader that writes the given notices.
-/

namespace Propositional

/-- What a user is told in place of a command: how the program is used, or which version of it this
is, if that is asked for, and otherwise that the command line is not accepted. -/
inductive Notice
  | help
  | version
  | refusal
  deriving DecidableEq

/-- A result, or else the refusal of the command line. -/
def Notice.orRefuse {α : Type} : Option α → Except Notice α
  | some a => .ok a
  | none => .error .refusal

/-- An option that a command line may set, or that asks for a notice. -/
structure OptionSpec where
  name : String
  short : Option Char := none
  takesValue : Bool := true
  isList : Bool := false
  notice : Option Notice := none

/-- What has been found on a command line: the options that stand there, the values that they were
given, and the positional arguments, each from the first to the last. -/
structure Scanned where
  options : Array OptionSpec := #[]
  settings : Array (String × String) := #[]
  positionals : Array String := #[]

namespace Scanned

/-- Whether the option stands on the command line. -/
def has (found : Scanned) (name : String) : Bool :=
  found.options.any (·.name == name)

/-- Adds an occurrence of an option, which must be the first one unless the option is a list. -/
def mention (found : Scanned) (spec : OptionSpec) : Except Notice Scanned :=
  if !spec.isList && found.has spec.name then .error .refusal
  else .ok { found with options := found.options.push spec }

/-- Gives a value to an option. -/
def give (found : Scanned) (spec : OptionSpec) (value : String) : Scanned :=
  { found with settings := found.settings.push (spec.name, value) }

/-- Adds a positional argument. -/
def add (found : Scanned) (argument : String) : Scanned :=
  { found with positionals := found.positionals.push argument }

/-- All values of an option, which are several only if it is a list. -/
def values (found : Scanned) (name : String) : List String :=
  (found.settings.toList.filter (·.1 == name)).map (·.2)

/-- The value of an option that is not a list. -/
def value? (found : Scanned) (name : String) : Option String :=
  (found.settings.find? (·.1 == name)).map (·.2)

/-- Whether every option that takes a value has one. -/
def isComplete (found : Scanned) : Bool :=
  found.options.all fun spec => !spec.takesValue || found.settings.any (·.1 == spec.name)

end Scanned

/-- An argument as it stands on a command line. -/
inductive Argument
  /-- The mark after which all arguments are positional. -/
  | rest
  /-- An option with its name written out, and the value attached to it. -/
  | long (name : String) (attached : Option String)
  /-- An option with its short name, and the value attached to it. -/
  | short (name : Char) (attached : Option String)
  /-- An argument that is no option. -/
  | plain (text : String)

/-- The reading of an argument. -/
def Argument.ofString (s : String) : Argument :=
  match s.toList with
  | ['-', '-'] => .rest
  | '-' :: '-' :: cs =>
    let (name, attached) := Split.first '=' cs
    .long (String.ofList name) (attached.map String.ofList)
  | '-' :: c :: [] => .short c none
  | '-' :: c :: '=' :: cs => .short c (some (String.ofList cs))
  | '-' :: c :: cs => .short c (some (String.ofList cs))
  | _ => .plain s

/-- Meets an option with the value attached to it, and returns it if it expects the next argument
as its value. -/
def Scanned.meet (found : Scanned) (spec : OptionSpec) (attached : Option String) :
    Except Notice (Scanned × Option OptionSpec) :=
  match spec.takesValue, attached with
  | true, some value => (found.mention spec).map fun found => (found.give spec value, none)
  | true, none => (found.mention spec).map (·, some spec)
  | false, none =>
    match spec.notice with
    | some notice => .error notice
    | none => (found.mention spec).map (·, none)
  | false, some _ => .error .refusal

/-- The same for a short name. What is attached to an option without a value are more short names,
which do not count if a notice is asked for. -/
def Scanned.meetShort (found : Scanned) (spec : OptionSpec) (attached : Option String) :
    Except Notice (Scanned × Option OptionSpec) :=
  match spec.notice with
  | some notice => .error notice
  | none => found.meet spec attached

/-- The options and positional arguments of a list of arguments, where the option `waiting`, if
there is one, takes the next argument as its value unless that is an option or `--`. If `single`
is set, reading stops at the first positional argument, which is returned with the arguments after
it. -/
def scan (specs : List OptionSpec) (single : Bool) (found : Scanned)
    (waiting : Option OptionSpec) : List String → Except Notice (Scanned × List String)
  | [] => .ok (found, [])
  | argument :: arguments =>
    match Argument.ofString argument with
    | .rest => .ok (arguments.foldl Scanned.add found, [])
    | .long name attached => do
      let spec ← Notice.orRefuse (specs.find? (·.name == name))
      let (found, waiting) ← found.meet spec attached
      scan specs single found waiting arguments
    | .short name attached => do
      let spec ← Notice.orRefuse (specs.find? (·.short == some name))
      let (found, waiting) ← found.meetShort spec attached
      scan specs single found waiting arguments
    | .plain text =>
      match waiting with
      | some spec => scan specs single (found.give spec text) none arguments
      | none =>
        if single then .ok (found, text :: arguments)
        else scan specs single (found.add text) none arguments

/-- The options and positional arguments of a list of arguments, and the arguments after them,
provided that no option lacks its value. -/
def scanAll (specs : List OptionSpec) (single : Bool) (arguments : List String) :
    Except Notice (Scanned × List String) := do
  let (found, rest) ← scan specs single {} none arguments
  if found.isComplete then .ok (found, rest) else .error .refusal

/-- A number as it stands on a command line, decimal digits after an optional `+`, which must not
be larger than `bound`. -/
def readNumber? (bound : Nat) (s : String) : Option Nat :=
  let digits := match s.toList with
    | '+' :: digits => digits
    | digits => digits
  if digits.isEmpty || !digits.all Char.isDigit then none
  else
    let n := digits.foldl (fun n c => 10 * n + (c.toNat - '0'.toNat)) 0
    if n ≤ bound then some n else none

/-- The value of an option, read by `read?`, or `fallback` if the option is not set. -/
def Scanned.read? {α : Type} (found : Scanned) (name : String) (fallback : α)
    (read? : String → Option α) : Option α :=
  match found.value? name with
  | none => some fallback
  | some value => read? value

namespace Invocation

/-- The largest number that an option may be set to, 2⁶⁴ - 1. -/
def maxNumber : Nat := 18446744073709551615

/-- The largest number of threads that may be asked for, 2³² - 1. -/
def maxThreads : Nat := 4294967295

/-- The options that hold for every command. -/
def globalOptions : List OptionSpec :=
  [{ name := "log" }, { name := "no-color", takesValue := false },
    { name := "help", short := some 'h', takesValue := false, notice := some .help }]

/-- The options that may stand before the command. -/
def outerOptions : List OptionSpec :=
  globalOptions ++
    [{ name := "version", short := some 'V', takesValue := false, notice := some .version }]

/-- The option that bounds the depth of formulas. -/
def depthOption : OptionSpec := { name := "max-depth" }

/-- The options that divide work among threads. -/
def poolOptions : List OptionSpec :=
  [{ name := "num-threads", short := some 'u' }, { name := "chunk-size" }]

/-- The option of a command that has no value. -/
def flag (name : String) : OptionSpec := { name, takesValue := false }

/-- The options of the command with the given name, if there is such a command. -/
def commandOptions : String → Option (List OptionSpec)
  | "parse" => some [depthOption, flag "polish"]
  | "eval" => some [depthOption]
  | "table" => some (depthOption :: poolOptions)
  | "analyze" => some (depthOption :: poolOptions)
  | "synth" => some [flag "cnf"]
  | "subst" => some [depthOption, flag "vars"]
  | "infer" =>
    some ([depthOption, { name := "assumption", short := some 'a', isList := true },
      { name := "model", short := some 'm', isList := true }] ++ poolOptions)
  | _ => none

/-- The depth that is asked for. -/
def maxDepth? (found : Scanned) : Option (Option Nat) :=
  found.read? "max-depth" none fun s => (readNumber? maxNumber s).map some

/-- The number of threads that is asked for is positive. -/
def readThreads? (s : String) : Option Nat :=
  (readNumber? maxThreads s).filter (0 < ·)

/-- The division of work that is asked for. -/
def config? (found : Scanned) : Option PoolConfig := do
  let numThreads ← found.read? "num-threads" 1 readThreads?
  let chunkSize ← found.read? "chunk-size" 256 (readNumber? maxNumber)
  return { numThreads, chunkSize }

/-- The command with the given name, options and positional arguments. -/
def command? (name : String) (found : Scanned) : Option Command := do
  let depth ← maxDepth? found
  let config ← config? found
  match name, found.positionals.toList with
  | "parse", [f] => return .parse f depth (found.has "polish")
  | "eval", f :: assignments => return .eval f depth assignments
  | "table", [f] => return .table f depth config
  | "analyze", [f] => return .analyze f depth config
  | "synth", [names, values] => return .synth names values (found.has "cnf")
  | "subst", f :: entries => return .subst f depth entries (found.has "vars")
  | "infer", [f] => return .infer f depth (found.values "assumption") (found.values "model") config
  | _, _ => none

/-- What is asked for by the word `help` with the given arguments after it, the name of a command or
nothing. -/
def helpOn : List String → Notice
  | [] => .help
  | [name] => if name = "help" ∨ (commandOptions name).isSome then .help else .refusal
  | _ => .refusal

/-- The reading of a command line. -/
def ofArguments (arguments : List String) : Except Notice Invocation := do
  let (before, rest) ← scanAll outerOptions true arguments
  match rest with
  | [] => .error .refusal
  | name :: rest =>
    if name = "help" then .error (helpOn rest)
    else
      let options ← Notice.orRefuse (commandOptions name)
      let (found, _) ← scanAll (globalOptions ++ options) false rest
      let outer ← Notice.orRefuse (before.read? "log" .default LogLevel.ofName?)
      let level ← Notice.orRefuse (found.read? "log" outer LogLevel.ofName?)
      let command ← Notice.orRefuse (command? name found)
      return { level, command }

end Invocation

/-- How the program ends with a notice, given the texts of notices: what was asked for is printed,
and a refusal is reported as an error with exit code 2. -/
def Notice.outcome (text : Notice → String) : Notice → Outcome
  | refusal => ⟨2, "", text refusal⟩
  | notice => ⟨0, text notice, ""⟩

/-- The reader of command lines that are written as described above. -/
def ArgumentReader.conventional (text : Notice → String) : ArgumentReader := fun arguments =>
  (Invocation.ofArguments arguments).mapError (Notice.outcome text)

end Propositional

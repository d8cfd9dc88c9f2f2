/-!
# Log Records

While it works the program reports what it does in records of a severity and a message. Of these
only the ones are written that are at least as severe as asked for.

## Main definitions

* `Severity`, `LogLevel`, `LogLevel.admits`: which records are written.
* `Record`, `Record.line`: a record, and the line it is written as.
-/

namespace Propositional

/-- How important a record is, from the most to the least. -/
inductive Severity
  | error
  | warn
  | info
  | debug
  | trace
  deriving DecidableEq

namespace Severity

/-- The name of the severity, as it stands in a record. -/
def label : Severity → String
  | error => "ERROR"
  | warn => "WARN"
  | info => "INFO"
  | debug => "DEBUG"
  | trace => "TRACE"

/-- A severity is ranked by its place, the most important one first. -/
def rank : Severity → Nat
  | error => 1
  | warn => 2
  | info => 3
  | debug => 4
  | trace => 5

end Severity

/-- The least important severity that is written, if any is. -/
abbrev LogLevel := Option Severity

namespace LogLevel

/-- The level that holds unless another one is asked for. -/
def default : LogLevel := some .warn

/-- Whether records of the severity are written. -/
def admits (level : LogLevel) (s : Severity) : Bool :=
  level.any fun least => s.rank ≤ least.rank

/-- The level with the given name. -/
def ofName? : String → Option LogLevel
  | "off" => some none
  | "error" => some (some .error)
  | "warn" => some (some .warn)
  | "info" => some (some .info)
  | "debug" => some (some .debug)
  | "trace" => some (some .trace)
  | _ => none

end LogLevel

/-- A report of what the program does. -/
structure Record where
  severity : Severity
  message : String
  deriving DecidableEq

/-- The line that the record is written as, with its line end. -/
def Record.line (r : Record) : String :=
  s!"[{r.severity.label}] {r.message}\n"

end Propositional

import Propositional.CommandLine.Arguments

/-!
# Reading Command Lines

The program runs with any reader of command lines. What a result about the program relies on is that
the reader takes certain lines for what they are: the name of a command comes first, then its
options, and then its positional arguments, which stand after `--` if one of them could be taken for
an option. There is one such assumption for each command, and none about any other line.

The conventional reader meets all of them. Arguments that do not start with `-` are positional, in
any number (`scan_plain`), and so are all arguments after `--` (`scan_rest`). An option that has not
been set yet is set, without a value (`scan_flag`) or to the argument after it (`scan_value`).

## Main definitions

* `ArgumentReader.Reads`: the reader takes a line for a command.
* `ArgumentReader.ReadsParse`, `ArgumentReader.ReadsTable`, `ArgumentReader.ReadsSynth`,
  `ArgumentReader.ReadsSubst`: the lines of four commands.

## Main results

* `scan_positionals`: the positional arguments at the end of any command line.
* `readNumber?_repr`: a number is read as it is written.
* `ArgumentReader.reads_conventional`: the conventional reader takes a line for a command.
-/

namespace Propositional

/-! ### Assumptions about readers -/

namespace ArgumentReader

/-- An argument that is no option wherever it stands: it does not start with `-`, or it is `-`
itself. -/
def IsPositional (s : String) : Prop :=
  s = "-" ∨ s.toList.head? ≠ some '-'

variable (reader : ArgumentReader)

/-- The reader takes a line for the command: the name of the command, then options, then positional
arguments. If `marked` is set these stand after `--`; otherwise none of them may be an option. No
level of records is asked for, so the usual records are written. -/
def Reads (name : String) (options positionals : List String) (command : Command) : Prop :=
  ∀ marked : Bool, (marked = true ∨ ∀ s ∈ positionals, IsPositional s) →
    reader (name :: (options ++ ((if marked then ["--"] else []) ++ positionals))) =
      .ok ⟨.default, command⟩

/-- The reader takes lines for the printing of a formula, in the one notation or the other. -/
def ReadsParse : Prop :=
  ∀ formula polish,
    reader.Reads "parse" (if polish then ["--polish"] else []) [formula]
      (.parse formula none polish)

/-- The reader takes lines for the table of a formula. -/
def ReadsTable : Prop :=
  ∀ formula, reader.Reads "table" [] [formula] (.table formula none {})

/-- The reader takes lines for the formula with a table, in the one normal form or the other. -/
def ReadsSynth : Prop :=
  ∀ names values conjunctive,
    reader.Reads "synth" (if conjunctive then ["--cnf"] else []) [names, values]
      (.synth names values conjunctive)

/-- The option that bounds the depth, if it is bounded. -/
def depthArguments (maxDepth : Option Nat) : List String :=
  maxDepth.elim [] fun n => ["--max-depth", n.repr]

/-- The reader takes lines for a substitution, with a depth of at most 64 bits or with none, of
variables or of operators. -/
def ReadsSubst : Prop :=
  ∀ formula entries ofVariables, ∀ maxDepth : Option Nat, (∀ n ∈ maxDepth, n < UInt64.size) →
    reader.Reads "subst" (depthArguments maxDepth ++ if ofVariables then ["--vars"] else [])
      (formula :: entries) (.subst formula maxDepth entries ofVariables)

end ArgumentReader

/-! ### Arguments -/

/-- An argument that does not start with `-` is no option. -/
theorem Argument.ofString_eq_plain {s : String} (h : s.toList.head? ≠ some '-') :
    Argument.ofString s = .plain s := by
  unfold Argument.ofString
  split <;> simp_all

/-- Nor is `-`. -/
theorem ArgumentReader.IsPositional.ofString_eq_plain {s : String} (h : IsPositional s) :
    Argument.ofString s = .plain s := by
  rcases h with rfl | h
  · rfl
  · exact Argument.ofString_eq_plain h

/-- Arguments that are no options are all positional. -/
theorem scan_plain (specs : List OptionSpec) (found : Scanned) {arguments : List String}
    (h : ∀ s ∈ arguments, Argument.ofString s = .plain s) :
    scan specs false found none arguments =
      .ok ({ found with positionals := found.positionals ++ arguments.toArray }, []) := by
  induction arguments generalizing found with
  | nil => simp [scan]
  | cons s arguments ih =>
      obtain ⟨hs, harguments⟩ := List.forall_mem_cons.mp h
      simp only [scan, hs, Bool.false_eq_true, if_false]
      rw [ih (found.add s) harguments]
      simp [Scanned.add]

/-- An option without a value is set, unless it is set already. -/
theorem scan_flag {specs : List OptionSpec} {single : Bool} {found : Scanned} {spec : OptionSpec}
    {s : String} (arguments : List String) (hs : Argument.ofString s = .long spec.name none)
    (hspec : specs.find? (·.name == spec.name) = some spec) (hflag : spec.takesValue = false)
    (hnotice : spec.notice = none) (hnew : found.has spec.name = false) :
    scan specs single found none (s :: arguments) =
      scan specs single { found with options := found.options.push spec } none arguments := by
  simp [scan, hs, hspec, Notice.orRefuse, Scanned.meet, hflag, hnotice, Scanned.mention, hnew,
    bind, Except.bind, Except.map]

/-- An option with a value is set to the argument after it, unless it is set already. -/
theorem scan_value {specs : List OptionSpec} {single : Bool} {found : Scanned} {spec : OptionSpec}
    {s value : String} (arguments : List String) (hs : Argument.ofString s = .long spec.name none)
    (hspec : specs.find? (·.name == spec.name) = some spec) (htakes : spec.takesValue = true)
    (hnew : found.has spec.name = false) (hvalue : Argument.ofString value = .plain value) :
    scan specs single found none (s :: value :: arguments) =
      scan specs single (({ found with options := found.options.push spec } : Scanned).give spec
        value) none arguments := by
  simp [scan, hs, hvalue, hspec, Notice.orRefuse, Scanned.meet, htakes, Scanned.mention, hnew,
    bind, Except.bind, Except.map]

/-- After `--` all arguments are positional. -/
theorem scan_rest (specs : List OptionSpec) (single : Bool) (found : Scanned)
    (arguments : List String) :
    scan specs single found none ("--" :: arguments) =
      .ok ({ found with positionals := found.positionals ++ arguments.toArray }, []) := by
  have hadd : arguments.foldl Scanned.add found =
      { found with positionals := found.positionals ++ arguments.toArray } := by
    induction arguments generalizing found with
    | nil => simp
    | cons s arguments ih =>
        rw [List.foldl_cons, ih]
        simp [Scanned.add]
  have hmark : Argument.ofString "--" = .rest := rfl
  simp only [scan, hmark, hadd]

/-- Arguments that are no options are positional, and so are any arguments after `--`. -/
theorem scan_positionals (specs : List OptionSpec) (found : Scanned) {marked : Bool}
    {arguments : List String}
    (h : marked = true ∨ ∀ s ∈ arguments, ArgumentReader.IsPositional s) :
    scan specs false found none ((if marked then ["--"] else []) ++ arguments) =
      .ok ({ found with positionals := found.positionals ++ arguments.toArray }, []) := by
  cases marked with
  | false =>
      exact scan_plain specs found fun s hs =>
        (h.resolve_left Bool.false_ne_true s hs).ofString_eq_plain
  | true => exact scan_rest specs false found arguments

/-! ### Numbers -/

/-- A number is written as digits, so it is no option. -/
theorem Argument.ofString_repr (n : Nat) : Argument.ofString n.repr = .plain n.repr := by
  refine ofString_eq_plain fun hhead => ?_
  rw [Nat.toList_repr] at hhead
  have hdigit := Nat.isDigit_of_mem_toDigits (by decide) (by decide) (List.mem_of_head? hhead)
  exact absurd hdigit (by decide)

/-- A number that is not too large is read as it is written. -/
theorem readNumber?_repr {bound n : Nat} (h : n ≤ bound) :
    readNumber? bound n.repr = some n := by
  have hall : ∀ c ∈ Nat.toDigits 10 n, c.isDigit = true := fun c hc =>
    Nat.isDigit_of_mem_toDigits (by decide) (by decide) hc
  have hsign : ∀ rest, Nat.toDigits 10 n ≠ '+' :: rest := fun rest hplus =>
    absurd (hall '+' (hplus ▸ List.mem_cons_self)) (by decide)
  have hvalue : (Nat.toDigits 10 n).foldl (fun n c => 10 * n + (c.toNat - '0'.toNat)) 0 = n :=
    Nat.ofDigitChars_ten_toDigits
  rw [readNumber?, Nat.toList_repr]
  split
  · rename_i digits hplus
    exact absurd hplus (hsign digits)
  · dsimp only
    rw [hvalue, if_pos h]
    simp [List.all_eq_true.mpr hall]

/-! ### The conventional reader -/

namespace Invocation

/-- What is found on a line with a depth or without, and with a flag or without. -/
def found (maxDepth : Option Nat) (name : String) (isSet : Bool) (positionals : List String) :
    Scanned where
  options := (maxDepth.elim #[] fun _ => #[depthOption]) ++ if isSet then #[flag name] else #[]
  settings := maxDepth.elim #[] fun n => #[("max-depth", n.repr)]
  positionals := positionals.toArray

variable {maxDepth : Option Nat} {name : String} {isSet : Bool} {positionals : List String}

theorem positionals_found :
    (found maxDepth name isSet positionals).positionals = positionals.toArray := rfl

/-- The flag is found as it was set. -/
theorem has_found (hname : name ≠ "max-depth") :
    (found maxDepth name isSet positionals).has name = isSet := by
  cases maxDepth <;> cases isSet <;>
    simp [found, Scanned.has, flag, depthOption, hname.symm]

/-- No other option is found to have a value. -/
theorem value?_found (hname : name ≠ "max-depth") (flagName : String) :
    (found maxDepth flagName isSet positionals).value? name = none := by
  cases maxDepth <;> simp [found, Scanned.value?, hname.symm]

/-- The depth is found as it was written. -/
theorem maxDepth?_found (hdepth : ∀ n ∈ maxDepth, n < UInt64.size) :
    maxDepth? (found maxDepth name isSet positionals) = some maxDepth := by
  cases maxDepth with
  | none => rfl
  | some n =>
      have hn : readNumber? maxNumber n.repr = some n :=
        readNumber?_repr (Nat.le_of_lt_succ (hdepth n rfl))
      simp [maxDepth?, Scanned.read?, Scanned.value?, found, hn]

/-- Work is divided as usual. -/
theorem config?_found : config? (found maxDepth name isSet positionals) = some {} := by
  simp [config?, Scanned.read?, value?_found]

/-- The depth, if there is one, has a value. -/
theorem isComplete_found : (found maxDepth name isSet positionals).isComplete = true := by
  cases maxDepth <;> cases isSet <;> simp [found, Scanned.isComplete, flag, depthOption]

open ArgumentReader

variable {specs : List OptionSpec} {mark : String}

/-- The options of a command include the depth, if there is one, and the flag, if it is set, under
the mark that stands on the line. -/
structure Offers (specs : List OptionSpec) (maxDepth : Option Nat) (name mark : String)
    (isSet : Bool) : Prop where
  depth : ∀ n ∈ maxDepth, specs.find? (·.name == "max-depth") = some depthOption
  argument : isSet = true → Argument.ofString mark = .long name none
  find? : isSet = true → specs.find? (·.name == name) = some (flag name)
  name_ne : isSet = true → name ≠ "max-depth"

/-- The depth at the beginning of a line is found. -/
theorem Offers.scan_depth (h : Offers specs maxDepth name mark isSet) (rest : List String) :
    scan specs false {} none (depthArguments maxDepth ++ rest) =
      scan specs false (found maxDepth name false []) none rest := by
  cases maxDepth with
  | none => rfl
  | some n =>
      exact scan_value rest rfl (h.depth n rfl) rfl (by simp [Scanned.has])
        (Argument.ofString_repr n)

/-- And the flag after it, if it is set. -/
theorem Offers.scan_mark (h : Offers specs maxDepth name mark isSet) (rest : List String) :
    scan specs false (found maxDepth name false []) none
        ((if isSet then [mark] else []) ++ rest) =
      scan specs false (found maxDepth name isSet []) none rest := by
  cases isSet with
  | false => rfl
  | true =>
      have hnew : (found maxDepth name false []).has (flag name).name = false :=
        has_found (h.name_ne rfl)
      refine (scan_flag rest (h.argument rfl) (h.find? rfl) rfl rfl hnew).trans ?_
      cases maxDepth <;> rfl

/-- So the whole line is found. -/
theorem Offers.scanAll_eq (h : Offers specs maxDepth name mark isSet) {marked : Bool}
    (hpositionals : marked = true ∨ ∀ s ∈ positionals, IsPositional s) :
    scanAll specs false (depthArguments maxDepth ++ (if isSet then [mark] else []) ++
        ((if marked then ["--"] else []) ++ positionals)) =
      .ok (found maxDepth name isSet positionals, []) := by
  have hfound : ({ found maxDepth name isSet [] with
      positionals := (found maxDepth name isSet []).positionals ++ positionals.toArray } :
      Scanned) = found maxDepth name isSet positionals := by simp [found]
  rw [scanAll, List.append_assoc, h.scan_depth, h.scan_mark, scan_positionals _ _ hpositionals,
    hfound]
  exact if_pos isComplete_found

/-- Before the command, nothing is found. -/
theorem scanAll_outer {command : String} (h : Argument.ofString command = .plain command)
    (rest : List String) :
    scanAll outerOptions true (command :: rest) = .ok ({}, command :: rest) := by
  simp [scanAll, scan, h, bind, Except.bind, Scanned.isComplete]

/-- **A line asks for the command that is made up by what is found on it.** The usual records are
written. -/
theorem ofArguments_eq_ok {commandName flagName : String} {rest : List String} {command : Command}
    (hname : Argument.ofString commandName = .plain commandName)
    (hspecs : commandOptions commandName = some specs)
    (hscan : scanAll (globalOptions ++ specs) false rest =
      .ok (found maxDepth flagName isSet positionals, []))
    (hcommand : command? commandName (found maxDepth flagName isSet positionals) = some command) :
    ofArguments (commandName :: rest) = .ok ⟨.default, command⟩ := by
  have hhelp : commandName ≠ "help" := by
    rintro rfl
    cases hspecs
  have houter : Scanned.value? {} "log" = none := rfl
  have hlog : (found maxDepth flagName isSet positionals).value? "log" = none :=
    value?_found (by decide) flagName
  simp only [ofArguments, scanAll_outer hname, bind, Except.bind, if_neg hhelp, hspecs, hscan,
    hcommand, Notice.orRefuse, Scanned.read?, houter, hlog]
  rfl

end Invocation

namespace ArgumentReader

open Invocation

variable (text : Notice → String)

/-- **The conventional reader takes a line for a command** if the command has the options on it, and
if the depth, the flag and the positional arguments make up the command. -/
theorem reads_conventional {name flagName mark : String} {specs : List OptionSpec}
    {maxDepth : Option Nat} {isSet : Bool} {positionals : List String} {command : Command}
    (hname : Argument.ofString name = .plain name) (hspecs : commandOptions name = some specs)
    (hoffers : Offers (globalOptions ++ specs) maxDepth flagName mark isSet)
    (hcommand : command? name (found maxDepth flagName isSet positionals) = some command) :
    (conventional text).Reads name (depthArguments maxDepth ++ if isSet then [mark] else [])
      positionals command := by
  intro marked hpositionals
  have hscan := hoffers.scanAll_eq hpositionals
  rw [conventional, ofArguments_eq_ok hname hspecs hscan hcommand]
  rfl

theorem readsParse_conventional : (conventional text).ReadsParse := by
  intro formula polish
  have hdepth := @maxDepth?_found none "polish" polish [formula] nofun
  have hflag := @has_found none "polish" polish [formula] (by decide)
  have hoffers : Offers (globalOptions ++ [depthOption, flag "polish"]) none "polish" "--polish"
      polish := ⟨nofun, fun _ => rfl, fun _ => rfl, fun _ => by decide⟩
  refine reads_conventional text rfl rfl hoffers ?_
  simp [command?, hdepth, config?_found, hflag, positionals_found]

theorem readsTable_conventional : (conventional text).ReadsTable := by
  intro formula
  have hdepth := @maxDepth?_found none "" false [formula] nofun
  have hoffers : Offers (globalOptions ++ depthOption :: poolOptions) none "" "" false :=
    ⟨nofun, nofun, nofun, nofun⟩
  refine reads_conventional text rfl rfl hoffers ?_
  simp [command?, hdepth, config?_found, positionals_found]

theorem readsSynth_conventional : (conventional text).ReadsSynth := by
  intro names values conjunctive
  have hdepth := @maxDepth?_found none "cnf" conjunctive [names, values] nofun
  have hflag := @has_found none "cnf" conjunctive [names, values] (by decide)
  have hoffers : Offers (globalOptions ++ [flag "cnf"]) none "cnf" "--cnf" conjunctive :=
    ⟨nofun, fun _ => rfl, fun _ => rfl, fun _ => by decide⟩
  refine reads_conventional text rfl rfl hoffers ?_
  simp [command?, hdepth, config?_found, hflag, positionals_found]

theorem readsSubst_conventional : (conventional text).ReadsSubst := by
  intro formula entries ofVariables maxDepth hbound
  have hdepth := @maxDepth?_found maxDepth "vars" ofVariables (formula :: entries) hbound
  have hflag := @has_found maxDepth "vars" ofVariables (formula :: entries) (by decide)
  have hoffers : Offers (globalOptions ++ [depthOption, flag "vars"]) maxDepth "vars" "--vars"
      ofVariables := ⟨fun _ _ => rfl, fun _ => rfl, fun _ => rfl, fun _ => by decide⟩
  refine reads_conventional text rfl rfl hoffers ?_
  simp [command?, hdepth, config?_found, hflag, positionals_found]

end ArgumentReader

end Propositional

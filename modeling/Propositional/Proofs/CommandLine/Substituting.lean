import Propositional.Proofs.CommandLine.Activities
import Propositional.Proofs.CommandLine.Arguments
import Propositional.Proofs.Substitution.Operators
import Propositional.Proofs.Substitution.Variables
import Propositional.Proofs.Text.DepthLimit

/-!
# Substitutions on the Command Line

An argument such as `&=~(p|q)` is cut at its first `=` into a key and a formula. A list of such
arguments stands for one simultaneous replacement, in which the last argument for a key counts, or
else for the error of the first argument in which there is one. The program finds out in one pass:
it reads an argument, inserts what it says into the substitution, and goes on to the next one.

What an argument says is a relation, with one case for each of the checks, in their order
(`SubstitutionMode.Reads`). In the two modes of the command, for operators and for variables, the
same checks are made of different things, and what may be checked early for the one kind of keys is
checked late for the other.

## Main definitions

* `SubstitutionMode`: what keys there are, what is wrong with an entry, and what is replaced.
* `SubstitutionMode.Reads`, `SubstitutionMode.Ends`: what one argument says, and what all say.
* `SubstitutionKind.readEntries`: the pass over the arguments, in either mode.
* `SubstitutionMode.Governs`: the program ends as the mode says.

## Main results

* `SubstitutionMode.Obeys.settles_readEntries`: what the pass has found after any arguments.
* `SubstitutionMode.Obeys.governs`: so the program ends, with any reader of its command line.
* `runProgram_subst_at_once`: how the program ends.
-/

namespace Propositional

variable {κ σ : Type}

/-! ### What the arguments say -/

/-- A mode of the command: which texts are keys, which entries are refused once their formula is
known, and what is replaced under an assignment of formulas to keys. -/
structure SubstitutionMode (κ : Type) where
  key? : String → Option κ
  Refuses : κ → Formula → SubstitutionError → Prop
  effect : (κ → Option Formula) → Formula → Formula

namespace SubstitutionMode

/-- Variables are replaced by formulas. Any text is taken for a key at first, and refused in the
end if it is no variable name. -/
def ofVariables : SubstitutionMode String where
  key? := some
  Refuses name _ e := isVariable name = false ∧ e = .notAVariable name
  effect assigned f := f.substituteForm assigned

/-- Operators are replaced by templates. The key must be the symbol of an operator, and a template
is refused for the smallest variable in it that is neither `p` nor `q`. -/
def ofOperators : SubstitutionMode Operator where
  key? := Operator.ofSymbol?
  Refuses op template e := ∃ x, (template.Mentions x ∧ x ≠ "p" ∧ x ≠ "q") ∧
    (∀ y, template.Mentions y → y ≠ "p" → y ≠ "q" → y ≠ x → bytes x < bytes y) ∧
    e = .invalidTemplate op template x
  effect assigned f := f.expandForm assigned

/-- What an argument says: an entry, or the error of the first check that it does not pass. There
must be an `=`, at the first of which it is cut; what comes before must be a key; what comes after
must be a formula; and the entry must not be refused. -/
inductive Reads (mode : SubstitutionMode κ) (maxDepth : Option Nat) :
    String → Except CommandError (κ × Formula) → Prop
  | unpaired {argument : String} (h : '=' ∉ argument.toList) :
      mode.Reads maxDepth argument (.error (.expectedPair argument))
  | keyless {name value : String} (hname : '=' ∉ name.toList) (hkey : mode.key? name = none) :
      mode.Reads maxDepth (name ++ "=" ++ value) (.error (.notAnOperator name))
  | unparsed {name value : String} {key : κ} {e : SyntaxError} (hname : '=' ∉ name.toList)
      (hkey : mode.key? name = some key) (hvalue : parse value maxDepth = .error e) :
      mode.Reads maxDepth (name ++ "=" ++ value) (.error (.failed (.ofText e)))
  | refused {name value : String} {key : κ} {f : Formula} {e : SubstitutionError}
      (hname : '=' ∉ name.toList) (hkey : mode.key? name = some key)
      (hvalue : parse value maxDepth = .ok f) (h : mode.Refuses key f e) :
      mode.Reads maxDepth (name ++ "=" ++ value) (.error (.failed (.ofSubstitution e)))
  | entry {name value : String} {key : κ} {f : Formula} (hname : '=' ∉ name.toList)
      (hkey : mode.key? name = some key) (hvalue : parse value maxDepth = .ok f)
      (h : ∀ e, ¬ mode.Refuses key f e) :
      mode.Reads maxDepth (name ++ "=" ++ value) (.ok (key, f))

/-- The arguments say the entries, one each. -/
def ReadsAll (mode : SubstitutionMode κ) (maxDepth : Option Nat) (arguments : List String)
    (entries : List (κ × Formula)) : Prop :=
  List.Forall₂ (fun argument entry => mode.Reads maxDepth argument (.ok entry)) arguments entries

/-- What a formula and arguments say: the error of the formula; or else the error of the first
argument that has one; or else the formula after the simultaneous replacement of all keys by the
formulas that are found in the entries from the last to the first. -/
inductive Ends [DecidableEq κ] (mode : SubstitutionMode κ) (maxDepth : Option Nat) (s : String)
    (arguments : List String) : Except CommandError Formula → Prop
  | unparsed {e : SyntaxError} (hs : parse s maxDepth = .error e) :
      mode.Ends maxDepth s arguments (.error (.failed (.ofText e)))
  | stopped {f : Formula} {before after : List String} {argument : String}
      {entries : List (κ × Formula)} {e : CommandError} (hs : parse s maxDepth = .ok f)
      (hcut : arguments = before ++ argument :: after)
      (hbefore : mode.ReadsAll maxDepth before entries)
      (hargument : mode.Reads maxDepth argument (.error e)) :
      mode.Ends maxDepth s arguments (.error e)
  | replaced {f : Formula} {entries : List (κ × Formula)} (hs : parse s maxDepth = .ok f)
      (hall : mode.ReadsAll maxDepth arguments entries) :
      mode.Ends maxDepth s arguments
        (.ok (mode.effect (fun key => OrderedMap.lookup key entries.reverse) f))

variable {mode : SubstitutionMode κ} {maxDepth : Option Nat}

/-- An argument is cut at its first `=`. -/
theorem exists_cut {argument : String} (h : '=' ∈ argument.toList) :
    ∃ name value : String, '=' ∉ name.toList ∧ argument = name ++ "=" ++ value := by
  cases hafter : (Split.first '=' argument.toList).2 with
  | none =>
      have hfirst := Split.not_mem_first '=' argument.toList
      rw [Split.first_none hafter] at hfirst
      exact absurd h hfirst
  | some after =>
      refine ⟨String.ofList (Split.first '=' argument.toList).1, String.ofList after, ?_, ?_⟩
      · rw [String.toList_ofList]
        exact Split.not_mem_first '=' argument.toList
      · apply String.toList_injective
        simpa using Split.first_eq hafter

/-- Every argument says something. -/
theorem exists_reads (mode : SubstitutionMode κ) (maxDepth : Option Nat) (argument : String) :
    ∃ r, mode.Reads maxDepth argument r := by
  by_cases hpair : '=' ∈ argument.toList
  · obtain ⟨name, value, hname, rfl⟩ := exists_cut hpair
    cases hkey : mode.key? name with
    | none => exact ⟨_, .keyless hname hkey⟩
    | some key =>
        cases hvalue : parse value maxDepth with
        | error e => exact ⟨_, .unparsed hname hkey hvalue⟩
        | ok f =>
            by_cases hrefused : ∃ e, mode.Refuses key f e
            · obtain ⟨e, he⟩ := hrefused
              exact ⟨_, .refused hname hkey hvalue he⟩
            · exact ⟨_, .entry hname hkey hvalue (not_exists.mp hrefused)⟩
  · exact ⟨_, .unpaired hpair⟩

/-- Either every argument is an entry, or one of them is the first that is none. -/
theorem exists_readsAll_or_first (mode : SubstitutionMode κ) (maxDepth : Option Nat)
    (arguments : List String) :
    (∃ entries, mode.ReadsAll maxDepth arguments entries) ∨
      ∃ before argument after entries e, arguments = before ++ argument :: after ∧
        mode.ReadsAll maxDepth before entries ∧ mode.Reads maxDepth argument (.error e) := by
  induction arguments with
  | nil => exact .inl ⟨[], .nil⟩
  | cons argument arguments ih =>
      obtain ⟨e | entry, hargument⟩ := mode.exists_reads maxDepth argument
      · exact .inr ⟨[], argument, arguments, [], e, rfl, .nil, hargument⟩
      · rcases ih with ⟨entries, hall⟩ | ⟨before, bad, after, entries, e, rfl, hbefore, hbad⟩
        · exact .inl ⟨entry :: entries, .cons hargument hall⟩
        · exact .inr ⟨argument :: before, bad, after, entry :: entries, e, rfl,
            .cons hargument hbefore, hbad⟩

/-- A formula and arguments always say something. -/
theorem exists_ends [DecidableEq κ] (mode : SubstitutionMode κ) (maxDepth : Option Nat)
    (s : String) (arguments : List String) : ∃ r, mode.Ends maxDepth s arguments r := by
  cases hs : parse s maxDepth with
  | error e => exact ⟨_, .unparsed hs⟩
  | ok f =>
      rcases mode.exists_readsAll_or_first maxDepth arguments with
        ⟨entries, hall⟩ | ⟨before, argument, after, entries, e, hcut, hbefore, hargument⟩
      · exact ⟨_, .replaced hs hall⟩
      · exact ⟨_, .stopped hs hcut hbefore hargument⟩

end SubstitutionMode

open Activity

/-! ### The pass over the arguments -/

/-- The key that a text stands for in the mode. -/
def SubstitutionMode.key (mode : SubstitutionMode κ) (name : String) : Activity κ :=
  match mode.key? name with
  | some key => pure key
  | none => throw (.notAnOperator name)

/-- Reads the arguments and inserts the entries into a substitution one after the other. -/
def SubstitutionKind.readEntries (kind : SubstitutionKind κ σ) (mode : SubstitutionMode κ)
    (maxDepth : Option Nat) (s : σ) : List String → Activity σ
  | [] => pure s
  | argument :: arguments => do
    let (name, value) ← pair argument
    let key ← mode.key name
    let f ← formula value maxDepth
    readEntries kind mode maxDepth (← lift .ofSubstitution (kind.insert s key f)) arguments

/-- So are the entries of a substitution of variables read. -/
theorem Command.variableEntries_eq (maxDepth : Option Nat) (s : VariableSubstitution)
    (arguments : List String) :
    variableEntries maxDepth s arguments =
      VariableSubstitution.kind.readEntries .ofVariables maxDepth s arguments := by
  induction arguments generalizing s with
  | nil => rfl
  | cons argument arguments ih =>
      simp only [variableEntries, SubstitutionKind.readEntries, SubstitutionMode.key,
        SubstitutionMode.ofVariables, pure_bind, ih]
      rfl

/-- And those of a substitution of operators. -/
theorem Command.operatorEntries_eq (maxDepth : Option Nat) (s : OperatorSubstitution)
    (arguments : List String) :
    operatorEntries maxDepth s arguments =
      OperatorSubstitution.kind.readEntries .ofOperators maxDepth s arguments := by
  induction arguments generalizing s with
  | nil => rfl
  | cons argument arguments ih =>
      simp only [operatorEntries, SubstitutionKind.readEntries, SubstitutionMode.key,
        SubstitutionMode.ofOperators, ih]
      congr 1
      funext parts
      cases Operator.ofSymbol? parts.1 with
      | none => rfl
      | some op => rfl

/-- Reads a formula and the arguments, and replaces what they say in the formula. -/
def SubstitutionKind.substitute (kind : SubstitutionKind κ σ) (mode : SubstitutionMode κ)
    (maxDepth : Option Nat) (s : String) (arguments : List String) : Activity Formula := do
  let f ← formula s maxDepth
  (fun t => (kind.apply t f).1) <$> kind.readEntries mode maxDepth kind.start arguments

namespace SubstitutionMode

variable [DecidableEq κ]

/-- The mode obeys a law: it refuses the same entries, and replaces the same. -/
structure Obeys (mode : SubstitutionMode κ) (law : SubstitutionLaw κ) : Prop where
  refuses_iff : ∀ {key f e}, mode.Refuses key f e ↔ law.fault? key f = some e
  effect_eq : mode.effect = law.effect

theorem ofVariables_obeys : ofVariables.Obeys VariableSubstitution.law where
  refuses_iff := by
    intro name f e
    simp only [ofVariables, VariableSubstitution.law]
    cases isVariable name with
    | false => simp [eq_comm (a := e)]
    | true => simp
  effect_eq := rfl

theorem ofOperators_obeys : ofOperators.Obeys OperatorSubstitution.law where
  refuses_iff := by
    intro op template e
    simp only [ofOperators, OperatorSubstitution.law, Option.map_eq_some_iff,
      OperatorSubstitution.strayVariable?_eq_some_iff, and_assoc, eq_comm (a := e)]
  effect_eq := rfl

namespace Obeys

variable {mode : SubstitutionMode κ} {law : SubstitutionLaw κ} {kind : SubstitutionKind κ σ}
  {Stands : σ → (κ → Option Formula) → Prop} {maxDepth : Option Nat}

/-- An entry that is not refused is inserted before the pass goes on. -/
theorem settles_entry (hmode : mode.Obeys law) (hkind : kind.Follows law Stands) {s : σ}
    {m : κ → Option Formula} (hs : Stands s m) {argument : String} {key : κ} {f : Formula}
    (h : mode.Reads maxDepth argument (.ok (key, f))) :
    ∃ s', Stands s' (fun key' => if key = key' then some f else m key') ∧
      ∀ arguments r, Settles (kind.readEntries mode maxDepth s' arguments) r →
        Settles (kind.readEntries mode maxDepth s (argument :: arguments)) r := by
  cases h with
  | entry hname hkey hvalue hrefuses =>
      have hfault : law.fault? key f = none :=
        Option.eq_none_iff_forall_ne_some.mpr fun e he => hrefuses e (hmode.refuses_iff.mpr he)
      obtain ⟨s', hinsert, hs'⟩ := hkind.insert hs hfault
      refine ⟨s', hs', fun arguments r hr => ?_⟩
      rw [SubstitutionKind.readEntries]
      refine (settles_pair hname _).then ?_
      simp only [SubstitutionMode.key, hkey, pure_bind]
      exact (settles_formula hvalue).then ((settles_lift _ hinsert).then hr)

/-- The pass ends with an argument that has an error. -/
theorem settles_error (hmode : mode.Obeys law) (hkind : kind.Follows law Stands) {s : σ}
    {m : κ → Option Formula} (hs : Stands s m) {argument : String} {e : CommandError}
    (h : mode.Reads maxDepth argument (.error e)) (arguments : List String) :
    Settles (kind.readEntries mode maxDepth s (argument :: arguments)) (.error e) := by
  rw [SubstitutionKind.readEntries]
  cases h with
  | unpaired hpair => exact (settles_pair_of_not_mem hpair).stop _
  | keyless hname hkey =>
      refine (settles_pair hname _).then ?_
      simp only [SubstitutionMode.key, hkey]
      exact (settles_throw _).stop _
  | unparsed hname hkey hvalue =>
      refine (settles_pair hname _).then ?_
      simp only [SubstitutionMode.key, hkey, pure_bind]
      exact (settles_formula hvalue).stop _
  | refused hname hkey hvalue hrefuses =>
      have hinsert := hkind.refuse hs (hmode.refuses_iff.mp hrefuses)
      refine (settles_pair hname _).then ?_
      simp only [SubstitutionMode.key, hkey, pure_bind]
      exact (settles_formula hvalue).then ((settles_lift _ hinsert).stop _)

/-- **The pass over arguments that are all entries** leads to a substitution that stands for the
entries, of which the last one for a key is in force, and goes on from there. -/
theorem settles_readEntries (hmode : mode.Obeys law) (hkind : kind.Follows law Stands) {s : σ}
    {m : κ → Option Formula} (hs : Stands s m) {arguments : List String}
    {entries : List (κ × Formula)} (h : mode.ReadsAll maxDepth arguments entries) :
    ∃ s', Stands s' (fun key => (OrderedMap.lookup key entries.reverse).or (m key)) ∧
      ∀ after r, Settles (kind.readEntries mode maxDepth s' after) r →
        Settles (kind.readEntries mode maxDepth s (arguments ++ after)) r := by
  induction h generalizing s m with
  | nil => exact ⟨s, hs, fun _ _ hr => hr⟩
  | @cons argument entry arguments entries hargument hall ih =>
      obtain ⟨key, f⟩ := entry
      obtain ⟨s₁, hs₁, hfirst⟩ := hmode.settles_entry hkind hs hargument
      obtain ⟨s₂, hs₂, hothers⟩ := ih hs₁
      refine ⟨s₂, ?_, fun after r hr => hfirst _ r (hothers after r hr)⟩
      convert hs₂ using 2 with key'
      rw [List.reverse_cons, OrderedMap.lookup_append, Option.or_assoc]
      by_cases hkey : key = key' <;> simp [OrderedMap.lookup, hkey]

/-- So the pass, and the replacement after it, come to what the formula and the arguments say. -/
theorem settles_of_ends (hmode : mode.Obeys law) (hkind : kind.Follows law Stands) {s : String}
    {arguments : List String} {r : Except CommandError Formula}
    (h : mode.Ends maxDepth s arguments r) :
    Settles (kind.substitute mode maxDepth s arguments) r := by
  rw [SubstitutionKind.substitute]
  cases h with
  | unparsed hs => exact (settles_formula hs).stop _
  | stopped hs hcut hbefore hargument =>
      obtain ⟨t, ht, hpass⟩ := hmode.settles_readEntries hkind hkind.start hbefore
      refine (settles_formula hs).then ?_
      rw [hcut, map_eq_pure_bind]
      exact (hpass _ _ (hmode.settles_error hkind ht hargument _)).stop _
  | @replaced f entries hs hall =>
      obtain ⟨t, ht, hpass⟩ := hmode.settles_readEntries hkind hkind.start hall
      have hend := hpass [] _ (settles_pure t)
      rw [List.append_nil] at hend
      refine (settles_formula hs).then ?_
      rw [map_eq_pure_bind]
      refine hend.then ?_
      rw [(hkind.apply f ht).1, hmode.effect_eq]
      simp only [Option.or_none]
      exact settles_pure _

end Obeys

end SubstitutionMode

/-! ### The command -/

/-- How the program ends with a line to print or with an error: the line and exit code 0, or nothing
printed, exit code 1, and the record of the error if that is to be written. -/
def Outcome.ofResult (level : LogLevel) : Except CommandError String → Outcome
  | .ok line => ⟨0, line ++ "\n", ""⟩
  | .error e => ⟨1, "", writtenRecords level [⟨.error, e.message⟩]⟩

/-- A command that prints one line after an activity without effects. -/
theorem runProgram_eq_of_settles {α : Type} {reader : ArgumentReader} {line : List String}
    {input : List UInt8} {level : LogLevel} {command : Command} {x : Activity α}
    {r : Except CommandError α} {text : α → String} (hread : reader line = .ok ⟨level, command⟩)
    (hrun : command.run input = x >>= fun a => print (text a)) (hx : Settles x r) :
    runProgram reader line input = .ofResult level (r.map text) := by
  simp only [runProgram, hread, hrun]
  cases r with
  | error e =>
      rw [hx.stop (fun a => print (text a)) {}]
      rfl
  | ok a =>
      have hprint : (print (text a)).run {} = (.ok (), ⟨text a ++ "\n", []⟩) := by
        rw [← String.empty_append (s := text a)]
        rfl
      rw [hx.run_bind (fun a => print (text a)) {}, hprint]
      rfl

namespace Command

variable {s : String}

/-- The command without the reading of the input. -/
theorem run_subst_ofVariables (hs : s ≠ "-") (maxDepth : Option Nat) (arguments : List String)
    (input : List UInt8) :
    run input (.subst s maxDepth arguments true) =
      VariableSubstitution.kind.substitute .ofVariables maxDepth s arguments >>=
        fun g => print g.text := by
  simp only [run, runSubst, formulaText, hs, if_false, if_true, pure_bind, bind_assoc,
    variableEntries_eq, SubstitutionKind.substitute]
  rfl

/-- The same in the other mode. -/
theorem run_subst_ofOperators (hs : s ≠ "-") (maxDepth : Option Nat) (arguments : List String)
    (input : List UInt8) :
    run input (.subst s maxDepth arguments false) =
      OperatorSubstitution.kind.substitute .ofOperators maxDepth s arguments >>=
        fun g => print g.text := by
  simp only [run, runSubst, formulaText, hs, if_false, Bool.false_eq_true, pure_bind, bind_assoc,
    operatorEntries_eq, SubstitutionKind.substitute]
  rfl

/-- A command line that asks for a substitution: with a depth or not, of variables or of operators,
and with `--` before the formula or not. -/
def substArguments (maxDepth : Option Nat) (ofVariables marked : Bool) (s : String)
    (arguments : List String) : List String :=
  "subst" :: (ArgumentReader.depthArguments maxDepth ++ (if ofVariables then ["--vars"] else []) ++
    ((if marked then ["--"] else []) ++ s :: arguments))

end Command

namespace SubstitutionMode

variable [DecidableEq κ]

/-- In this mode there is one way in which a formula and arguments can end, and the program ends so,
whatever its input is, on every command line that is taken for this substitution. Among these are
the lines with any depth of at most 64 bits or with none, and with any texts, where those that could
be options stand after `--`. -/
def Governs (mode : SubstitutionMode κ) (reader : ArgumentReader) (ofVariables : Bool)
    (maxDepth : Option Nat) (s : String) (arguments : List String) : Prop :=
  ∃ r, mode.Ends maxDepth s arguments r ∧ (∀ r', mode.Ends maxDepth s arguments r' → r' = r) ∧
    (∀ line level input,
      reader line = .ok ⟨level, .subst s maxDepth arguments ofVariables⟩ →
        runProgram reader line input = .ofResult level (r.map Formula.text)) ∧
    ∀ marked input, (∀ n ∈ maxDepth, n < UInt64.size) →
      (marked = true ∨ ∀ t ∈ s :: arguments, ArgumentReader.IsPositional t) →
        runProgram reader (Command.substArguments maxDepth ofVariables marked s arguments) input =
          .ofResult .default (r.map Formula.text)

/-- A mode governs the program if the command, apart from the printing, is the pass over the
arguments in that mode. -/
theorem Obeys.governs {mode : SubstitutionMode κ} {law : SubstitutionLaw κ}
    {kind : SubstitutionKind κ σ} {Stands : σ → (κ → Option Formula) → Prop}
    (hmode : mode.Obeys law) (hkind : kind.Follows law Stands) {reader : ArgumentReader}
    (hreader : reader.ReadsSubst) {ofVariables : Bool} {maxDepth : Option Nat} {s : String}
    {arguments : List String}
    (hrun : ∀ input, Command.run input (.subst s maxDepth arguments ofVariables) =
      kind.substitute mode maxDepth s arguments >>= fun g => print g.text) :
    mode.Governs reader ofVariables maxDepth s arguments := by
  obtain ⟨r, hr⟩ := mode.exists_ends maxDepth s arguments
  have hsettles := hmode.settles_of_ends hkind hr
  refine ⟨r, hr, fun r' hr' => (hmode.settles_of_ends hkind hr').unique hsettles,
    fun line level input hline => runProgram_eq_of_settles hline (hrun input) hsettles,
    fun marked input hdepth hpositional => ?_⟩
  have hline := hreader s arguments ofVariables maxDepth hdepth marked hpositional
  exact runProgram_eq_of_settles hline (hrun input) hsettles

end SubstitutionMode

/-- **Arguments are applied at once, or the first bad one is reported.** In either mode there is one
way in which a formula and arguments can end: with the error of the formula, with that of the first
argument that has one, or with the formula after the simultaneous replacement. Every command line
that is taken for this substitution makes the program end so. The reader must take lines for this
command. -/
theorem runProgram_subst_at_once {reader : ArgumentReader} (hreader : reader.ReadsSubst)
    {s : String} (hs : s ≠ "-") (maxDepth : Option Nat) (arguments : List String) :
    SubstitutionMode.ofVariables.Governs reader true maxDepth s arguments ∧
      SubstitutionMode.ofOperators.Governs reader false maxDepth s arguments := by
  constructor
  · exact SubstitutionMode.ofVariables_obeys.governs VariableSubstitution.follows hreader
      (Command.run_subst_ofVariables hs maxDepth arguments)
  · exact SubstitutionMode.ofOperators_obeys.governs OperatorSubstitution.follows hreader
      (Command.run_subst_ofOperators hs maxDepth arguments)

/-- Of two formulas for `p` the last one counts, and neither it nor the one for `q` is looked at
again; and of two bad arguments the first one is reported, although the other one is bad too. -/
theorem runProgram_subst_at_once_two_modes :
    runProgram (.conventional fun _ => "")
        ["subst", "--max-depth", "3", "--vars", "--", "(p&q)", "p=q", "q=r", "p=~q"] [] =
        ⟨0, "(~q&r)\n", ""⟩ ∧
      runProgram (.conventional fun _ => "") ["subst", "(p&q)", "&=(q|p)", "x", "~=(p|r)"] [] =
        ⟨1, "", "[ERROR] invalid argument: expected 'key=value', got 'x'\n"⟩ := by
  have hreader := ArgumentReader.readsSubst_conventional fun _ => ""
  have hname : isVariable "p" = true ∧ isVariable "q" = true ∧ isVariable "r" = true := by decide
  constructor
  · have hparse (f : Formula) {text : String} (hwf : f.WellFormed)
        (htext : f.standardForm = text) (hdepth : f.depth ≤ 3) : parse text (some 3) = .ok f :=
      parse_limited_eq_ok_iff.mpr ⟨hwf, f.text_eq.trans htext, hdepth⟩
    have hwritten : ["p" ++ "=" ++ "q", "q" ++ "=" ++ "r", "p" ++ "=" ++ "~q"] =
        ["p=q", "q=r", "p=~q"] := by decide
    have hall : SubstitutionMode.ofVariables.ReadsAll (some 3) ["p=q", "q=r", "p=~q"]
        [("p", .var "q"), ("q", .var "r"), ("p", .not (.var "q"))] := by
      rw [← hwritten]
      refine .cons (.entry (by decide) rfl (hparse (.var "q") hname.2.1 rfl (by decide)) ?_)
        (.cons (.entry (by decide) rfl (hparse (.var "r") hname.2.2 rfl (by decide)) ?_)
          (.cons (.entry (by decide) rfl (hparse (.not (.var "q")) hname.2.1 rfl (by decide)) ?_)
            .nil)) <;>
      exact fun e he => absurd he.1 (by decide)
    obtain ⟨⟨r, -, hunique, -, hrun⟩, -⟩ :=
      @runProgram_subst_at_once _ hreader "(p&q)" (by decide) (some 3) ["p=q", "q=r", "p=~q"]
    have hconj : parse "(p&q)" (some 3) = .ok (.binary .and (.var "p") (.var "q")) :=
      hparse _ ⟨hname.1, hname.2.1⟩ rfl (by decide)
    have htext : Formula.text (.binary .and (.not (.var "q")) (.var "r")) = "(~q&r)" := by
      rw [Formula.text_eq]
      rfl
    have hread := hrun true [] (by decide) (.inl rfl)
    rw [← hunique _ (.replaced hconj hall)] at hread
    exact hread.trans (congrArg (fun text => Outcome.mk 0 (text ++ "\n") "") htext)
  · have hwritten : ["&" ++ "=" ++ "(q|p)"] = ["&=(q|p)"] := by decide
    have hbefore : SubstitutionMode.ofOperators.ReadsAll none ["&=(q|p)"]
        [(.binary .and, .binary .or (.var "q") (.var "p"))] := by
      rw [← hwritten]
      refine .cons (.entry (by decide) rfl (parse_eq_ok_iff.mpr ⟨⟨hname.2.1, hname.1⟩, ?_⟩) ?_) .nil
      · rw [Formula.text_eq]
        rfl
      · rintro e ⟨x, ⟨rfl | rfl, hp, hq⟩, -⟩
        · exact hq rfl
        · exact hp rfl
    have hpositional : ∀ t ∈ ["(p&q)", "&=(q|p)", "x", "~=(p|r)"],
        ArgumentReader.IsPositional t := by
      simp only [List.forall_mem_cons, ArgumentReader.IsPositional]
      decide
    obtain ⟨-, ⟨r, -, hunique, -, hrun⟩⟩ :=
      @runProgram_subst_at_once _ hreader "(p&q)" (by decide) none ["&=(q|p)", "x", "~=(p|r)"]
    have hconj : parse "(p&q)" none = .ok (.binary .and (.var "p") (.var "q")) := by
      refine parse_eq_ok_iff.mpr ⟨⟨hname.1, hname.2.1⟩, ?_⟩
      rw [Formula.text_eq]
      rfl
    have hread := hrun false [] (by simp) (.inr hpositional)
    rw [← hunique _ (.stopped hconj rfl hbefore (.unpaired (by decide)))] at hread
    refine hread.trans ?_
    rfl

end Propositional

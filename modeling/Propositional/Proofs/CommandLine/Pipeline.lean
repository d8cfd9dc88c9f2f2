import Mathlib.Data.Bool.AllAny
import Propositional.Proofs.CommandLine.Activities
import Propositional.Proofs.CommandLine.Arguments
import Propositional.Proofs.Semantics.CanonicalForms
import Propositional.Proofs.Semantics.RenderedTables
import Propositional.Proofs.Text.LongestPrefix

/-!
# From a Truth Table to a Formula and Back

The program prints a formula with a given truth table, and it prints the truth table of a formula.
If the line that the first command prints is the input of the second one, the table that comes out
is the one that went in. On the way the variables are cut apart at the commas and their values are
read letter by letter, the formula is written and read, its variables are collected and sorted anew,
and its values are found by a program.

The variables come back in the same order only if they ascend and if every one of them is mentioned,
that is, if the formula has a clause (`NormalForm.exists_synthesize_truthTable`).

## Main results

* `NormalForm.exists_synthesize_truthTable`: the formula with a truth table has that table.
* `Command.yields_runSynth`, `Command.yields_runTable`: what the two commands print.
* `Table.read_of_letters`: what is read from the table.
* `runProgram_synth_table`: one command after the other.
-/

namespace Propositional

/-! ### The formula with a given truth table -/

/-- **The formula with a given truth table has that table**, over the same variables, if these are
in ascending order and some entry calls for a clause. -/
theorem NormalForm.exists_synthesize_truthTable (form : NormalForm) {vars : List String}
    {values : List Bool} (hne : vars ≠ []) (hvalid : ∀ name ∈ vars, isVariable name = true)
    (hsorted : vars.Pairwise (· < ·)) (hlimit : vars.length < variableLimit)
    (hlength : values.length = 2 ^ vars.length) (hselected : form.selected ∈ values) :
    ∃ f : Formula, form.synthesize vars values = .ok f ∧ f.WellFormed ∧ f.vars = vars ∧
      ∀ config, f.truthTable config = .ok values := by
  obtain ⟨name, others, rfl⟩ := List.exists_cons_of_ne_nil hne
  obtain ⟨clauses, hf, hvalues, hmentions, hnone⟩ :=
    form.exists_clauses_of_values hvalid (hsorted.imp String.ne_of_lt) hlimit values hlength
  -- as there is a clause, all variables are mentioned
  obtain ⟨g, hg⟩ : ∃ g, g ∈ clauses := by
    refine List.exists_mem_of_ne_nil clauses fun hnil => ?_
    exact hnone.mp hnil form.selected hselected rfl
  have hmem : ∀ x, (form.joined name clauses).Mentions x ↔ x ∈ name :: others := by
    intro x
    rw [mentions_joined]
    constructor
    · rintro (⟨rfl, -⟩ | ⟨g, hg, hx⟩)
      · exact absurd hg List.not_mem_nil
      · exact (hmentions g hg x).mp hx
    · exact fun hx => .inr ⟨g, hg, (hmentions g hg x).mpr hx⟩
  have hvars : (form.joined name clauses).vars = name :: others :=
    Formula.vars_eq_of_sorted hsorted hmem
  have hwf : (form.joined name clauses).WellFormed :=
    Formula.wellFormed_iff.mpr fun x hx => hvalid x ((hmem x).mp hx)
  refine ⟨form.joined name clauses, hf, hwf, hvars, fun config => ?_⟩
  rw [Formula.truthTable_eq_ok config (hvars.symm ▸ hlimit), hvars, ← hlength]
  refine congrArg Except.ok (List.ext_getElem (by simp) fun i hi hi' => ?_)
  rw [List.getElem_map, List.getElem_range, hvalues i hi']

/-! ### The commands -/

namespace Activity

/-- The names of variables that were joined by commas are found again. -/
theorem commaSeparated_intercalate {names : List String}
    (h : ∀ name ∈ names, isVariable name = true) :
    commaSeparated (",".intercalate names) = names := by
  have hwords : Split.words ',' (",".intercalate names).toList = names.map String.toList := by
    have hnames : ∀ name ∈ names, ',' ∉ name.toList ∧ name.toList ≠ [] := by
      refine fun name hname => ⟨fun hcomma => ?_, toList_ne_nil_of_isVariable (h name hname)⟩
      exact absurd (isNameChar_of_mem (h name hname) ',' hcomma) (by decide)
    rw [String.toList_intercalate]
    exact Split.words_intercalate (List.forall_mem_map.mpr hnames)
  change (Split.words ',' (",".intercalate names).toList).map String.ofList = names
  rw [hwords, List.map_map]
  simp

/-- The letters of truth values are read. -/
theorem yields_truthValue {c : Char} (h : c = 'T' ∨ c = 'F') :
    Yields (truthValue (String.singleton c)) (c == 'T') "" := by
  rcases h with rfl | rfl
  · exact yields_pure _
  · exact yields_pure _

/-- How the models are divided is reported only if that is asked for. -/
theorem yields_logModels (config : PoolConfig) (vars : Nat) :
    Yields (logModels config vars) () "" := by
  unfold logModels logDispatch
  split
  · split
    · exact yields_pure ()
    · exact yields_log rfl _
  · exact yields_pure ()

end Activity

namespace Command

open Activity

/-- The formula with the given truth table is printed. -/
theorem yields_runSynth {form : NormalForm} {names : List String} {letters : String} {f : Formula}
    (hnames : ∀ name ∈ names, isVariable name = true)
    (hletters : ∀ c ∈ letters.toList, c = 'T' ∨ c = 'F')
    (hf : form.synthesize names (letters.toList.map (· == 'T')) = .ok f) :
    Yields (runSynth (",".intercalate names) letters form) () (f.text ++ "\n") := by
  unfold runSynth
  dsimp only
  rw [commaSeparated_intercalate hnames]
  refine (yields_mapM fun c hc => yields_truthValue (hletters c hc)).then ?_
  rw [hf]
  have hprint : ∀ message, Yields (do
      let f ← lift Error.ofSemantics (.ok f)
      log .debug message
      print f.text) () (f.text ++ "\n") := fun message =>
    (yields_lift_ok _ f).then ((yields_log rfl message).then (yields_print f.text))
  split
  · exact hprint _
  · split
    · exact (yields_log rfl _).then (hprint _)
    · exact hprint _

/-- The truth table of the formula in the first line of the input is printed. -/
theorem yields_runTable {input : List UInt8} {f : Formula} {table : String} {config : PoolConfig}
    (hf : f.WellFormed) (hinput : firstLine input = bytes (f.text ++ "\n"))
    (htable : f.renderTruthTable config = .ok table) :
    Yields (runTable input "-" none config) () (table ++ "\n") := by
  have htrim : trimLineEnd (f.text ++ "\n") = f.text := by
    refine trimLineEnd_append (fun c hc => ⟨?_, ?_⟩) (List.forall_mem_singleton.mpr (.inl rfl))
    · rintro rfl
      exact absurd (hf.printable_text _ hc).1 (by decide)
    · rintro rfl
      exact absurd (hf.printable_text _ hc).1 (by decide)
  have hparse : Propositional.parse f.text = .ok f := parse_eq_ok_iff.mpr ⟨hf, rfl⟩
  unfold runTable
  refine (yields_formulaText hinput).then ?_
  rw [htrim, formula, hparse]
  refine (yields_lift_ok _ f).then ((yields_logModels config _).then ?_)
  rw [htable]
  exact (yields_lift_ok _ table).then (yields_print table)

end Command

/-! ### One command after the other -/

/-- Names of variables that were joined by commas are no option. -/
theorem ArgumentReader.isPositional_intercalate {names : List String} (hne : names ≠ [])
    (hnames : ∀ name ∈ names, isVariable name = true) :
    IsPositional (",".intercalate names) := by
  obtain ⟨name, others, rfl⟩ := List.exists_cons_of_ne_nil hne
  obtain ⟨letter, digits, rfl, hletter, -⟩ := isVariable_iff.mp (hnames name List.mem_cons_self)
  have hdash : letter ≠ '-' := by
    rintro rfl
    exact absurd hletter (by decide)
  refine .inr ?_
  rw [String.toList_intercalate, List.map_cons, String.toList_ofList]
  cases others <;> simpa using hdash

/-- Nor are letters of truth values. -/
theorem ArgumentReader.isPositional_letters {letters : String}
    (hletters : ∀ c ∈ letters.toList, c = 'T' ∨ c = 'F') : IsPositional letters := by
  refine .inr fun hhead => ?_
  exact absurd (hletters '-' (List.mem_of_head? hhead)) (by decide)

/-- A letter is that of the value that it is read as. -/
theorem Model.letter_eq_singleton {c : Char} (h : c = 'T' ∨ c = 'F') :
    letter (c == 'T') = String.singleton c := by
  rcases h with rfl | rfl <;> rfl

/-- What is read from a table with given values: the headers come first, and two lines on begin the
rows, each with the values of a model and the letter of the value in it. -/
theorem Table.read_of_letters {vars : List String} {text : String} {letters : List Char}
    (hheaders : ∀ s ∈ vars ++ [text], IsCell s) (hletters : ∀ c ∈ letters, c = 'T' ∨ c = 'F') :
    ∃ found, read ("\n".intercalate (lines (vars ++ [text]) (letters.map (· == 'T'))) ++ "\n") =
        found ∧ found.length = 2 + letters.length ∧ found[0]? = some (vars ++ [text]) ∧
      ∀ i (hi : i < letters.length), found[2 + i]? =
        some (((Enumeration.modelOf vars i).entries.map fun entry => Model.letter entry.2) ++
          [String.singleton letters[i]]) := by
  obtain ⟨dashes, hread⟩ := exists_read_lines (letters.map (· == 'T')) hheaders
  refine ⟨_, hread, ?_, rfl, fun i hi => ?_⟩
  · rw [List.length_cons, List.length_cons, List.length_map, List.length_zipIdx, List.length_map]
    omega
  · have hvalue : (letters.map (· == 'T'))[i]? = some (letters[i] == 'T') := by
      rw [List.getElem?_map, List.getElem?_eq_getElem hi]
      rfl
    rw [Nat.add_comm, List.getElem?_cons_succ, List.getElem?_cons_succ, List.getElem?_map,
      List.getElem?_zipIdx, hvalue, ← Model.letter_eq_singleton (hletters _ (List.getElem_mem hi))]
    simp

/-- **A truth table is turned into a formula and back.** Variables in ascending order, and the
letters of a table that calls for a clause, are turned into a formula. Given the line that was
printed, the program finds the same variables and the same letters: it prints the table of the
formula, with the variables and the formula as headers and, below the line of dashes, the models
over the variables one after the other, each with its letter. The reader must take lines for these
two commands. -/
theorem runProgram_synth_table {reader : ArgumentReader} (hsynth : reader.ReadsSynth)
    (htable : reader.ReadsTable) (conjunctive : Bool) {vars : List String} {letters : String}
    (hne : vars ≠ []) (hvalid : ∀ name ∈ vars, isVariable name = true)
    (hsorted : vars.Pairwise fun x y => bytes x < bytes y) (hlimit : vars.length < 64)
    (hletters : ∀ c ∈ letters.toList, c = 'T' ∨ c = 'F')
    (hlength : letters.length = 2 ^ vars.length)
    (hselected : (if conjunctive then 'F' else 'T') ∈ letters.toList) (input : List UInt8) :
    ∃ (f : Formula) (models : Enumeration) (table : String),
      runProgram reader ("synth" :: ((if conjunctive then ["--cnf"] else []) ++
        [",".intercalate vars, letters])) input = ⟨0, f.text ++ "\n", ""⟩ ∧
      runProgram reader ["table", "-"] (bytes (f.text ++ "\n")) = ⟨0, table ++ "\n", ""⟩ ∧
      f.renderTruthTable {} = .ok table ∧
      Enumeration.ofVariables vars = .ok models ∧
      (Table.read (table ++ "\n")).length = 2 + 2 ^ vars.length ∧
      (Table.read (table ++ "\n"))[0]? = some (vars ++ [f.text]) ∧
      ∀ i (hi : i < letters.toList.length), ∃ m, models.modelAt? i = some m ∧ m.vars = vars ∧
        (Table.read (table ++ "\n"))[2 + i]? =
          some ((m.entries.map fun entry => Model.letter entry.2) ++
            [String.singleton letters.toList[i]]) := by
  have hlt : vars.Pairwise (· < ·) := hsorted.imp lt_iff_bytes_lt.mpr
  rw [← String.length_toList] at hlength
  have hvalues : (letters.toList.map (· == 'T')).length = 2 ^ vars.length := by
    rw [List.length_map, hlength]
  have hclause : (if conjunctive then NormalForm.conjunctive else .disjunctive).selected ∈
      letters.toList.map (· == 'T') :=
    List.mem_map.mpr ⟨_, hselected, by cases conjunctive <;> rfl⟩
  obtain ⟨f, hf, hwf, hvars, hvaluesOf⟩ :=
    NormalForm.exists_synthesize_truthTable _ hne hvalid hlt hlimit hvalues hclause
  have hrender : f.renderTruthTable {} =
      .ok ("\n".intercalate (Table.lines (vars ++ [f.text]) (letters.toList.map (· == 'T')))) := by
    rw [Formula.renderTruthTable, hvaluesOf, hvars]
    rfl
  have hline : Activity.firstLine (bytes (f.text ++ "\n")) = bytes (f.text ++ "\n") := by
    have h := Activity.firstLine_bytes hwf.isCell_text.newline_notMem []
    rwa [List.append_nil] at h
  have hheaders : ∀ s ∈ vars ++ [f.text], Table.IsCell s :=
    List.forall_mem_append.mpr ⟨fun name hname => isCell_of_isVariable (hvalid name hname),
      List.forall_mem_singleton.mpr hwf.isCell_text⟩
  have hpositional : ∀ s ∈ [",".intercalate vars, letters], ArgumentReader.IsPositional s :=
    List.forall_mem_cons.mpr ⟨ArgumentReader.isPositional_intercalate hne hvalid,
      List.forall_mem_singleton.mpr (ArgumentReader.isPositional_letters hletters)⟩
  obtain ⟨found, hread, hcount, hfirst, hrows⟩ := Table.read_of_letters hheaders hletters
  refine ⟨f, .start vars, _, ?_, ?_, hrender, ?_, ?_, ?_, fun i hi => ?_⟩
  · exact Activity.runProgram_eq_of_yields
      (hsynth (",".intercalate vars) letters conjunctive false (.inr hpositional))
      (Command.yields_runSynth hvalid hletters hf)
  · exact Activity.runProgram_eq_of_yields
      (htable "-" false (.inr (List.forall_mem_singleton.mpr (.inl rfl))))
      (Command.yields_runTable hwf hline hrender)
  · exact Enumeration.ofVariables_eq_ok hvalid (hlt.imp String.ne_of_lt) hlimit
  · rw [hread, hcount, hlength]
  · rw [hread, hfirst]
  · refine ⟨_, Enumeration.modelAt?_start (hlength ▸ hi), Enumeration.vars_modelOf vars i, ?_⟩
    rw [hread, hrows i hi]

/-- The letters `TFTT` of a table over `p` and `q7` are turned into a formula in conjunctive normal
form, and the second row of the table of that formula has the cells `F`, `T` and `F`. -/
theorem runProgram_synth_table_two_variables :
    ∃ (f : Formula) (table : String),
      runProgram (.conventional fun _ => "") ["synth", "--cnf", "p,q7", "TFTT"] [] =
        ⟨0, f.text ++ "\n", ""⟩ ∧
      runProgram (.conventional fun _ => "") ["table", "-"] (bytes (f.text ++ "\n")) =
        ⟨0, table ++ "\n", ""⟩ ∧
      (Table.read (table ++ "\n"))[0]? = some ["p", "q7", f.text] ∧
      (Table.read (table ++ "\n"))[3]? = some ["F", "T", "F"] := by
  have hvalid : ∀ name ∈ ["p", "q7"], isVariable name = true := by decide
  have hsorted : ["p", "q7"].Pairwise fun x y => bytes x < bytes y := by
    simp only [← lt_iff_bytes_lt]
    decide
  have hletters : ∀ c ∈ "TFTT".toList, c = 'T' ∨ c = 'F' :=
    List.all_iff_forall_prop.mp (by decide)
  obtain ⟨f, models, table, hsynth, htable, -, hmodels, -, hfirst, hrows⟩ :=
    runProgram_synth_table (ArgumentReader.readsSynth_conventional fun _ => "")
      (ArgumentReader.readsTable_conventional _) true (List.cons_ne_nil "p" ["q7"]) hvalid hsorted
      (by decide) hletters (by decide) (by decide) []
  obtain ⟨m, hm, -, hrow⟩ := hrows 1 (by decide)
  have hstart := Enumeration.ofVariables_eq_ok hvalid (by decide) (by decide)
  obtain rfl : models = .start ["p", "q7"] := Except.ok.inj (hmodels.symm.trans hstart)
  obtain rfl : m = Enumeration.modelOf ["p", "q7"] 1 :=
    Option.some.inj (hm.symm.trans (Enumeration.modelAt?_start (by decide)))
  exact ⟨f, table, hsynth, htable, hfirst, hrow⟩

end Propositional

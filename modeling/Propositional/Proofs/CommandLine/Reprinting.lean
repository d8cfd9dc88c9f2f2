import Propositional.Proofs.CommandLine.Activities
import Propositional.Proofs.CommandLine.Arguments
import Propositional.Proofs.Text.PolishNotation
import Propositional.Proofs.Text.StandardNotation
import Propositional.Proofs.Text.Words

/-!
# What Is Printed Can Be Read Back

A formula that is read in one of the two notations is printed in both, on a line each. Either line,
given to the program again in its own notation, makes it print the same two lines.

Of the input only the first line counts, and of that line not how it ends: neither the line feed,
nor a carriage return before it, nor what comes after it has any influence. That is so because a
formula is written without blanks and control characters in either notation.

## Main definitions

* `Formula.written`: the text of a formula in one of the notations.
* `Activity.BeginsWithLine`: how a line may stand at the beginning of the input.

## Main results

* `Activity.yields_formulaText_of_begins`: the line is read without its end.
* `runProgram_parse_reprints`: the lines that are printed, and what is printed for each of them.
-/

namespace Propositional

/-! ### Both notations -/

namespace Formula

/-- The text of the formula, in polish notation if that is asked for. -/
def written (polish : Bool) (f : Formula) : String :=
  if polish then f.polish else f.text

/-- In either notation formulas are written without blanks and control characters. -/
theorem WellFormed.printable_written {f : Formula} (hf : f.WellFormed) (polish : Bool) :
    ∀ c ∈ (f.written polish).toList, ' ' < c := by
  intro c hc
  cases polish with
  | false =>
      change c ∈ f.text.toList at hc
      rw [toList_text] at hc
      exact (Token.printable_of_mem_chars ((wellFormed_standardTokens f).mpr hf) c hc).1
  | true =>
      change c ∈ f.polish.toList at hc
      rw [toList_polish] at hc
      exact (Token.printable_of_mem_chars ((wellFormed_polishTokens f).mpr hf) c hc).1

/-- So no line feed and no carriage return stands in the text. -/
theorem WellFormed.lineEnd_notMem_written {f : Formula} (hf : f.WellFormed) (polish : Bool) :
    ∀ c ∈ (f.written polish).toList, c ≠ '\n' ∧ c ≠ '\r' := by
  refine fun c hc => ⟨?_, ?_⟩
  · rintro rfl
    exact absurd (hf.printable_written polish _ hc) (by decide)
  · rintro rfl
    exact absurd (hf.printable_written polish _ hc) (by decide)

end Formula

/-! ### The first line of the input -/

namespace Activity

/-- The line stands at the beginning of the input. It may be all there is; otherwise it ends with a
line feed or with a carriage return and a line feed, and anything may come after it. -/
def BeginsWithLine (line : String) (input : List UInt8) : Prop :=
  input = bytes line ∨
    ∃ ending ∈ ["\n", "\r\n"], ∃ rest : List UInt8, input = bytes (line ++ ending) ++ rest

/-- What is read as the first line is the line with some of its end. -/
theorem BeginsWithLine.exists_firstLine {line : String} {input : List UInt8}
    (h : BeginsWithLine line input) (hline : '\n' ∉ line.toList) :
    ∃ ending : String, (∀ c ∈ ending.toList, c = '\n' ∨ c = '\r') ∧
      firstLine input = bytes (line ++ ending) := by
  rcases h with rfl | ⟨ending, hending, rest, rfl⟩
  · refine ⟨"", List.forall_mem_nil _, ?_⟩
    rw [String.append_empty, firstLine_bytes_self hline]
  · obtain rfl | rfl : ending = "\n" ∨ ending = "\r\n" := by simpa using hending
    · exact ⟨"\n", List.forall_mem_singleton.mpr (.inl rfl), firstLine_bytes hline rest⟩
    · -- the carriage return belongs to the text before the line feed
      have hreturn : '\n' ∉ (line ++ "\r").toList := by
        rw [String.toList_append, List.mem_append, not_or]
        exact ⟨hline, by decide⟩
      refine ⟨"\r\n",
        List.forall_mem_cons.mpr ⟨.inr rfl, List.forall_mem_singleton.mpr (.inl rfl)⟩, ?_⟩
      have hfirst := firstLine_bytes hreturn rest
      rwa [String.append_assoc] at hfirst

/-- **The line is read without its end**, whatever comes after it. -/
theorem yields_formulaText_of_begins {line : String} {input : List UInt8}
    (h : BeginsWithLine line input) (hline : ∀ c ∈ line.toList, c ≠ '\n' ∧ c ≠ '\r') :
    Yields (formulaText input "-") line "" := by
  obtain ⟨ending, hending, hfirst⟩ := h.exists_firstLine fun hmem => (hline '\n' hmem).1 rfl
  have hread := yields_formulaText hfirst
  rwa [trimLineEnd_append hline hending] at hread

end Activity

/-! ### The command -/

namespace Command

open Activity

/-- A formula that is read in either notation is printed in both. -/
theorem yields_runParse {f : Formula} (hf : f.WellFormed) {polish : Bool} {input : List UInt8}
    (h : BeginsWithLine (f.written polish) input) :
    Yields (runParse input "-" none polish) () (f.text ++ "\n" ++ (f.polish ++ "\n")) := by
  have hprint : Yields (print f.text >>= fun _ => print f.polish) ()
      (f.text ++ "\n" ++ (f.polish ++ "\n")) :=
    (yields_print f.text).bind (yields_print f.polish)
  unfold runParse
  refine (yields_formulaText_of_begins h (hf.lineEnd_notMem_written polish)).then ?_
  cases polish with
  | false =>
      have hparse : formula f.text none = lift .ofText (.ok f) := by
        rw [formula, parse_eq_ok_iff.mpr ⟨hf, rfl⟩]
      change Yields (formula f.text none >>= _) () _
      rw [hparse]
      exact (yields_lift_ok _ f).then hprint
  | true =>
      have hparse : parsePolish f.polish none = .ok f := parsePolish_eq_ok_iff.mpr ⟨hf, rfl⟩
      change Yields (lift .ofText (parsePolish f.polish none) >>= _) () _
      rw [hparse]
      exact (yields_lift_ok _ f).then hprint

/-- The command line that has the formula in the input printed. -/
def parseArguments (polish : Bool) : List String :=
  "parse" :: ((if polish then ["--polish"] else []) ++ ["-"])

end Command

/-- The lines that are printed: both contain no line feed, and nothing comes after them. -/
theorem Formula.WellFormed.all_newline_printed {f : Formula} (hf : f.WellFormed) :
    Split.all '\n' (f.text ++ "\n" ++ (f.polish ++ "\n")).toList =
      [f.text.toList, f.polish.toList, []] := by
  have htext : '\n' ∉ f.text.toList := fun hmem => (hf.lineEnd_notMem_written false _ hmem).1 rfl
  have hpolish : '\n' ∉ f.polish.toList := fun hmem =>
    (hf.lineEnd_notMem_written true _ hmem).1 rfl
  have hchars : (f.text ++ "\n" ++ (f.polish ++ "\n")).toList =
      f.text.toList ++ '\n' :: (f.polish.toList ++ '\n' :: []) := by simp
  rw [hchars, Split.all_append_cons, Split.all_append_cons, Split.all_of_notMem htext,
    Split.all_of_notMem hpolish]
  rfl

/-- **What is printed can be read back.** If the input begins with a well-formed formula in the
notation that is asked for, the program prints the formula in both notations, on a line each, and
nothing else; the first of these lines in standard notation, or the second one in polish notation,
makes it end in the same way again. The reader must take lines for this command. -/
theorem runProgram_parse_reprints {reader : ArgumentReader} (hreader : reader.ReadsParse)
    {f : Formula} (hf : f.WellFormed) {polish : Bool} {input : List UInt8}
    (h : Activity.BeginsWithLine (f.written polish) input) :
    ∃ outcome, runProgram reader (Command.parseArguments polish) input = outcome ∧
      outcome = ⟨0, f.text ++ "\n" ++ (f.polish ++ "\n"), ""⟩ ∧
      Split.all '\n' outcome.stdout.toList = [f.text.toList, f.polish.toList, []] ∧
      ∀ (polish' : Bool) (line : List Char) (input' : List UInt8),
        (Split.all '\n' outcome.stdout.toList)[polish'.toNat]? = some line →
        Activity.BeginsWithLine (String.ofList line) input' →
        runProgram reader (Command.parseArguments polish') input' = outcome := by
  have hprints : ∀ (polish : Bool) {input : List UInt8},
      Activity.BeginsWithLine (f.written polish) input →
        runProgram reader (Command.parseArguments polish) input =
          ⟨0, f.text ++ "\n" ++ (f.polish ++ "\n"), ""⟩ := by
    intro polish input h
    have hline := hreader "-" polish false (.inr (List.forall_mem_singleton.mpr (.inl rfl)))
    exact Activity.runProgram_eq_of_yields hline (Command.yields_runParse hf h)
  refine ⟨_, hprints polish h, rfl, hf.all_newline_printed, fun polish' line input' hline h' => ?_⟩
  rw [hf.all_newline_printed] at hline
  refine hprints polish' ?_
  cases polish' with
  | false =>
      obtain rfl := Option.some.inj hline
      rwa [String.ofList_toList] at h'
  | true =>
      obtain rfl := Option.some.inj hline
      rwa [String.ofList_toList] at h'

/-- An implication in polish notation, which begins like an option, on a line that ends with a
carriage return and a line feed and is followed by another line. -/
theorem runProgram_parse_reprints_implication :
    runProgram (.conventional fun _ => "") ["parse", "--polish", "-"]
        (bytes ("->~q7p" ++ "\r\n") ++ bytes "->pq\n") =
      ⟨0, "(~q7->p)\n->~q7p\n", ""⟩ := by
  have hpolish : Formula.written true (.binary .implies (.not (.var "q7")) (.var "p")) =
      "->~q7p" := by
    simp only [Formula.written, Formula.polish_eq]
    rfl
  have htext : Formula.text (.binary .implies (.not (.var "q7")) (.var "p")) = "(~q7->p)" := by
    rw [Formula.text_eq]
    rfl
  have hname : ∀ name ∈ ["q7", "p"], isVariable name = true := by decide
  have hwf : Formula.WellFormed (.binary .implies (.not (.var "q7")) (.var "p")) :=
    ⟨hname "q7" (by decide), hname "p" (by decide)⟩
  obtain ⟨outcome, hrun, hprinted, -⟩ := @runProgram_parse_reprints _
    (ArgumentReader.readsParse_conventional fun _ => "") _ hwf true _
    (.inr ⟨"\r\n", by decide, bytes "->pq\n", rfl⟩)
  rw [hpolish, hprinted, htext, show Formula.polish _ = "->~q7p" from hpolish] at hrun
  exact hrun

end Propositional

import Propositional.Proofs.Semantics.Enumeration
import Propositional.Proofs.Text.StandardNotation
import Propositional.Proofs.Text.Words
import Propositional.TruthTable.Rendering

/-!
# Rendered Tables Are Read Back

A table is read line by line, and the cells of a line are the words between its blanks, bars left
out (`Table.read`). That works as long as no cell has a blank or a line end in it, is empty, or is a
bar itself (`Table.IsCell`). The letters of truth values, the names of variables and the texts of
formulas are like that: a formula is written without blanks, and a bar in it stands between its
operands.

## Main definitions

* `Table.cells`, `Table.read`: the cells of a line, and those of each line of a text.
* `Table.IsCell`: the texts that can be read back from a cell.

## Main results

* `Table.cells_row`: the cells of a row are found again.
* `Table.exists_read_lines`: so are those of a table.
* `Formula.WellFormed.isCell_text`, `isCell_of_isVariable`: formulas and variables can be read back.
-/

namespace Propositional

namespace Table

/-! ### Reading a table -/

/-- The cells of a line: the words between blanks, bars left out. -/
def cells (line : List Char) : List String :=
  ((Split.words ' ' line).filter (· != ['|'])).map String.ofList

/-- The cells of each line of a text. -/
def read (text : String) : List (List String) :=
  (Split.words '\n' text.toList).map cells

/-- The text can stand in a cell: it is not empty, has no blanks and line ends, and is no bar. -/
structure IsCell (s : String) : Prop where
  ne_empty : s.toList ≠ []
  ne_bar : s.toList ≠ ['|']
  blank_notMem : ' ' ∉ s.toList
  newline_notMem : '\n' ∉ s.toList

/-- The letter of a truth value can. -/
theorem isCell_letter (value : Bool) : IsCell (Model.letter value) := by
  cases value <;> constructor <;> decide

/-! ### Lines -/

/-- What a column of the given width adds to a row: the cell, blanks around it, and a bar. -/
def columnChars (column : Nat × String) : List Char :=
  ' ' :: (column.2.toList ++ List.replicate (column.1 - column.2.length) ' ' ++ [' ', '|'])

/-- The characters of a row. -/
theorem toList_row (widths : List Nat) (texts : List String) :
    (row widths texts).toList = '|' :: (widths.zip texts).flatMap columnChars := by
  unfold columnChars
  simp [row, pad, String.toList_join, List.flatMap_map]

/-- The words of a row are the cells, with bars around and between them. -/
theorem words_row {columns : List (Nat × String)} (h : ∀ column ∈ columns, IsCell column.2) :
    Split.words ' ' ('|' :: columns.flatMap columnChars) =
      ['|'] :: columns.flatMap fun column => [column.2.toList, ['|']] := by
  induction columns with
  | nil => rfl
  | cons column columns ih =>
      obtain ⟨hcolumn, hcolumns⟩ := List.forall_mem_cons.mp h
      have hword : Split.words ' ' column.2.toList = [column.2.toList] :=
        Split.words_of_notMem hcolumn.blank_notMem hcolumn.ne_empty
      have hbar : Split.words ' ' ['|'] = [['|']] := rfl
      rw [List.flatMap_cons, columnChars, List.cons_append, ← List.singleton_append,
        Split.words_append_cons, List.append_assoc, List.cons_append, List.singleton_append,
        Split.words_append_cons, Split.words_append_replicate, ih hcolumns, hword, hbar]
      rfl

/-- The cells of a row are found again. -/
theorem cells_row {widths : List Nat} {texts : List String} (hlength : widths.length = texts.length)
    (h : ∀ s ∈ texts, IsCell s) : cells (row widths texts).toList = texts := by
  have hcolumns : ∀ column ∈ widths.zip texts, IsCell column.2 := fun column hcolumn =>
    h column.2 (List.of_mem_zip hcolumn).2
  have hkept : ∀ column ∈ widths.zip texts,
      [column.2.toList, ['|']].filter (· != ['|']) = [column.2.toList] := by
    intro column hcolumn
    simp [(hcolumns column hcolumn).ne_bar]
  have hmap : ((widths.zip texts).map fun column => column.2.toList) = texts.map String.toList := by
    calc ((widths.zip texts).map fun column => column.2.toList)
        = ((widths.zip texts).map Prod.snd).map String.toList := by
          rw [List.map_map]; rfl
      _ = texts.map String.toList := by rw [List.map_snd_zip (Nat.le_of_eq hlength.symm)]
  rw [cells, toList_row, words_row hcolumns, List.filter_cons_of_neg (by simp), List.filter_flatMap,
    List.flatMap_congr hkept, ← List.map_eq_flatMap, hmap, List.map_map]
  simp

/-- A row holds blanks, bars and the characters of its cells. -/
theorem forall_mem_row {p : Char → Prop} (hblank : p ' ') (hbar : p '|') (widths : List Nat)
    {texts : List String} (h : ∀ s ∈ texts, ∀ c ∈ s.toList, p c) :
    ∀ c ∈ (row widths texts).toList, p c := by
  intro c hc
  rw [toList_row, List.mem_cons, List.mem_flatMap] at hc
  obtain rfl | ⟨column, hcolumn, hc⟩ := hc
  · exact hbar
  · have hcell := h column.2 (List.of_mem_zip hcolumn).2
    simp only [columnChars, List.mem_cons, List.mem_append, List.mem_replicate, List.not_mem_nil,
      or_false] at hc
    obtain rfl | (hc | ⟨-, rfl⟩) | rfl | rfl := hc
    exacts [hblank, hcell c hc, hblank, hblank, hbar]

/-- The characters of the line of dashes. -/
theorem toList_rule (widths : List Nat) :
    (rule widths).toList =
      '|' :: widths.flatMap fun width => List.replicate (width + 2) '-' ++ ['|'] := by
  simp [rule, String.toList_join, List.flatMap_map]

/-- The lines of a table hold the characters of the headers, the two letters, and three more. -/
theorem forall_mem_lines {p : Char → Prop} (hmarks : ∀ c ∈ [' ', '|', '-', 'T', 'F'], p c)
    {headers : List String} (values : List Bool) (h : ∀ s ∈ headers, ∀ c ∈ s.toList, p c) :
    ∀ line ∈ lines headers values, ∀ c ∈ line.toList, p c := by
  have hrow := fun texts => @forall_mem_row p (hmarks ' ' (by decide)) (hmarks '|' (by decide))
    (headers.map String.length) texts
  have hletter : ∀ (b : Bool), ∀ c ∈ (Model.letter b).toList, p c := by
    intro b c hc
    exact hmarks c (by cases b <;> simp_all [Model.letter])
  intro line hline
  rw [lines, List.mem_cons, List.mem_cons, List.mem_map] at hline
  obtain rfl | rfl | ⟨entry, -, rfl⟩ := hline
  · exact hrow headers h
  · intro c hc
    refine hmarks c ?_
    rw [toList_rule] at hc
    simp only [List.mem_cons, List.mem_flatMap, List.mem_append, List.mem_replicate] at hc ⊢
    tauto
  · refine hrow _ fun s hs => ?_
    rw [assignment, List.mem_append, List.mem_map, List.mem_singleton] at hs
    obtain ⟨i, -, rfl⟩ | rfl := hs
    exacts [hletter _, hletter _]

/-- The lines of a text that ends with a line end are read one after the other. -/
theorem read_intercalate {texts : List String}
    (h : ∀ s ∈ texts, '\n' ∉ s.toList ∧ s.toList ≠ []) :
    read ("\n".intercalate texts ++ "\n") = texts.map fun s => cells s.toList := by
  have hchars : ("\n".intercalate texts ++ "\n").toList =
      ['\n'].intercalate (texts.map String.toList) ++ ['\n'] := by
    rw [String.toList_append, String.toList_intercalate]
    rfl
  rw [read, hchars, Split.words_append_cons, Split.words_nil, List.append_nil,
    Split.words_intercalate (List.forall_mem_map.mpr h), List.map_map]
  rfl

/-- The cells of the row of a model can all be read back. -/
theorem isCell_of_mem_assignment {count number : Nat} {value : Bool} :
    ∀ s ∈ assignment count number ++ [Model.letter value], IsCell s := by
  intro s hs
  rcases List.mem_append.mp hs with hs | hs
  · obtain ⟨i, -, rfl⟩ := List.mem_map.mp hs
    exact isCell_letter _
  · rw [List.mem_singleton.mp hs]
    exact isCell_letter value

/-- Every line of a table is one line, and none is empty. -/
theorem line_of_mem_lines {headers : List String} {values : List Bool}
    (h : ∀ s ∈ headers, IsCell s) :
    ∀ s ∈ lines headers values, '\n' ∉ s.toList ∧ s.toList ≠ [] := by
  intro s hs
  constructor
  · have hheaders : ∀ s ∈ headers, ∀ c ∈ s.toList, c ≠ '\n' := fun s hs c hc hnewline =>
      (h s hs).newline_notMem (hnewline ▸ hc)
    exact fun hmem => forall_mem_lines (by simp) values hheaders s hs '\n' hmem rfl
  · rw [lines, List.mem_cons, List.mem_cons, List.mem_map] at hs
    obtain rfl | rfl | ⟨entry, -, rfl⟩ := hs <;> simp [toList_row, toList_rule]

/-- The values that a model gives are the digits of its number. -/
theorem assignment_eq (vars : List String) (number : Nat) :
    assignment vars.length number =
      (Enumeration.modelOf vars number).entries.map fun entry => Model.letter entry.2 := by
  refine List.ext_getElem? fun k => ?_
  have hentry : (Enumeration.modelOf vars number).entries[k]? = _ :=
    Enumeration.getElem?_entriesAt vars.length number 0 vars k
  rw [List.getElem?_map, hentry, assignment, List.getElem?_map]
  by_cases hk : k < vars.length
  · simp [hk]
  · simp [hk]

/-- **The cells of a table are found again**: the headers and, below a line of dashes, for each
model the values that it gives and the value in it. -/
theorem exists_read_lines {vars : List String} {text : String} (values : List Bool)
    (h : ∀ s ∈ vars ++ [text], IsCell s) :
    ∃ dashes, read ("\n".intercalate (lines (vars ++ [text]) values) ++ "\n") =
      (vars ++ [text]) :: dashes :: values.zipIdx.map fun (value, number) =>
        ((Enumeration.modelOf vars number).entries.map fun entry => Model.letter entry.2) ++
          [Model.letter value] := by
  have hcount : (vars ++ [text]).length - 1 = vars.length := by simp
  have hrow : ∀ entry ∈ values.zipIdx,
      cells (row ((vars ++ [text]).map String.length)
          (assignment vars.length entry.2 ++ [Model.letter entry.1])).toList =
        ((Enumeration.modelOf vars entry.2).entries.map fun entry => Model.letter entry.2) ++
          [Model.letter entry.1] := by
    intro entry _
    rw [cells_row _ isCell_of_mem_assignment, assignment_eq]
    simp [assignment]
  refine ⟨cells (rule ((vars ++ [text]).map String.length)).toList, ?_⟩
  rw [read_intercalate (line_of_mem_lines h), lines, List.map_cons, List.map_cons, List.map_map,
    cells_row (List.length_map _) h, hcount]
  exact congrArg ((vars ++ [text]) :: _ :: ·) (List.map_congr_left hrow)

end Table

/-! ### Headers -/

namespace Formula

/-- Formulas are written without blanks and control characters, and each character is one byte. -/
theorem WellFormed.printable_text {f : Formula} (hf : f.WellFormed) :
    ∀ c ∈ f.text.toList, ' ' < c ∧ c.val ≤ 127 := by
  rw [toList_text]
  exact Token.printable_of_mem_chars ((wellFormed_standardTokens f).mpr hf)

/-- A formula is not written as a bar, and not as nothing. -/
theorem WellFormed.toList_text_ne {f : Formula} (hf : f.WellFormed) :
    f.text.toList ≠ [] ∧ f.text.toList ≠ ['|'] := by
  rw [text_eq]
  cases f with
  | var name =>
      obtain ⟨letter, digits, rfl, hletter, -⟩ := isVariable_iff.mp hf
      rw [standardForm, String.toList_ofList]
      refine ⟨List.cons_ne_nil letter digits, fun hbar => ?_⟩
      obtain ⟨rfl, -⟩ := List.cons_eq_cons.mp hbar
      exact absurd hletter (by decide)
  | const value => cases value <;> decide
  | not f => simp [standardForm]
  | binary c f g => simp [standardForm]

/-- The text of a formula can stand in a cell. -/
theorem WellFormed.isCell_text {f : Formula} (hf : f.WellFormed) : Table.IsCell f.text where
  ne_empty := hf.toList_text_ne.1
  ne_bar := hf.toList_text_ne.2
  blank_notMem h := absurd (hf.printable_text ' ' h).1 (by decide)
  newline_notMem h := absurd (hf.printable_text '\n' h).1 (by decide)

end Formula

/-- The name of a variable can too. -/
theorem isCell_of_isVariable {name : String} (h : isVariable name = true) : Table.IsCell name := by
  have hcell := Formula.WellFormed.isCell_text (f := .var name) h
  rwa [Formula.text_eq] at hcell

/-- It is also written without blanks and control characters. -/
theorem printable_of_isVariable {name : String} (h : isVariable name = true) :
    ∀ c ∈ name.toList, ' ' < c ∧ c.val ≤ 127 := by
  have hname := Formula.WellFormed.printable_text (f := .var name) h
  rwa [Formula.text_eq] at hname

end Propositional

import Propositional.Proofs.Semantics.ModelOrder
import Propositional.Proofs.Semantics.RenderedTables
import Propositional.Proofs.Semantics.TruthTables

/-!
# The Columns of a Rendered Table

The last header of a table is a formula, which may hold bars, so a line cannot be cut at these. But
every column keeps to the width of its header (`Table.Fits`), so all lines are of one length, and
the places where the cells start are the same in each of them and can be computed from the widths
(`Table.starts`). What stands at these places are the first characters of the cells, and below the
line of dashes these are the letters of the values (`Table.readRow_row`).

A row takes the values of its variables from the digits of its number, without regard to models.
These are the values that the model with this number gives (`Enumeration.map_get?_modelOf`).

## Main definitions

* `Table.linesOf`, `Table.starts`, `Table.readRow`: the lines of a text, where the cells of a line
  start, and the values that are read there.
* `Table.Fits`: no cell is empty or wider than its column.
* `Table.IsAligned`: what the lines of a table have in common, and what the first two are.

## Main results

* `Table.Fits.map_starts`: a cell starts where the widths of the columns before it say.
* `Table.isAligned_lines`: all lines of a table are of one length.
* `Formula.rendered_table_reads_back`: models and values are read off the table of a formula.
-/

namespace Propositional

namespace Table

/-! ### Reading by columns -/

/-- The lines of a text, without the line ends between them. -/
def linesOf (text : String) : List (List Char) :=
  Split.all '\n' text.toList

/-- Where the cells of a line start, the first one at `start`: a cell is followed by a blank, a bar,
and the blank of the next one. -/
def starts (start : Nat) : List Nat → List Nat
  | [] => []
  | width :: widths => start :: starts (start + width + 3) widths

/-- The truth value with the given letter. -/
def valueOf? : Char → Option Bool
  | 'T' => some true
  | 'F' => some false
  | _ => none

/-- The values whose letters stand first in the cells of a line. -/
def readRow (widths : List Nat) (cs : List Char) : List (Option Bool) :=
  (starts 2 widths).map fun place => cs[place]?.bind valueOf?

/-- What is read where a letter stands is its value. -/
theorem valueOf?_letter (value : Bool) :
    (Model.letter value).toList.head?.bind valueOf? = some value := by
  cases value <;> rfl

/-- The lines of a text that does not end with a line end are found again. -/
theorem linesOf_intercalate {texts : List String} (h : ∀ s ∈ texts, '\n' ∉ s.toList)
    (hne : texts ≠ []) : linesOf ("\n".intercalate texts) = texts.map String.toList := by
  have hchars : ("\n".intercalate texts).toList = ['\n'].intercalate (texts.map String.toList) :=
    String.toList_intercalate
  rw [linesOf, Split.all_eq_splitOn, hchars, List.splitOn_intercalate '\n' (by simpa using h)]
  simpa using hne

/-- After a line end there is one more line. -/
theorem getLast?_ne_newline {text : String} (h : [] ∉ linesOf text) :
    text.toList.getLast? ≠ some '\n' := by
  intro hlast
  obtain ⟨front, hfront⟩ := List.getLast?_eq_some_iff.mp hlast
  rw [linesOf, Split.all_eq_splitOn, hfront, List.splitOn_append_cons_self] at h
  exact h (List.mem_append_right _ (List.mem_singleton_self []))

/-! ### Cells in columns -/

/-- There is a cell for each column, and it is neither empty nor wider than the column. -/
def Fits (widths : List Nat) (texts : List String) : Prop :=
  List.Forall₂ (fun width s => s.toList ≠ [] ∧ s.length ≤ width) widths texts

/-- Headers fit, since the columns are as wide as these. -/
theorem fits_headers {headers : List String} (h : ∀ s ∈ headers, IsCell s) :
    Fits (headers.map String.length) headers := by
  rw [Fits, List.forall₂_map_left_iff, List.forall₂_same]
  exact fun s hs => ⟨(h s hs).ne_empty, Nat.le_refl _⟩

/-- So do letters, since no header is empty. -/
theorem fits_letters {headers : List String} (h : ∀ s ∈ headers, IsCell s) {values : List Bool}
    (hlength : headers.length = values.length) :
    Fits (headers.map String.length) (values.map Model.letter) := by
  rw [Fits, List.forall₂_map_left_iff, List.forall₂_map_right_iff, List.forall₂_iff_zip]
  refine ⟨hlength, fun {header value} hmem => ⟨(isCell_letter value).ne_empty, ?_⟩⟩
  have hone : (Model.letter value).length = 1 := by cases value <;> rfl
  rw [hone, ← String.length_toList]
  exact List.length_pos_of_ne_nil (h header (List.of_mem_zip hmem).1).ne_empty

/-- A cell that fits takes three characters more than the width of its column. -/
theorem length_columnChars {width : Nat} {s : String} (h : s.length ≤ width) :
    (columnChars (width, s)).length = width + 3 := by
  simp only [columnChars, List.length_cons, List.length_append, List.length_replicate,
    String.length_toList, List.length_nil]
  omega

/-- **All rows are of one length.** -/
theorem Fits.length_row {widths : List Nat} {texts : List String} (h : Fits widths texts) :
    (row widths texts).toList.length = (widths.map (· + 3)).sum + 1 := by
  rw [toList_row, List.length_cons, Nat.add_right_cancel_iff]
  induction h with
  | nil => rfl
  | cons hcell _ ih =>
      rw [List.zip_cons_cons, List.flatMap_cons, List.length_append, length_columnChars hcell.2, ih,
        List.map_cons, List.sum_cons]

/-- So is the line of dashes. -/
theorem length_rule (widths : List Nat) :
    (rule widths).toList.length = (widths.map (· + 3)).sum + 1 := by
  rw [toList_rule, List.length_cons, Nat.add_right_cancel_iff]
  induction widths with
  | nil => rfl
  | cons width widths ih =>
      rw [List.flatMap_cons, List.length_append, List.length_append, List.length_replicate, ih,
        List.map_cons, List.sum_cons]
      rfl

/-- **A cell starts where the widths of the columns before it say**, whatever they hold. -/
theorem Fits.map_starts {widths : List Nat} {texts : List String} (h : Fits widths texts)
    (before : List Char) :
    (starts (before.length + 1) widths).map
        (fun place => (before ++ (widths.zip texts).flatMap columnChars)[place]?) =
      texts.map fun s => s.toList.head? := by
  induction h generalizing before with
  | nil => rfl
  | @cons width s widths texts hcell _ ih =>
      obtain ⟨first, rest, hs⟩ := List.exists_cons_of_ne_nil hcell.1
      -- the next cell starts behind this column, as the induction hypothesis has it
      have hlength : before.length + 1 + width + 3 =
          (before ++ columnChars (width, s)).length + 1 := by
        rw [List.length_append, length_columnChars hcell.2]
        omega
      rw [List.zip_cons_cons, List.flatMap_cons, starts, List.map_cons, List.map_cons, hlength,
        ← List.append_assoc, ih]
      simp [columnChars, hs]

/-- **The values are read off a row**, if the cells are their letters. -/
theorem readRow_row {widths : List Nat} {values : List Bool}
    (h : Fits widths (values.map Model.letter)) :
    readRow widths (row widths (values.map Model.letter)).toList = values.map some := by
  have hstarts := congrArg (List.map (·.bind valueOf?)) (h.map_starts ['|'])
  simp only [List.map_map, Function.comp_def, valueOf?_letter] at hstarts
  rw [readRow, toList_row]
  exact hstarts

/-! ### The lines of a table -/

/-- The headers as they stand in the first line, each of which fills its column. -/
theorem toList_row_headers (headers : List String) :
    (row (headers.map String.length) headers).toList =
      '|' :: headers.flatMap fun header => ' ' :: (header.toList ++ [' ', '|']) := by
  have hzip : (headers.map String.length).zip headers = headers.map fun s => (s.length, s) := by
    rw [← List.zip_map', List.map_id']
  rw [toList_row, hzip, List.flatMap_map]
  simp only [columnChars, Nat.sub_self, List.replicate_zero, List.append_nil]

/-- What the cells of the row of a model stand for. -/
theorem assignment_append_letter (count number : Nat) (value : Bool) :
    assignment count number ++ [Model.letter value] =
      ((List.range count).map (bit count number) ++ [value]).map Model.letter := by
  rw [assignment, List.map_append, List.map_map]
  rfl

/-- The lines of a table are of one length, and the first two are as they should be. -/
structure IsAligned (headers : List String) (lines : List (List Char)) : Prop where
  /-- Every character is a single byte. -/
  ascii : ∀ line ∈ lines, ∀ c ∈ line, c.val ≤ 127
  length_eq : ∀ line ∈ lines, line.length = ((headers.map String.length).map (· + 3)).sum + 1
  /-- The first line holds the headers. -/
  header : lines[0]? =
    some ('|' :: headers.flatMap fun header => ' ' :: (header.toList ++ [' ', '|']))
  /-- A column of width `w` has `w + 2` dashes. -/
  rule : lines[1]? =
    some ('|' :: (headers.map String.length).flatMap fun width =>
      List.replicate (width + 2) '-' ++ ['|'])

section

variable {vars : List String} {text : String} (values : List Bool)
  (h : ∀ s ∈ vars ++ [text], IsCell s)

include h

/-- The cells of the row of a model fit. -/
theorem fits_assignment (number : Nat) (value : Bool) :
    Fits ((vars ++ [text]).map String.length)
      (((List.range vars.length).map (bit vars.length number) ++ [value]).map Model.letter) :=
  fits_letters h (by simp)

/-- **The lines of a table are aligned.** -/
theorem isAligned_lines (hascii : ∀ s ∈ vars ++ [text], ∀ c ∈ s.toList, c.val ≤ 127) :
    IsAligned (vars ++ [text]) ((lines (vars ++ [text]) values).map String.toList) where
  ascii := List.forall_mem_map.mpr (forall_mem_lines (by simp) values hascii)
  length_eq := by
    have hcount : (vars ++ [text]).length - 1 = vars.length := by simp
    refine List.forall_mem_map.mpr fun line hline => ?_
    rw [lines, hcount, List.mem_cons, List.mem_cons, List.mem_map] at hline
    obtain rfl | rfl | ⟨entry, -, rfl⟩ := hline
    · exact (fits_headers h).length_row
    · exact length_rule _
    · have hfits := fits_assignment h entry.2 entry.1
      rw [← assignment_append_letter] at hfits
      exact hfits.length_row
  header := congrArg some (toList_row_headers _)
  rule := congrArg some (toList_rule _)

/-- **Each row is read back**, below the first two lines. -/
theorem exists_readRow_lines {i : Nat} {value : Bool} (hvalue : values[i]? = some value) :
    ∃ line, ((lines (vars ++ [text]) values).map String.toList)[2 + i]? = some line ∧
      readRow ((vars ++ [text]).map String.length) line =
        ((List.range vars.length).map (bit vars.length i) ++ [value]).map some := by
  have hcount : (vars ++ [text]).length - 1 = vars.length := by simp
  refine ⟨_, ?_, readRow_row (fits_assignment h i value)⟩
  rw [List.getElem?_map, lines, hcount, Nat.add_comm, List.getElem?_cons_succ,
    List.getElem?_cons_succ, List.getElem?_map, List.getElem?_zipIdx, hvalue, Nat.zero_add,
    ← assignment_append_letter]
  rfl

end

end Table

/-- The values that a model gives to its variables are the digits of its number. -/
theorem Enumeration.map_get?_modelOf {vars : List String} (hnodup : vars.Nodup) (number : Nat) :
    vars.map (modelOf vars number).get? =
      ((List.range vars.length).map (bit vars.length number)).map some := by
  rw [List.map_map]
  refine List.ext_getElem? fun k => ?_
  rw [List.getElem?_map, List.getElem?_map]
  rcases Nat.lt_or_ge k vars.length with hk | hk
  · have hname : vars[k]? = some vars[k] := List.getElem?_eq_getElem hk
    rw [hname, List.getElem?_range hk, Option.map_some, get?_modelOf hnodup number hname]
    rfl
  · rw [List.getElem?_eq_none hk, List.getElem?_eq_none (by rwa [List.length_range])]
    rfl

namespace Formula

variable {f : Formula}

/-- The headers of the table of a formula can all stand in a cell. -/
theorem WellFormed.isCell_headers (hf : f.WellFormed) :
    ∀ s ∈ f.vars ++ [f.text], Table.IsCell s := by
  rw [List.forall_mem_append, List.forall_mem_singleton]
  exact ⟨fun x hx => isCell_of_isVariable (hf.isVariable_of_mem_vars x hx), hf.isCell_text⟩

/-- Every character of a header is a single byte. -/
theorem WellFormed.ascii_headers (hf : f.WellFormed) :
    ∀ s ∈ f.vars ++ [f.text], ∀ c ∈ s.toList, c.val ≤ 127 := by
  rw [List.forall_mem_append, List.forall_mem_singleton]
  constructor
  · exact fun x hx c hc => (printable_of_isVariable (hf.isVariable_of_mem_vars x hx) c hc).2
  · exact fun c hc => (hf.printable_text c hc).2

/-- **The models and the values of a formula are read off its table.** A formula with `n < 64`
variables has a table, whatever workers are asked for, and the table is a text of `2 + 2ⁿ` lines
with no line end after the last one. All lines are of one length. The first line holds the variables
in ascending order and then the formula, each of which is as wide as its column, and the second one
holds dashes. What stands at the start of the cells in the line with the number `2 + i` are the
letters of the values that the model with the number `i` gives to the variables, and of the value of
the formula that the truth table has for it. -/
theorem rendered_table_reads_back (hf : f.WellFormed) (config : PoolConfig)
    (hfew : f.vars.length < 64) :
    ∃ text models values, f.renderTruthTable config = .ok text ∧
      Enumeration.ofVariables f.vars = .ok models ∧ f.truthTable config = .ok values ∧
      text.toList.getLast? ≠ some '\n' ∧ (Table.linesOf text).length = 2 + 2 ^ f.vars.length ∧
      f.vars.Pairwise (fun x y => bytes x < bytes y) ∧
      Table.IsAligned (f.vars ++ [f.text]) (Table.linesOf text) ∧
      ∀ i < 2 ^ f.vars.length, ∃ m value line, models.rest[i]? = some m ∧ m.vars = f.vars ∧
        values[i]? = some value ∧ (Table.linesOf text)[2 + i]? = some line ∧
        Table.readRow ((f.vars ++ [f.text]).map String.length) line =
          f.vars.map m.get? ++ [some value] := by
  obtain ⟨values, htable, hcount⟩ : ∃ values, f.truthTable config = .ok values ∧
      values.length = 2 ^ f.vars.length :=
    ⟨_, truthTable_eq_ok config hfew, by rw [List.length_map, List.length_range]⟩
  have hline := @Table.line_of_mem_lines _ values hf.isCell_headers
  have hlines := Table.linesOf_intercalate (fun s hs => (hline s hs).1) (List.cons_ne_nil _ _)
  refine ⟨_, .start f.vars, values, by rw [renderTruthTable, htable]; rfl,
    Enumeration.ofVariables_eq_ok hf.isVariable_of_mem_vars f.nodup_vars hfew, htable, ?_, ?_,
    f.sorted_vars.imp lt_iff_bytes_lt.mp, ?_, fun i hi => ?_⟩
  · refine Table.getLast?_ne_newline ?_
    rw [hlines, List.mem_map]
    rintro ⟨s, hs, hnil⟩
    exact (hline s hs).2 hnil
  · rw [hlines, List.length_map, Table.lines, List.length_cons, List.length_cons, List.length_map,
      List.length_zipIdx, hcount, Nat.add_comm 2]
  · rw [hlines]
    exact Table.isAligned_lines values hf.isCell_headers hf.ascii_headers
  · have hbound : i < values.length := by rwa [hcount]
    have hvalue : values[i]? = some values[i] := List.getElem?_eq_getElem hbound
    obtain ⟨line, hmem, hread⟩ := Table.exists_readRow_lines values hf.isCell_headers hvalue
    refine ⟨Enumeration.modelOf f.vars i, _, line, ?_, Enumeration.vars_modelOf f.vars i, hvalue,
      hlines ▸ hmem, ?_⟩
    · rw [Enumeration.getElem?_rest_start]
      exact Enumeration.modelAt?_start hi
    · rw [hread, List.map_append, Enumeration.map_get?_modelOf f.nodup_vars]
      rfl

/-- The row with the number 1 in the table of `(p|q7)`, whose last header holds a bar, is that of
the model that gives `F` to `p` and `T` to `q7`, in which the formula has the value `T`. -/
theorem rendered_table_reads_back_disjunction :
    ∃ text line, (binary .or (var "p") (var "q7")).renderTruthTable ⟨4, 0⟩ = .ok text ∧
      (Table.linesOf text).length = 6 ∧
      (Table.linesOf text)[0]? = some "| p | q7 | (p|q7) |".toList ∧
      (Table.linesOf text)[3]? = some line ∧
      Table.readRow [1, 2, 6] line = [some false, some true, some true] := by
  have hp : isVariable "p" = true := by decide
  have hq : isVariable "q7" = true := by decide
  have hvars : (binary .or (var "p") (var "q7")).vars = ["p", "q7"] := by decide
  have htext : (binary .or (var "p") (var "q7")).text = "(p|q7)" := by rw [text_eq]; decide
  obtain ⟨text, models, values, hrender, hmodels, hvalues, -, hcount, -, haligned, hrows⟩ :=
    @rendered_table_reads_back (binary .or (var "p") (var "q7")) ⟨hp, hq⟩ ⟨4, 0⟩ (by decide)
  obtain ⟨m, value, line, hm, -, hvalue, hline, hread⟩ := hrows 1 (by decide)
  have hheader := haligned.header
  rw [hvars, htext] at hheader hread
  rw [hvars] at hmodels
  obtain rfl := Except.ok.inj
    ((truthTable_eq_ok ⟨4, 0⟩ (by decide)).symm.trans hvalues)
  obtain rfl : true = value := Option.some.inj hvalue
  obtain rfl := Except.ok.inj
    ((Enumeration.ofVariables_eq_ok (by decide) (by decide) (by decide)).symm.trans hmodels)
  obtain rfl : Enumeration.modelOf ["p", "q7"] 1 = m := Option.some.inj hm
  exact ⟨text, line, hrender, hcount, hheader, hline, hread⟩

end Formula

end Propositional

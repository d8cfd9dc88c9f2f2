import Mathlib.Data.List.Basic
import Propositional.Proofs.Text.StandardNotation

/-!
# The Longest Formula at the Start of a Text

Where a text begins with a formula, in standard notation, `parsePrefix` returns the
longest one. There is hardly a choice: a formula that begins with `~` or `(` ends where
its last operand or its parenthesis does, and only a variable name can be read further.
So of two formulas of which one begins with the other, the longer one has more digits in
the variable name at its end (`Formula.text_appendToLast`), and is otherwise the same.

The name at the end is found by recursion (`Formula.lastName?`): a variable ends with
itself, a negation like its operand, and nothing else ends with a name. What follows the
formula matters only if there is such a name, and then only whether it begins with a
digit (`parsePrefix_eq_ok_iff`).

## Main results

* `parsePrefix_eq_ok_iff`: `parsePrefix` returns `f` exactly for the texts that begin with
  the text of `f` and do not go on with a digit after a name.
* `exists_parsePrefix_append`: whatever follows the text of a formula, that formula is
  read, or the one with more digits.
* `begins_of_parsePrefix`: no formula at the start of the text is longer than the one read.
* `exists_digits_of_begins`: how one formula can begin with another one.
* `parsePrefix_longest`: the longest formula at the start of a text is read.
-/

namespace Propositional

/-! ### Names and their characters -/

/-- The characters of variable names. -/
def isNameChar (c : Char) : Bool :=
  isVariableLetter c || c.isDigit

/-- A variable name consists of such characters. -/
theorem isNameChar_of_mem {name : String} (h : isVariable name = true) :
    ∀ c ∈ name.toList, isNameChar c = true := by
  obtain ⟨letter, digits, rfl, hletter, hdigits⟩ := isVariable_iff.mp h
  rw [String.toList_ofList, List.forall_mem_cons]
  refine ⟨by simp [isNameChar, hletter], fun d hd => ?_⟩
  simp [isNameChar, hdigits d hd]

/-- A variable name has a last character. -/
theorem toList_ne_nil_of_isVariable {name : String} (h : isVariable name = true) :
    name.toList ≠ [] := by
  obtain ⟨letter, digits, rfl, -, -⟩ := isVariable_iff.mp h
  simp

/-- A variable name stays one if digits are put after it, and nothing else. -/
theorem isVariable_append_iff {name more : String} (h : isVariable name = true) :
    isVariable (name ++ more) = true ↔ ∀ d ∈ more.toList, d.isDigit = true := by
  obtain ⟨letter, digits, rfl, hletter, hdigits⟩ := isVariable_iff.mp h
  have hall : digits.all Char.isDigit = true := List.all_eq_true.mpr hdigits
  simp [isVariable, hletter, hall]

/-- The text ends with a variable name. -/
def EndsInVariable (s : String) : Prop :=
  ∃ before name, isVariable name = true ∧ s = before ++ name

/-- The last character of such a text is one of a name. -/
theorem EndsInVariable.isNameChar_getLast {s : String} (h : EndsInVariable s) :
    ∀ c ∈ s.toList.getLast?, isNameChar c = true := by
  obtain ⟨before, name, hname, rfl⟩ := h
  rw [String.toList_append, List.getLast?_append_of_ne_nil _ (toList_ne_nil_of_isVariable hname)]
  exact fun c hc => isNameChar_of_mem hname c (List.mem_of_getLast? hc)

namespace Formula

/-! ### The name at the end of a formula -/

/-- The variable name with which the text of the formula ends, if it does. -/
def lastName? : Formula → Option String
  | var name => some name
  | const _ => none
  | not f => f.lastName?
  | binary _ _ _ => none

/-- The formula in which more characters follow the name at the end. -/
def appendToLast (more : String) : Formula → Formula
  | var name => var (name ++ more)
  | const value => const value
  | not f => not (f.appendToLast more)
  | binary c f g => binary c f g

/-- A formula is written with at least one token. -/
theorem standardTokens_ne_nil (f : Formula) : f.standardTokens ≠ [] := by
  cases f <;> simp [standardTokens]

/-- The last token of a formula ends before a text unless it is a name and the text begins
with a digit. -/
theorem endsBefore_getLast_iff (f : Formula) (rest : List Char) :
    (∀ t ∈ f.standardTokens.getLast?, t.EndsBefore rest) ↔
      ∀ name ∈ f.lastName?, NoDigitAhead rest := by
  induction f with
  | var name => simp [standardTokens, lastName?, Token.EndsBefore]
  | const value => simp [standardTokens, lastName?, Token.EndsBefore]
  | not f ih =>
      have hlast : (not f).standardTokens.getLast? = f.standardTokens.getLast? := by
        rw [standardTokens, ← List.singleton_append,
          List.getLast?_append_of_ne_nil _ f.standardTokens_ne_nil]
      rw [hlast, ih, lastName?]
  | binary c f g =>
      have hlast : (binary c f g).standardTokens.getLast? = some .closeParen :=
        List.getLast?_concat
      simp [hlast, lastName?, Token.EndsBefore]

/-- The text of a formula with a name at the end, and the text with more characters
there. -/
theorem exists_text_appendToLast {f : Formula} {name : String} (h : f.lastName? = some name) :
    ∃ before, f.text = before ++ name ∧
      ∀ more, (f.appendToLast more).text = before ++ (name ++ more) := by
  simp only [text_eq]
  induction f with
  | var x =>
      obtain rfl := Option.some.inj h
      exact ⟨"", by simp [standardForm], by simp [standardForm, appendToLast]⟩
  | const value => cases h
  | not f ih =>
      obtain ⟨before, htext, hmore⟩ := ih h
      refine ⟨"~" ++ before, ?_, fun more => ?_⟩
      · rw [standardForm, htext, String.append_assoc]
      · rw [appendToLast, standardForm, hmore, String.append_assoc]
  | binary c f g => cases h

/-- More characters after the name at the end are so in the text. -/
theorem text_appendToLast {f : Formula} {name : String} (h : f.lastName? = some name)
    (more : String) : (f.appendToLast more).text = f.text ++ more := by
  obtain ⟨before, htext, hmore⟩ := exists_text_appendToLast h
  rw [hmore, htext, String.append_assoc]

/-- The name at the end of a well-formed formula is a valid one. -/
theorem WellFormed.isVariable_of_lastName? {f : Formula} (hf : f.WellFormed) {name : String}
    (h : f.lastName? = some name) : isVariable name = true := by
  induction f with
  | var x =>
      obtain rfl := Option.some.inj h
      exact hf
  | const value => cases h
  | not f ih => exact ih hf h
  | binary c f g => cases h

/-- Digits after the name at the end leave the formula well-formed. -/
theorem WellFormed.appendToLast {f : Formula} (hf : f.WellFormed) {digits : String}
    (h : ∀ d ∈ digits.toList, d.isDigit = true) : (f.appendToLast digits).WellFormed := by
  induction f with
  | var name => exact (isVariable_append_iff hf).mpr h
  | const value => exact trivial
  | not f ih => exact ih hf
  | binary c f g => exact hf

/-- A formula that ends otherwise does not end with a character of a name. -/
theorem getLast?_text_of_lastName? {f : Formula} (h : f.lastName? = none) :
    ∃ c, f.text.toList.getLast? = some c ∧ isNameChar c = false := by
  rw [text_eq]
  induction f with
  | var name => cases h
  | const value => cases value <;> exact ⟨_, rfl, by decide⟩
  | not f ih =>
      obtain ⟨c, hlast, hc⟩ := ih h
      refine ⟨c, ?_, hc⟩
      rw [standardForm, String.toList_append, List.getLast?_append, hlast]
      rfl
  | binary c f g =>
      refine ⟨')', ?_, by decide⟩
      rw [standardForm, String.toList_append]
      exact List.getLast?_concat

/-- **The text of a formula ends with a variable name iff the recursion finds one.** -/
theorem endsInVariable_text_iff {f : Formula} (hf : f.WellFormed) :
    EndsInVariable f.text ↔ ∃ name, f.lastName? = some name := by
  constructor
  · intro h
    rw [← Option.ne_none_iff_exists']
    intro hnone
    obtain ⟨c, hlast, hc⟩ := getLast?_text_of_lastName? hnone
    rw [h.isNameChar_getLast c hlast] at hc
    cases hc
  · rintro ⟨name, hname⟩
    obtain ⟨before, htext, -⟩ := exists_text_appendToLast hname
    exact ⟨before, name, hf.isVariable_of_lastName? hname, htext⟩

end Formula

/-! ### Reading a formula off the start of a text -/

/-- **A formula is read off the start of a text iff the text is that of the formula with
any rest**, which may not begin with a digit if the formula ends with a name. -/
theorem parsePrefix_eq_ok_iff {s : String} {f : Formula} {rest : String} :
    parsePrefix s = .ok (f, rest) ↔
      f.WellFormed ∧ f.text ++ rest = s ∧ ∀ name ∈ f.lastName?, NoDigitAhead rest.toList := by
  simp only [parsePrefix_eq_front, Reader.front_eq_ok_iff, Standard.reads.run_eq_ok_iff]
  constructor
  · rintro ⟨l', hpass, rfl⟩
    refine ⟨f.wellFormed_standardTokens.mp hpass.wellFormed, ?_, ?_⟩
    · rw [← String.toList_inj, String.toList_append, f.toList_text, Lexer.remaining,
        String.toList_ofList]
      exact hpass.rest_eq.symm
    · rw [Lexer.remaining, String.toList_ofList]
      exact (f.endsBefore_getLast_iff l'.rest).mp hpass.endsBefore
  · rintro ⟨hf, rfl, hends⟩
    refine ⟨⟨1 + (Token.chars f.standardTokens).length, rest.toList⟩, ?_, String.ofList_toList⟩
    rw [Lexer.ofString, String.toList_append, f.toList_text]
    exact .of_append (f.wellFormed_standardTokens.mpr hf)
      ((f.endsBefore_getLast_iff rest.toList).mpr hends) 1

/-- **Whatever follows the text of a formula, that formula is read, or the one that has
the digits that follow in the name at its end.** -/
theorem exists_parsePrefix_append {f : Formula} (hf : f.WellFormed) (t : String) :
    ∃ g digits rest, parsePrefix (f.text ++ t) = .ok (g, rest) ∧ g.text = f.text ++ digits ∧
      t = digits ++ rest ∧ (digits ≠ "" → EndsInVariable f.text) ∧
        ∀ d ∈ digits.toList, d.isDigit = true := by
  cases hlast : f.lastName? with
  | none =>
      refine ⟨f, "", t, parsePrefix_eq_ok_iff.mpr ⟨hf, rfl, ?_⟩, by simp, by simp, by simp, by simp⟩
      simp [hlast]
  | some name =>
      have hdigits : ∀ d ∈ (String.ofList (t.toList.takeWhile Char.isDigit)).toList,
          d.isDigit = true := by
        rw [String.toList_ofList]
        exact List.all_eq_true.mp List.all_takeWhile
      have htext := f.text_appendToLast hlast (String.ofList (t.toList.takeWhile Char.isDigit))
      have hsplit : t = String.ofList (t.toList.takeWhile Char.isDigit) ++
          String.ofList (t.toList.dropWhile Char.isDigit) := by
        rw [← String.ofList_append, List.takeWhile_append_dropWhile, String.ofList_toList]
      refine ⟨f.appendToLast _, _, String.ofList (t.toList.dropWhile Char.isDigit),
        parsePrefix_eq_ok_iff.mpr ⟨hf.appendToLast hdigits, ?_, ?_⟩, htext, hsplit, ?_, hdigits⟩
      · rw [htext, String.append_assoc, ← hsplit]
      · rw [String.toList_ofList]
        exact fun _ _ => noDigitAhead_dropWhile t.toList
      · exact fun _ => (Formula.endsInVariable_text_iff hf).mpr ⟨name, hlast⟩

/-- A text begins with another one iff it is that text with something after it. -/
theorem toList_prefix_iff {u s : String} : u.toList <+: s.toList ↔ ∃ t : String, u ++ t = s := by
  constructor
  · rintro ⟨more, hmore⟩
    exact ⟨String.ofList more, by rw [← String.toList_inj, ← hmore]; simp⟩
  · rintro ⟨t, rfl⟩
    exact ⟨t.toList, String.toList_append.symm⟩

/-- Where a text begins with a formula, a formula is read that is at least as long. -/
theorem exists_parsePrefix_of_begins {u s : String} (hu : StandardText u)
    (h : u.toList <+: s.toList) :
    ∃ f rest, parsePrefix s = .ok (f, rest) ∧ u.toList <+: f.text.toList := by
  obtain ⟨f, hf, rfl⟩ := hu.exists_formula
  obtain ⟨t, rfl⟩ := toList_prefix_iff.mp h
  obtain ⟨g, digits, rest, hread, htext, -⟩ := exists_parsePrefix_append hf t
  exact ⟨g, rest, hread, toList_prefix_iff.mpr ⟨digits, htext.symm⟩⟩

/-- A formula is read off the start of a text iff the text begins with one. -/
theorem isOk_parsePrefix_iff {s : String} :
    (parsePrefix s).isOk = true ↔ ∃ u, StandardText u ∧ u.toList <+: s.toList := by
  constructor
  · intro hok
    cases hread : parsePrefix s with
    | error e =>
        rw [hread] at hok
        cases hok
    | ok read =>
        obtain ⟨hf, htext, -⟩ := parsePrefix_eq_ok_iff.mp hread
        exact ⟨read.1.text, Formula.standardText_text hf, toList_prefix_iff.mpr ⟨read.2, htext⟩⟩
  · rintro ⟨u, hu, hbegins⟩
    obtain ⟨f, rest, hread, -⟩ := exists_parsePrefix_of_begins hu hbegins
    rw [hread]
    rfl

/-- **No formula at the start of a text is longer than the one that is read.** -/
theorem begins_of_parsePrefix {s u rest : String} {f : Formula}
    (hread : parsePrefix s = .ok (f, rest)) (hu : StandardText u) (h : u.toList <+: s.toList) :
    u.toList <+: f.text.toList := by
  obtain ⟨g, rest', hread', hlonger⟩ := exists_parsePrefix_of_begins hu h
  rw [hread] at hread'
  obtain ⟨rfl, -⟩ := Prod.mk.inj (Except.ok.inj hread')
  exact hlonger

/-- A formula is read as it is in front of any text that does not go on with the name at
its end. -/
theorem parsePrefix_append_iff {f : Formula} (hf : f.WellFormed) (t : String) :
    parsePrefix (f.text ++ t) = .ok (f, t) ↔
      ¬ (EndsInVariable f.text ∧ ∃ d ∈ t.toList.head?, '0' ≤ d ∧ d ≤ '9') := by
  have hname : (∀ name ∈ f.lastName?, NoDigitAhead t.toList) ↔
      (EndsInVariable f.text → NoDigitAhead t.toList) := by
    simp only [Formula.endsInVariable_text_iff hf, forall_exists_index, Option.mem_def]
  have hdigit : NoDigitAhead t.toList ↔ ¬ ∃ d ∈ t.toList.head?, '0' ≤ d ∧ d ≤ '9' := by
    simp only [NoDigitAhead, ← isDigit_iff, not_exists, not_and, Bool.not_eq_true]
  rw [parsePrefix_eq_ok_iff, hname, hdigit, not_and]
  simp only [hf, true_and]

/-- **Of two formulas of which one begins with the other, the longer one has more digits in
the name at its end.** -/
theorem exists_digits_of_begins {u v : String} (hu : StandardText u) (hv : StandardText v)
    (h : u.toList <+: v.toList) (hne : u ≠ v) :
    EndsInVariable u ∧ ∃ digits, digits ≠ "" ∧ (∀ d ∈ digits.toList, d.isDigit = true) ∧
      v = u ++ digits := by
  obtain ⟨f, hf, rfl⟩ := hu.exists_formula
  obtain ⟨g, hg, rfl⟩ := hv.exists_formula
  obtain ⟨more, htext⟩ := toList_prefix_iff.mp h
  have hmore : more ≠ "" := by
    rintro rfl
    exact hne (String.append_empty.symm.trans htext)
  obtain ⟨g', digits, rest, hread, -, hsplit, hname, hdigits⟩ := exists_parsePrefix_append hf more
  have hwhole : parsePrefix g.text = .ok (g, "") :=
    parsePrefix_eq_ok_iff.mpr ⟨hg, String.append_empty, fun _ _ => noDigitAhead_nil⟩
  rw [htext, hwhole] at hread
  obtain ⟨-, rfl⟩ := Prod.mk.inj (Except.ok.inj hread)
  obtain rfl : more = digits := hsplit.trans String.append_empty
  exact ⟨hname hmore, more, hmore, hdigits, htext.symm⟩

/-- **The longest formula at the start of a text is read.** A text has a formula read off
its start iff it begins with one; the formula and the rest make up the text, and no
formula at the start of the text is longer. In front of any other text a formula is read
as it is, unless it ends with a variable name and the text begins with a digit. So if one
formula is a proper beginning of another, the other one has more digits in the variable
name at its end. -/
theorem parsePrefix_longest :
    (∀ s : String, (parsePrefix s).isOk = true ↔
        ∃ u, StandardText u ∧ u.toList <+: s.toList) ∧
      (∀ (s : String) (f : Formula) (rest : String), parsePrefix s = .ok (f, rest) →
        f.WellFormed ∧ StandardText f.text ∧ f.text ++ rest = s ∧
          ∀ u, StandardText u → u.toList <+: s.toList → u.toList <+: f.text.toList) ∧
      (∀ f : Formula, f.WellFormed → ∀ t : String,
        parsePrefix (f.text ++ t) = .ok (f, t) ↔
          ¬ (EndsInVariable f.text ∧ ∃ d ∈ t.toList.head?, '0' ≤ d ∧ d ≤ '9')) ∧
      ∀ u v : String, StandardText u → StandardText v → u.toList <+: v.toList → u ≠ v →
        ∃ before name digits, isVariable name = true ∧ digits ≠ "" ∧
          (∀ d ∈ digits.toList, '0' ≤ d ∧ d ≤ '9') ∧
          u = before ++ name ∧ v = before ++ (name ++ digits) := by
  refine ⟨fun s => isOk_parsePrefix_iff, ?_, fun f hf t => parsePrefix_append_iff hf t, ?_⟩
  · intro s f rest hread
    obtain ⟨hf, htext, -⟩ := parsePrefix_eq_ok_iff.mp hread
    exact ⟨hf, Formula.standardText_text hf, htext, fun u => begins_of_parsePrefix hread⟩
  · intro u v hu hv hbegins hne
    obtain ⟨⟨before, name, hname, hbefore⟩, digits, hmore, hdigits, hlonger⟩ :=
      exists_digits_of_begins hu hv hbegins hne
    refine ⟨before, name, digits, hname, hmore, fun d hd => ?_, hbefore, ?_⟩
    · exact isDigit_iff.mp (hdigits d hd)
    · rw [hlonger, hbefore, String.append_assoc]

end Propositional

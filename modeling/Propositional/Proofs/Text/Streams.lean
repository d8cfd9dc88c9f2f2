import Propositional.Proofs.Text.ErrorColumns

/-!
# Streams of Formulas

Texts of formulas that are written one after the other, with nothing between them and in
either notation, are read back one after the other. A parser stops right after the formula
that it was asked for, unless the last token of the formula goes on in what follows
(`Lexer.Passes.of_append`). Only a variable name can go on, with a digit, and no text of a
formula begins with a digit (`TextForm.noDigitAhead_write`). So it does not matter what is
written next, nor in which notation.

## Main results

* `Parser.read_write`: one formula is read in front of any text that does not begin with a
  digit.
* `Parser.readAll_write`: so are many, one after the other.
* `Parser.readAll_stream`: what has been read, what remains and what `expectEnd` answers
  after each of the calls.
-/

namespace Propositional

/-- The two notations. -/
inductive TextForm
  | standard
  | polish
  deriving DecidableEq

namespace TextForm

/-- The text of a formula in the notation. -/
def write : TextForm → Formula → String
  | standard => Formula.text
  | polish => Formula.polish

/-- The tokens of a formula in the notation. -/
def tokens : TextForm → Formula → List Token
  | standard => Formula.standardTokens
  | polish => Formula.polishTokens

/-- The tokens spell the text. -/
theorem spelling (form : TextForm) : Reader.Spelling form.write form.tokens := by
  cases form with
  | standard => exact Formula.spelling_text
  | polish => exact Formula.spelling_polish

/-- The text of a well-formed formula begins with a token. -/
theorem exists_toList_write_eq (form : TextForm) {f : Formula} (hf : f.WellFormed) :
    ∃ t more, Token.WellFormed t ∧ (form.write f).toList = t.text.toList ++ more := by
  have hcons : ∃ t ts, form.tokens f = t :: ts := by
    cases form <;> cases f <;> exact ⟨_, _, rfl⟩
  obtain ⟨t, ts, hcons⟩ := hcons
  have hwf := (form.spelling.wellFormed_iff f).mpr hf
  rw [hcons] at hwf
  refine ⟨t, Token.chars ts, hwf t List.mem_cons_self, ?_⟩
  rw [form.spelling.toList_write, hcons, Token.chars_cons]

/-- The text of a well-formed formula does not begin with a digit, whatever is written after
it. -/
theorem noDigitAhead_write (form : TextForm) {f : Formula} (hf : f.WellFormed)
    (rest : List Char) : NoDigitAhead ((form.write f).toList ++ rest) := by
  obtain ⟨t, more, ht, hwrite⟩ := form.exists_toList_write_eq hf
  rw [hwrite, List.append_assoc]
  exact ht.noDigitAhead _

/-- The text of a well-formed formula is not empty. -/
theorem toList_write_ne_nil (form : TextForm) {f : Formula} (hf : f.WellFormed) :
    (form.write f).toList ≠ [] := by
  obtain ⟨t, more, ht, hwrite⟩ := form.exists_toList_write_eq hf
  rw [hwrite]
  exact List.append_ne_nil_of_left_ne_nil ht.toList_text_ne_nil more

end TextForm

/-- The texts of the formulas, each in its notation, one after the other. -/
def streamText (items : List (TextForm × Formula)) : String :=
  String.join (items.map fun item => item.1.write item.2)

theorem toList_streamText (items : List (TextForm × Formula)) :
    (streamText items).toList = items.flatMap fun item => (item.1.write item.2).toList := by
  rw [streamText, String.toList_join, List.flatMap_map]

theorem streamText_append (items items' : List (TextForm × Formula)) :
    streamText (items ++ items') = streamText items ++ streamText items' := by
  rw [← String.toList_inj, String.toList_append]
  simp only [toList_streamText, List.flatMap_append]

/-- Texts of well-formed formulas have one byte for each character. -/
theorem length_bytes_streamText {items : List (TextForm × Formula)}
    (hwf : ∀ item ∈ items, item.2.WellFormed) :
    (bytes (streamText items)).length = (streamText items).toList.length := by
  rw [String.length_toList]
  refine length_bytes_of_ascii fun c hc => ?_
  rw [toList_streamText, List.mem_flatMap] at hc
  obtain ⟨⟨form, f⟩, hitem, hc⟩ := hc
  rw [form.spelling.toList_write] at hc
  exact Token.val_le_of_mem_chars ((form.spelling.wellFormed_iff f).mpr (hwf _ hitem)) c hc

/-- A stream of well-formed formulas does not begin with a digit. -/
theorem noDigitAhead_streamText {items : List (TextForm × Formula)}
    (hwf : ∀ item ∈ items, item.2.WellFormed) {rest : List Char} (hrest : NoDigitAhead rest) :
    NoDigitAhead ((streamText items).toList ++ rest) := by
  rw [toList_streamText]
  cases items with
  | nil => exact hrest
  | cons item items =>
      rw [List.flatMap_cons, List.append_assoc]
      exact item.1.noDigitAhead_write (hwf item List.mem_cons_self) _

/-- Only the empty stream has an empty text. -/
theorem toList_streamText_eq_nil_iff {items : List (TextForm × Formula)}
    (hwf : ∀ item ∈ items, item.2.WellFormed) :
    (streamText items).toList = [] ↔ items = [] := by
  rw [toList_streamText, List.flatMap_eq_nil_iff]
  constructor
  · intro h
    rw [List.eq_nil_iff_forall_not_mem]
    intro item hitem
    exact item.1.toList_write_ne_nil (hwf item hitem) (h item hitem)
  · rintro rfl item hitem
    exact absurd hitem List.not_mem_nil

namespace Parser

/-- Reads one formula in the notation. -/
def read (p : Parser) : TextForm → Except SyntaxError Formula × Parser
  | .standard => p.formula
  | .polish => p.polishFormula

/-- Reads formulas one after the other, each in its notation, whether or not the calls before
have failed. -/
def readAll (p : Parser) : List TextForm → List (Except SyntaxError Formula) × Parser
  | [] => ([], p)
  | form :: forms =>
      ((p.read form).1 :: ((p.read form).2.readAll forms).1, ((p.read form).2.readAll forms).2)

/-- **A formula is read in front of any text that does not begin with a digit**, and nothing
of that text is read. -/
theorem read_write (form : TextForm) {f : Formula} (hf : f.WellFormed) {rest : List Char}
    (hrest : NoDigitAhead rest) (column : Nat) :
    read ⟨⟨column, (form.write f).toList ++ rest⟩, none⟩ form =
      (.ok f, ⟨⟨column + (form.write f).toList.length, rest⟩, none⟩) := by
  have hpass := Lexer.Passes.of_append ((form.spelling.wellFormed_iff f).mpr hf)
    (fun t _ => .of_noDigitAhead hrest) column
  rw [← form.spelling.toList_write] at hpass
  cases form with
  | standard => rw [read, formula, Standard.reads.run_eq_ok_iff.mpr hpass]
  | polish => rw [read, polishFormula, Polish.reads.run_eq_ok_iff.mpr hpass]

/-- **Formulas are read one after the other**, in front of any text that does not begin with a
digit. -/
theorem readAll_write {items : List (TextForm × Formula)}
    (hwf : ∀ item ∈ items, item.2.WellFormed) {rest : List Char} (hrest : NoDigitAhead rest)
    (column : Nat) :
    readAll ⟨⟨column, (streamText items).toList ++ rest⟩, none⟩ (items.map Prod.fst) =
      (items.map fun item => .ok item.2,
        ⟨⟨column + (streamText items).toList.length, rest⟩, none⟩) := by
  simp only [toList_streamText]
  induction items generalizing column with
  | nil => rfl
  | cons item items ih =>
      obtain ⟨hitem, hitems⟩ := List.forall_mem_cons.mp hwf
      have hnext := noDigitAhead_streamText hitems hrest
      rw [toList_streamText] at hnext
      rw [List.flatMap_cons, List.append_assoc, List.map_cons, readAll,
        read_write item.1 hitem hnext column, ih hitems, List.length_append, Nat.add_assoc]
      rfl

/-- **Concatenated formulas are read back as a stream.** A parser without a depth limit over
the texts of well-formed formulas, each in its own notation and with nothing between them, is
asked for a formula in these notations in turn. After the first `k` calls it has returned the
first `k` formulas, exactly the texts of the others remain, and the end of the text is found
if there are no others and otherwise refused, at the column after the bytes that were read. -/
theorem readAll_stream {items : List (TextForm × Formula)}
    (hwf : ∀ item ∈ items, item.2.WellFormed) (k : Nat) :
    ∃ p : Parser,
      (ofString (streamText items)).readAll ((items.take k).map Prod.fst) =
        ((items.take k).map fun item => .ok item.2, p) ∧
      p.remaining = streamText (items.drop k) ∧
      (items.length ≤ k → p.expectEnd = .ok ()) ∧
      (k < items.length → p.expectEnd =
        .error ⟨.trailingInput p.remaining, 1 + (bytes (streamText (items.take k))).length⟩) := by
  have htaken : ∀ item ∈ items.take k, item.2.WellFormed :=
    fun item hitem => hwf item (List.mem_of_mem_take hitem)
  have hleft : ∀ item ∈ items.drop k, item.2.WellFormed :=
    fun item hitem => hwf item (List.mem_of_mem_drop hitem)
  have hrest := noDigitAhead_streamText hleft noDigitAhead_nil
  rw [List.append_nil] at hrest
  have hread := readAll_write htaken hrest 1
  rw [← String.toList_append, ← streamText_append, List.take_append_drop] at hread
  refine ⟨_, hread, String.ofList_toList, fun hlast => ?_, fun hmore => ?_⟩
  · have hnil : (streamText (items.drop k)).toList = [] :=
      (toList_streamText_eq_nil_iff hleft).mpr (List.drop_eq_nil_of_le hlast)
    rw [expectEnd, hnil]
    rfl
  · have hcons : (streamText (items.drop k)).toList ≠ [] := by
      rw [Ne, toList_streamText_eq_nil_iff hleft, List.drop_eq_nil_iff, Nat.not_le]
      exact hmore
    rw [expectEnd, if_neg (by rwa [List.isEmpty_iff]), length_bytes_streamText htaken]

/-- A negation, in polish notation a conjunction whose last name ends with a digit, and a
parenthesis: after two of three calls the parenthesis remains. -/
theorem readAll_stream_mixed :
    ∃ p : Parser,
      (ofString "~p&q3r12(p->T)").readAll [.standard, .polish] =
        ([.ok (.not (.var "p")), .ok (.binary .and (.var "q3") (.var "r12"))], p) ∧
      p.remaining = "(p->T)" ∧
      p.expectEnd = .error ⟨.trailingInput "(p->T)", 9⟩ := by
  let items : List (TextForm × Formula) :=
    [(.standard, .not (.var "p")), (.polish, .binary .and (.var "q3") (.var "r12")),
      (.standard, .binary .implies (.var "p") (.const true))]
  have hwf : ∀ item ∈ items, item.2.WellFormed := by
    simp only [items, List.forall_mem_cons, List.not_mem_nil, Formula.WellFormed]
    exact ⟨by decide, by decide, by decide, fun _ h => h.elim⟩
  have htext : streamText items = "~p&q3r12(p->T)" := by decide +kernel
  have hrest : streamText (items.drop 2) = "(p->T)" := by decide +kernel
  have hbytes : (bytes (streamText (items.take 2))).length = 8 := by decide +kernel
  obtain ⟨p, hread, hremaining, -, hmore⟩ := readAll_stream hwf 2
  rw [htext] at hread
  have hend := hmore (by decide)
  rw [hbytes, hremaining, hrest] at hend
  exact ⟨p, hread, hremaining.trans hrest, hend⟩

end Parser

end Propositional

import Propositional.Text.Token

/-!
# Written Tokens and the Lexer

The lexer undoes the writing of tokens. `Lexer.Consumes l t l'` says, without the lexer's
own case distinctions, what it means to read the token `t` at `l`: the remaining text is
the text of `t` followed by what remains at `l'`, and `t` could not have been read any
further. The one token for which this last condition matters is a variable name, which
takes every digit that follows it.

`Lexer.Passes` reads a whole list of tokens. Since no token begins with a digit, the
tokens of a written list separate themselves, and the condition on what follows remains
for the last of them only.

## Main results

* `Lexer.next_eq_ok_iff`: the lexer reads exactly the tokens that are there.
* `Lexer.next_eq_error_iff`: the three places where it reads none.
* `Lexer.Passes.of_append`: a written list of tokens is read back, in front of any text
  that does not continue its last token.
* `Lexer.Passes.rest_eq`: what was read is the text of the tokens.
* `Token.printable_of_mem_chars`: tokens are written without blanks and control characters.
-/

namespace Propositional

/-! ### Digits and letters -/

/-- The digits of variable names are `0` to `9`. -/
theorem isDigit_iff {c : Char} : c.isDigit = true ↔ '0' ≤ c ∧ c ≤ '9' := by
  simp [Char.isDigit, Char.le_def]

/-- A letter that starts a variable name is no digit. -/
theorem isDigit_of_isVariableLetter {c : Char} (h : isVariableLetter c = true) :
    c.isDigit = false := by
  rw [Bool.eq_false_iff]
  intro hc
  simp only [isVariableLetter, Char.isDigit, Bool.and_eq_true, decide_eq_true_eq, Char.le_def,
    UInt32.le_iff_toNat_le] at h hc
  have hp : ('p' : Char).val.toNat = 112 := rfl
  have hnine : ('9' : Char).val.toNat = 57 := rfl
  omega

/-- A variable name is a letter followed by digits. -/
theorem isVariable_iff {s : String} :
    isVariable s = true ↔ ∃ c digits, s = String.ofList (c :: digits) ∧
      isVariableLetter c = true ∧ ∀ d ∈ digits, d.isDigit = true := by
  constructor
  · intro h
    unfold isVariable at h
    split at h
    · exact absurd h (by simp)
    · rename_i c digits hs
      rw [Bool.and_eq_true, List.all_eq_true] at h
      exact ⟨c, digits, by rw [← hs, String.ofList_toList], h.1, h.2⟩
  · rintro ⟨c, digits, rfl, hc, hdigits⟩
    simp only [isVariable, String.toList_ofList, Bool.and_eq_true, List.all_eq_true]
    exact ⟨hc, hdigits⟩

/-- The text does not begin with a digit. -/
def NoDigitAhead (cs : List Char) : Prop :=
  ∀ c ∈ cs.head?, c.isDigit = false

theorem noDigitAhead_nil : NoDigitAhead [] := by
  intro c hc
  simp at hc

theorem noDigitAhead_cons {c : Char} {cs : List Char} :
    NoDigitAhead (c :: cs) ↔ c.isDigit = false := by
  simp [NoDigitAhead]

/-- Digits end where the text after them does not begin with one. -/
theorem takeWhile_isDigit_append {digits rest : List Char}
    (hd : ∀ d ∈ digits, d.isDigit = true) (hr : NoDigitAhead rest) :
    (digits ++ rest).takeWhile Char.isDigit = digits ∧
      (digits ++ rest).dropWhile Char.isDigit = rest := by
  have hnone : rest.takeWhile Char.isDigit = [] ∧ rest.dropWhile Char.isDigit = rest := by
    cases rest with
    | nil => exact ⟨rfl, rfl⟩
    | cons c cs =>
        have hc := noDigitAhead_cons.mp hr
        simp [hc]
  rw [List.takeWhile_append_of_pos hd, List.dropWhile_append_of_pos hd, hnone.1, hnone.2]
  simp

/-- What is left after all leading digits does not begin with a digit. -/
theorem noDigitAhead_dropWhile (cs : List Char) :
    NoDigitAhead (cs.dropWhile Char.isDigit) := by
  intro c hc
  have hne : cs.dropWhile Char.isDigit ≠ [] := by
    rintro h
    simp [h] at hc
  rw [List.head?_eq_some_head hne, Option.mem_some_iff] at hc
  exact hc ▸ List.head_dropWhile_not Char.isDigit hne

/-! ### Tokens as they are written -/

namespace Token

/-- A token that can stand in a text: variables have valid names, and the end of the
input is no part of the text. -/
def WellFormed : Token → Prop
  | openParen => True
  | closeParen => True
  | var name => isVariable name = true
  | operator _ => True
  | endOfInput => False

/-- The token cannot be read any further into the text that follows it. -/
def EndsBefore (t : Token) (rest : List Char) : Prop :=
  match t with
  | var _ => NoDigitAhead rest
  | _ => True

/-- The tokens written one after the other. -/
def chars (ts : List Token) : List Char :=
  ts.flatMap fun t => t.text.toList

@[simp] theorem chars_nil : chars [] = [] := rfl

@[simp] theorem chars_cons (t : Token) (ts : List Token) :
    chars (t :: ts) = t.text.toList ++ chars ts := rfl

@[simp] theorem chars_append (ts us : List Token) :
    chars (ts ++ us) = chars ts ++ chars us := List.flatMap_append

/-- Every token ends before the end of the text. -/
theorem endsBefore_nil (t : Token) : t.EndsBefore [] := by
  cases t with
  | var name => exact noDigitAhead_nil
  | openParen | closeParen | operator | endOfInput => exact trivial

/-- A token ends before any text that does not begin with a digit. -/
theorem EndsBefore.of_noDigitAhead {t : Token} {rest : List Char} (h : NoDigitAhead rest) :
    t.EndsBefore rest := by
  cases t with
  | var name => exact h
  | openParen | closeParen | operator | endOfInput => exact trivial

/-- Whether a token ends depends on the next character only. -/
theorem EndsBefore.congr {t : Token} {rest rest' : List Char} (h : t.EndsBefore rest)
    (heq : rest.head? = rest'.head?) : t.EndsBefore rest' := by
  cases t with
  | var name => exact fun c hc => h c (heq ▸ hc)
  | openParen | closeParen | operator | endOfInput => exact trivial

/-- A token that is one character is written as that character. -/
theorem of_ofChar? {c : Char} {t : Token} (h : ofChar? c = some t) :
    t.WellFormed ∧ t.text.toList = [c] ∧ ∀ rest, t.EndsBefore rest := by
  unfold ofChar? at h
  split at h
  all_goals first
    | (obtain rfl := Option.some.inj h; exact ⟨trivial, rfl, fun _ => trivial⟩)
    | exact absurd h (by simp)

/-- A token that can stand in a text has a character. -/
theorem WellFormed.toList_text_ne_nil {t : Token} (h : t.WellFormed) : t.text.toList ≠ [] := by
  cases t with
  | var name =>
      obtain ⟨c, digits, rfl, -, -⟩ := isVariable_iff.mp h
      simp [text]
  | openParen | closeParen => decide
  | operator op => rcases op with (_ | _) | _ | (_ | _ | _) <;> decide
  | endOfInput => exact h.elim

/-- Tokens are written in ASCII characters, without blanks and control characters. -/
theorem WellFormed.printable {t : Token} (h : t.WellFormed) :
    ∀ c ∈ t.text.toList, ' ' < c ∧ c.val ≤ 127 := by
  have hsymbol : ∀ {s : String}, (s.toList.all fun c => ' ' < c && decide (c.val ≤ 127)) = true →
      ∀ c ∈ s.toList, ' ' < c ∧ c.val ≤ 127 := by
    intro s hs c hc
    simpa using List.all_eq_true.mp hs c hc
  have hrange : ∀ {low high c : Char}, ' ' < low → high.val ≤ 127 → low ≤ c ∧ c ≤ high →
      ' ' < c ∧ c.val ≤ 127 := fun hlow hhigh hc =>
    ⟨UInt32.lt_of_lt_of_le hlow (Char.le_def.mp hc.1), UInt32.le_trans (Char.le_def.mp hc.2) hhigh⟩
  cases t with
  | var name =>
      obtain ⟨letter, digits, rfl, hletter, hdigits⟩ := isVariable_iff.mp h
      simp only [isVariableLetter, Bool.and_eq_true, decide_eq_true_eq] at hletter
      rw [text, String.toList_ofList, List.forall_mem_cons]
      exact ⟨hrange (by decide) (by decide) hletter, fun d hd =>
        hrange (by decide) (by decide) (isDigit_iff.mp (hdigits d hd))⟩
  | openParen | closeParen => exact hsymbol (by decide)
  | operator op => rcases op with (_ | _) | _ | (_ | _ | _) <;> exact hsymbol (by decide)
  | endOfInput => exact h.elim

/-- So are texts that are made of tokens. -/
theorem printable_of_mem_chars {ts : List Token} (h : ∀ t ∈ ts, t.WellFormed) :
    ∀ c ∈ chars ts, ' ' < c ∧ c.val ≤ 127 := by
  intro c hc
  rw [chars, List.mem_flatMap] at hc
  obtain ⟨t, ht, hct⟩ := hc
  exact (h t ht).printable c hct

/-- No token begins with a digit, whatever is written after it. -/
theorem WellFormed.noDigitAhead {t : Token} (h : t.WellFormed) (rest : List Char) :
    NoDigitAhead (t.text.toList ++ rest) := by
  cases t with
  | var name =>
      obtain ⟨c, digits, rfl, hc, -⟩ := isVariable_iff.mp h
      rw [text, String.toList_ofList]
      exact noDigitAhead_cons.mpr (isDigit_of_isVariableLetter hc)
  | openParen => exact noDigitAhead_cons.mpr rfl
  | closeParen => exact noDigitAhead_cons.mpr rfl
  | operator op =>
      rcases op with (_ | _) | _ | (_ | _ | _) <;> exact noDigitAhead_cons.mpr rfl
  | endOfInput => exact h.elim

end Token

/-! ### The lexer -/

namespace Lexer

/-- The token `t` stands at `l` and is followed by what remains at `l'`. -/
structure Consumes (l : Lexer) (t : Token) (l' : Lexer) : Prop where
  wellFormed : t.WellFormed
  endsBefore : t.EndsBefore l'.rest
  rest_eq : l.rest = t.text.toList ++ l'.rest
  column_eq : l'.column = l.column + t.text.length

/-- The text of a token, in front of a text that does not continue it. -/
theorem Consumes.of_text {t : Token} {rest : List Char} (hwf : t.WellFormed)
    (hends : t.EndsBefore rest) (column : Nat) :
    Consumes ⟨column, t.text.toList ++ rest⟩ t ⟨column + t.text.length, rest⟩ :=
  ⟨hwf, hends, rfl, rfl⟩

/-- A letter that starts a variable name is read with all the digits after it. -/
theorem read_letter (column : Nat) {c : Char} (cs : List Char)
    (hc : isVariableLetter c = true) :
    read ⟨column, c :: cs⟩ = .ok (.var (String.ofList (c :: cs.takeWhile Char.isDigit)),
      ⟨column + 1 + (cs.takeWhile Char.isDigit).length, cs.dropWhile Char.isDigit⟩) := by
  have hdash : c ≠ '-' := by
    rintro rfl
    exact absurd hc (by decide)
  unfold read
  split
  · rename_i hnil
    exact absurd hnil (by simp)
  · rename_i after harrow
    exact absurd (List.cons.inj harrow).1 hdash
  · rename_i c' after _ heq
    obtain ⟨rfl, rfl⟩ := List.cons.inj heq
    rw [if_neg hdash, if_pos hc]

/-- A token that stands at the lexer is read. Every kind of token but a variable is
recognised by its first character, or, for the arrow, by its first two. -/
theorem Consumes.read_eq {l l' : Lexer} {t : Token} (h : l.Consumes t l') :
    l.read = .ok (t, l') := by
  obtain ⟨column, rest⟩ := l
  obtain ⟨column', rest'⟩ := l'
  obtain ⟨hwf, hends, hrest, hcolumn⟩ := h
  obtain rfl : rest = t.text.toList ++ rest' := hrest
  obtain rfl : column' = column + t.text.length := hcolumn
  cases t with
  | openParen => rfl
  | closeParen => rfl
  | operator op => rcases op with (_ | _) | _ | (_ | _ | _) <;> rfl
  | endOfInput => exact hwf.elim
  | var name =>
      obtain ⟨c, digits, rfl, hc, hdigits⟩ := isVariable_iff.mp hwf
      obtain ⟨htake, hdrop⟩ := takeWhile_isDigit_append hdigits hends
      rw [Token.text, String.toList_ofList, String.length_ofList, List.length_cons,
        List.cons_append, read_letter column _ hc, htake, hdrop, Nat.add_assoc, Nat.add_comm 1]

/-- What the lexer reads is either the end of the input, and there it stays, or a token
that stands there. -/
theorem read_eq_ok {l l' : Lexer} {t : Token} (h : l.read = .ok (t, l')) :
    (t = .endOfInput ∧ l.rest = [] ∧ l' = l) ∨ l.Consumes t l' := by
  obtain ⟨column, rest⟩ := l
  unfold read at h
  split at h
  · rename_i hrest
    obtain ⟨rfl, rfl⟩ := Prod.mk.inj (Except.ok.inj h)
    exact .inl ⟨rfl, hrest, rfl⟩
  · rename_i after hrest
    obtain ⟨rfl, rfl⟩ := Prod.mk.inj (Except.ok.inj h)
    exact .inr ⟨trivial, trivial, hrest, rfl⟩
  · rename_i c after hnarrow hrest
    obtain rfl : rest = c :: after := hrest
    right
    split at h
    · exact absurd h (by simp)
    split at h
    · rename_i hc
      obtain ⟨rfl, rfl⟩ := Prod.mk.inj (Except.ok.inj h)
      refine ⟨?_, noDigitAhead_dropWhile after, ?_, ?_⟩
      · exact isVariable_iff.mpr ⟨c, _, rfl, hc, List.all_eq_true.mp List.all_takeWhile⟩
      · simp [Token.text]
      · simp only [Token.text, String.length_ofList, List.length_cons]
        omega
    · split at h
      · rename_i token htoken
        obtain ⟨rfl, rfl⟩ := Prod.mk.inj (Except.ok.inj h)
        obtain ⟨hwf, htext, hends⟩ := Token.of_ofChar? htoken
        exact ⟨hwf, hends _, by rw [htext]; rfl, by rw [← String.length_toList, htext]; rfl⟩
      · exact absurd h (by simp)

/-- **The lexer reads exactly the tokens that are there.** -/
theorem next_eq_ok_iff {l l' : Lexer} {t : Token} :
    l.next = .ok (t, l') ↔ l.Consumes t l' := by
  constructor
  · intro h
    unfold next at h
    split at h
    · exact absurd h (by simp)
    · exact absurd h (by simp)
    · rename_i hne hread
      obtain ⟨rfl, rfl⟩ := Prod.mk.inj (Except.ok.inj h)
      rcases read_eq_ok hread with ⟨rfl, -, -⟩ | hc
      · exact (hne rfl).elim
      · exact hc
  · intro h
    rw [next, h.read_eq]
    cases t with
    | endOfInput => exact h.wellFormed.elim
    | openParen | closeParen | var | operator => rfl

/-- The character can begin a token. -/
def BeginsToken (c : Char) : Prop :=
  c = '-' ∨ isVariableLetter c = true ∨ (Token.ofChar? c).isSome = true

/-- Where no token begins, no token is read: at the end of the text, at a `-` without the
`>` of an arrow, and at a character with which no token begins. -/
theorem next_eq_error_iff {l : Lexer} {e : SyntaxError} :
    l.next = .error e ↔
      (l.rest = [] ∧ e = ⟨.unexpectedEnd, l.column⟩) ∨
      (∃ cs, l.rest = '-' :: cs ∧ cs.head? ≠ some '>' ∧ e = ⟨.incompleteArrow, l.column⟩) ∨
      ∃ c cs, l.rest = c :: cs ∧ ¬ BeginsToken c ∧ e = ⟨.unexpectedChar c, l.column⟩ := by
  obtain ⟨column, rest⟩ := l
  rcases rest with - | ⟨c, cs⟩
  · simp [next, read, eq_comm (a := e)]
  by_cases hdash : c = '-'
  · subst hdash
    rcases cs with - | ⟨d, ds⟩
    · simp [next, read, BeginsToken, eq_comm (a := e)]
    · by_cases hd : d = '>'
      · subst hd
        simp [next, read, BeginsToken]
      · simp [next, read, BeginsToken, hd, eq_comm (a := e)]
  by_cases hletter : isVariableLetter c = true
  · simp [next, read_letter column cs hletter, BeginsToken, hletter, hdash]
  · cases htoken : Token.ofChar? c with
    | none => simp [next, read, BeginsToken, hletter, hdash, htoken, eq_comm (a := e)]
    | some t =>
        obtain ⟨hwf, htext, hends⟩ := Token.of_ofChar? htoken
        have hok : next ⟨column, c :: cs⟩ = .ok (t, ⟨column + 1, cs⟩) :=
          next_eq_ok_iff.mpr ⟨hwf, hends cs, by rw [htext]; rfl,
            by rw [← String.length_toList, htext]; rfl⟩
        simp [hok, BeginsToken, hdash, htoken]

/-- In front of the text of a token nothing else is read than this token, or another
variable where the token is a variable whose digits go on. -/
theorem eq_or_var_of_next {column : Nat} {t u : Token} {more : List Char} {l' : Lexer}
    (hwf : t.WellFormed) (h : next ⟨column, t.text.toList ++ more⟩ = .ok (u, l')) :
    u = t ∨ ∃ x y, t = .var x ∧ u = .var y := by
  cases t with
  | var x =>
      obtain ⟨c, digits, rfl, hc, -⟩ := isVariable_iff.mp hwf
      rw [next, Token.text, String.toList_ofList, List.cons_append, read_letter column _ hc] at h
      obtain ⟨rfl, -⟩ := Prod.mk.inj (Except.ok.inj h)
      exact .inr ⟨_, _, rfl, rfl⟩
  | openParen | closeParen | operator | endOfInput =>
      rw [next_eq_ok_iff.mpr (.of_text hwf trivial column)] at h
      exact .inl (Prod.mk.inj (Except.ok.inj h)).1.symm

/-- The tokens stand at `l` one after the other and are followed by what remains at the
last lexer. -/
inductive Passes : Lexer → List Token → Lexer → Prop
  | nil (l : Lexer) : Passes l [] l
  | cons {l l' l'' : Lexer} {t : Token} {ts : List Token} :
      l.Consumes t l' → Passes l' ts l'' → Passes l (t :: ts) l''

/-- What was read is the text of the tokens. -/
theorem Passes.rest_eq {l l' : Lexer} {ts : List Token} (h : l.Passes ts l') :
    l.rest = Token.chars ts ++ l'.rest := by
  induction h with
  | nil l => rfl
  | cons hc _ ih => rw [hc.rest_eq, ih, Token.chars_cons, List.append_assoc]

/-- Every token that was read can stand in a text. -/
theorem Passes.wellFormed {l l' : Lexer} {ts : List Token} (h : l.Passes ts l') :
    ∀ t ∈ ts, t.WellFormed := by
  induction h with
  | nil l => simp
  | cons hc _ ih => exact List.forall_mem_cons.mpr ⟨hc.wellFormed, ih⟩

/-- The column advances by the characters that were read. -/
theorem Passes.column_eq {l l' : Lexer} {ts : List Token} (h : l.Passes ts l') :
    l'.column = l.column + (Token.chars ts).length := by
  induction h with
  | nil l => rfl
  | cons hc _ ih =>
      rw [ih, hc.column_eq, Token.chars_cons, List.length_append, String.length_toList,
        Nat.add_assoc]

/-- The last token that was read could not be read any further. -/
theorem Passes.endsBefore {l l' : Lexer} {ts : List Token} (h : l.Passes ts l') :
    ∀ t ∈ ts.getLast?, t.EndsBefore l'.rest := by
  induction h with
  | nil l => simp
  | @cons l l' l'' t ts hc hpass ih =>
      cases hpass with
      | nil => simpa using hc.endsBefore
      | cons => simpa [List.getLast?_cons_cons] using ih

/-- **Written tokens are read back**, in front of any text that does not continue the last
of them. -/
theorem Passes.of_append {ts : List Token} (hwf : ∀ t ∈ ts, t.WellFormed) {rest : List Char}
    (hends : ∀ t ∈ ts.getLast?, t.EndsBefore rest) (column : Nat) :
    Passes ⟨column, Token.chars ts ++ rest⟩ ts ⟨column + (Token.chars ts).length, rest⟩ := by
  induction ts generalizing column with
  | nil => exact .nil _
  | cons t ts ih =>
      obtain ⟨ht, hts⟩ := List.forall_mem_cons.mp hwf
      have hfollow : t.EndsBefore (Token.chars ts ++ rest) := by
        cases ts with
        | nil => exact hends t rfl
        | cons u us =>
            have hu := (List.forall_mem_cons.mp hts).1.noDigitAhead (Token.chars us ++ rest)
            rw [Token.chars_cons, List.append_assoc]
            exact .of_noDigitAhead hu
      have hlast : ∀ u ∈ ts.getLast?, u.EndsBefore rest := by
        intro u hu
        refine hends u ?_
        rw [List.getLast?_cons, hu, Option.getD_some, Option.mem_some_iff]
      have hcolumn : column + (Token.chars (t :: ts)).length =
          column + t.text.length + (Token.chars ts).length := by
        rw [Token.chars_cons, List.length_append, String.length_toList, Nat.add_assoc]
      rw [hcolumn, Token.chars_cons, List.append_assoc]
      exact .cons (.of_text ht hfollow column) (ih hts hlast _)

end Lexer

end Propositional

import Propositional.Proofs.Text.ErrorColumns

/-!
# Calls of the Lexer

A lexer is called any number of times. Each call answers with a token and the column at which it
begins, or with an error, and leaves the lexer where the next call goes on: after the token, or, if
there is none, where it was.

The tokens that have been taken are the text up to the lexer, and each of them has the column that
it has if the tokens are written one after the other from the first column on (`Token.located`). So
whatever is said of a sequence of calls is said of a list of tokens that stand in the text.

## Main definitions

* `Lexer.scan`, `Lexer.scans`: calls of the lexer and their answers.
* `Lexer.taken`: the tokens among the answers, each with its column.

## Main results

* `Lexer.scan_eq`: a call takes the token that stands at the lexer, or nothing.
* `Lexer.scans_passes`: what calls take is what stands in the text.
-/

namespace Propositional

namespace Token

/-- The tokens written one after the other. -/
def written (ts : List Token) : String :=
  String.join (ts.map text)

theorem toList_written (ts : List Token) : (written ts).toList = chars ts := by
  rw [written, String.toList_join, List.flatMap_map, chars]

/-- The tokens with their columns, the first of them at the given one. -/
def located (column : Nat) : List Token → List (Token × Nat)
  | [] => []
  | t :: ts => (t, column) :: located (column + t.text.length) ts

@[simp] theorem map_fst_located (column : Nat) (ts : List Token) :
    (located column ts).map Prod.fst = ts := by
  induction ts generalizing column with
  | nil => rfl
  | cons t ts ih => rw [located, List.map_cons, ih]

/-- A token has the column that is as many characters away as those before it have. -/
theorem column_of_located_eq {column place : Nat} {ts : List Token} {t : Token}
    {before after : List (Token × Nat)} (h : located column ts = before ++ (t, place) :: after) :
    place = column + (chars (before.map Prod.fst)).length := by
  induction before generalizing column ts with
  | nil =>
      cases ts with
      | nil => simp [located] at h
      | cons u us => exact (Prod.mk.inj (List.cons.inj h).1).2.symm
  | cons first before ih =>
      cases ts with
      | nil => simp [located] at h
      | cons u us =>
          obtain ⟨rfl, hrest⟩ := List.cons.inj h
          rw [ih hrest, List.map_cons, chars_cons, List.length_append, String.length_toList,
            Nat.add_assoc]

/-- Every token is at least one character. -/
theorem length_le_length_chars {ts : List Token} (h : ∀ t ∈ ts, t.WellFormed) :
    ts.length ≤ (chars ts).length := by
  induction ts with
  | nil => exact Nat.le_refl 0
  | cons t ts ih =>
      obtain ⟨ht, hts⟩ := List.forall_mem_cons.mp h
      have hpos := List.length_pos_iff.mpr ht.toList_text_ne_nil
      have hrest := ih hts
      rw [chars_cons, List.length_append, List.length_cons]
      omega

end Token

namespace Lexer

/-! ### What was read -/

/-- A token that was read could not be read any further into the text after it. -/
theorem Passes.endsBefore_of_append {l l' : Lexer} {t : Token} {ts us : List Token}
    (h : l.Passes (ts ++ t :: us) l') : t.EndsBefore (Token.chars us ++ l'.rest) := by
  induction ts generalizing l with
  | nil =>
      cases h with
      | cons hc hpass => exact hpass.rest_eq ▸ hc.endsBefore
  | cons u ts ih =>
      cases h with
      | cons _ hpass => exact ih hpass

/-- The column of the lexer comes after the bytes of the tokens that were read. -/
theorem Passes.column_eq_written {s : String} {ts : List Token} {l : Lexer}
    (h : (Lexer.ofString s).Passes ts l) : l.column = 1 + (bytes (Token.written ts)).length := by
  obtain ⟨-, -, hcolumn⟩ := Reader.bytes_of_passes h
  rw [hcolumn, ← Token.toList_written, String.ofList_toList, Nat.add_comm]

/-- The tokens that were read and what remains are the text. -/
theorem Passes.written_append {s : String} {ts : List Token} {l : Lexer}
    (h : (Lexer.ofString s).Passes ts l) : Token.written ts ++ l.remaining = s := by
  rw [← String.toList_inj, String.toList_append, Token.toList_written, Lexer.remaining,
    String.toList_ofList]
  exact h.rest_eq.symm

/-! ### Calls -/

/-- What a call of the lexer answers: a token and the column at which it begins, or an error. -/
abbrev Answer := Except SyntaxError (Token × Nat)

/-- A call of the lexer, and the lexer after it. -/
def scan (l : Lexer) : Answer × Lexer :=
  match l.read with
  | .error e => (.error e, l)
  | .ok (t, l') => (.ok (t, l.column), l')

/-- Calls of the lexer, whether or not those before have failed. -/
def scans : Nat → Lexer → List Answer × Lexer
  | 0, l => ([], l)
  | n + 1, l => (l.scan.1 :: (l.scan.2.scans n).1, (l.scan.2.scans n).2)

/-- The token that a call has taken, with its column; the end of the input is none. -/
def Answer.taken? : Answer → Option (Token × Nat)
  | .error _ => none
  | .ok (t, column) => if t = .endOfInput then none else some (t, column)

/-- The tokens among the answers, with their columns. -/
def taken (answers : List Answer) : List (Token × Nat) :=
  answers.filterMap Answer.taken?

@[simp] theorem taken_append (answers more : List Answer) :
    taken (answers ++ more) = taken answers ++ taken more :=
  List.filterMap_append

/-- A call that was answered with a token has taken it. -/
theorem taken_singleton {t : Token} {column : Nat} (h : t ≠ .endOfInput) :
    taken [.ok (t, column)] = [(t, column)] := by
  rw [taken, List.filterMap_cons, Answer.taken?, if_neg h]
  rfl

/-- Calls that are made after others go on where these have led. -/
theorem scans_add (m n : Nat) (l : Lexer) :
    l.scans (m + n) =
      ((l.scans m).1 ++ ((l.scans m).2.scans n).1, ((l.scans m).2.scans n).2) := by
  induction m generalizing l with
  | zero => rw [Nat.zero_add, scans, List.nil_append]
  | succ m ih => rw [Nat.add_right_comm, scans, scans, ih, List.cons_append]

theorem length_scans (n : Nat) (l : Lexer) : (l.scans n).1.length = n := by
  induction n generalizing l with
  | zero => rfl
  | succ n ih => rw [scans, List.length_cons, ih]

/-- What stands at the lexer is not the end. -/
theorem Consumes.ne_endOfInput {l l' : Lexer} {t : Token} (h : l.Consumes t l') :
    t ≠ .endOfInput := by
  rintro rfl
  exact h.wellFormed

/-- A token that stands at the lexer is taken. -/
theorem Consumes.scan_eq {l l' : Lexer} {t : Token} (h : l.Consumes t l') :
    l.scan = (.ok (t, l.column), l') := by
  rw [scan, h.read_eq]

/-- **A call takes the token that stands at the lexer, or it takes nothing.** -/
theorem scan_eq (l : Lexer) :
    (∃ t l', l.Consumes t l' ∧ l.scan = (.ok (t, l.column), l')) ∨
      l.scan.1.taken? = none ∧ l.scan.2 = l := by
  rcases hread : l.read with e | ⟨t, l'⟩
  · exact .inr (by rw [scan, hread]; exact ⟨rfl, rfl⟩)
  · rcases read_eq_ok hread with ⟨rfl, -, rfl⟩ | hc
    · exact .inr (by rw [scan, hread]; exact ⟨rfl, rfl⟩)
    · exact .inl ⟨t, l', hc, hc.scan_eq⟩

/-- Before the end of the text, the lexer is called in vain where there is no next token. -/
theorem scan_of_next_eq_error {l : Lexer} {e : SyntaxError} (h : l.next = .error e)
    (hrest : l.rest ≠ []) : l.scan = (.error e, l) := by
  rw [next] at h
  split at h
  · rename_i hread
    rw [scan, hread, h]
  · rename_i hread
    rcases read_eq_ok hread with ⟨-, hnil, -⟩ | hc
    · exact absurd hnil hrest
    · exact absurd rfl hc.ne_endOfInput
  · exact absurd h (by simp)

/-- At the end of the text, it is called in vain as well. -/
theorem scan_of_rest_eq_nil {l : Lexer} (h : l.rest = []) :
    l.scan = (.ok (.endOfInput, l.column), l) := by
  obtain ⟨column, rest⟩ := l
  obtain rfl : rest = [] := h
  rfl

/-- Where there is no next token, the lexer stays where it is. -/
theorem scan_snd_of_next_eq_error {l : Lexer} {e : SyntaxError} (h : l.next = .error e) :
    l.scan.2 = l := by
  by_cases hrest : l.rest = []
  · rw [scan_of_rest_eq_nil hrest]
  · rw [scan_of_next_eq_error h hrest]

/-- **What calls take is what stands in the text.** -/
theorem scans_passes (n : Nat) (l : Lexer) :
    ∃ ts, l.Passes ts (l.scans n).2 ∧ taken (l.scans n).1 = Token.located l.column ts := by
  induction n generalizing l with
  | zero => exact ⟨[], .nil l, rfl⟩
  | succ n ih =>
      obtain ⟨ts, hpass, htaken⟩ := ih l.scan.2
      rw [scans, taken, List.filterMap_cons]
      rcases l.scan_eq with ⟨t, l', hc, hscan⟩ | ⟨hnone, hstay⟩
      · rw [hscan] at hpass htaken ⊢
        refine ⟨t :: ts, .cons hc hpass, ?_⟩
        rw [Answer.taken?, if_neg hc.ne_endOfInput, Token.located, ← hc.column_eq]
        exact congrArg ((t, l.column) :: ·) htaken
      · rw [hstay] at hpass htaken
        rw [hnone, hstay]
        exact ⟨ts, hpass, htaken⟩

end Lexer

end Propositional

import Propositional.Proofs.Text.ByteLexer
import Propositional.Proofs.Text.Streams

/-!
# Nothing Is Lost in Reading

A lexer that is called any number of times, and a parser that is asked any number of questions,
which may fail, divide the text into the tokens that have been read and what remains.

A parser reads its text through the calls that it makes of its lexer (`Parser.asked`). Wherever it
stands, its lexer stands where these calls alone have led (`Reader.scans_asked`), so that all that
is said of sequences of calls (`Lossless`) is said of parsers as well. What is different about
parsers is that they refuse tokens. A token has been read when it is refused; at a character that
begins no token, at an incomplete arrow and at the end of the text nothing has
(`Reader.leaves_asked`).

## Main definitions

* `Lossless`: the text is divided into what calls have taken and what remains.
* `Parser.Call`, `Parser.history`: questions to a parser, and the calls of its lexer that it makes.

## Main results

* `lossless_scans`: any number of calls of a lexer.
* `Reader.scans_asked`, `Reader.leaves_asked`: the calls that a run of a reader makes.
* `reading_lossless`: lexers and parsers.
-/

namespace Propositional

/-! ### What has been read, in bytes -/

namespace Lexer

section Passes

variable {s : String} {ts : List Token} {l : Lexer}

/-- The bytes that were read are those before the column. -/
theorem Passes.length_bytes_written (h : (ofString s).Passes ts l) :
    (bytes (Token.written ts)).length = l.column - 1 := by
  have hcolumn := h.column_eq_written
  omega

/-- The offset of the lexer is between two characters. -/
theorem Passes.isValid (h : (ofString s).Passes ts l) :
    String.Pos.Raw.IsValid s ⟨l.column - 1⟩ := by
  rw [← String.Pos.Raw.isValid_eq_true_iff, ← h.length_bytes_written]
  exact isValid_iff_exists_append.mpr ⟨Token.written ts, l.remaining, h.written_append.symm, rfl⟩

/-- Before it are the tokens, -/
theorem Passes.slice?_before (h : (ofString s).Passes ts l) :
    slice? s 0 (l.column - 1) = some (Token.written ts) := by
  rw [← h.length_bytes_written]
  refine slice?_eq_some_iff.mpr ⟨"", l.remaining, ?_, rfl, (Nat.zero_add _).symm⟩
  rw [String.empty_append, h.written_append]

/-- and after it is what remains. -/
theorem Passes.slice?_after (h : (ofString s).Passes ts l) :
    slice? s (l.column - 1) (bytes s).length = some l.remaining := by
  rw [← h.length_bytes_written]
  refine slice?_eq_some_iff.mpr ⟨Token.written ts, "", ?_, rfl, ?_⟩
  · rw [String.append_empty, h.written_append]
  · rw [← List.length_append, ← bytes_append, h.written_append]

/-- There are no more tokens than bytes. -/
theorem Passes.length_le (h : (ofString s).Passes ts l) : ts.length ≤ (bytes s).length := by
  calc ts.length ≤ (Token.chars ts).length := Token.length_le_length_chars h.wellFormed
    _ = (bytes (Token.written ts)).length := by
      rw [← Token.length_bytes_chars h.wellFormed, ← Token.toList_written, String.ofList_toList]
    _ ≤ (bytes s).length := by
      rw [← h.written_append, bytes_append, List.length_append]
      exact Nat.le_add_right _ _

end Passes

/-- A call that fails, and a call that finds the end of the text, takes nothing. -/
theorem scan_stays {l : Lexer} (h : (∃ e, l.scan.1 = .error e) ∨
    ∃ column, l.scan.1 = .ok (.endOfInput, column)) : l.scan.2 = l := by
  rcases l.scan_eq with ⟨t, l', hc, hscan⟩ | ⟨-, hstay⟩
  · rw [hscan] at h
    obtain ⟨e, he⟩ | ⟨column, hend⟩ := h
    · cases he
    · cases hend
      exact absurd rfl hc.ne_endOfInput
  · exact hstay

end Lexer

/-! ### Any number of calls -/

/-- Calls of the lexer of the text `s` were answered like this and have led to `l`, and what they
have taken and what remains are the text. -/
structure Lossless (s : String) (answers : List Lexer.Answer) (l : Lexer) : Prop where
  /-- The lexer answers like this, -/
  scans_eq : (Lexer.ofString s).scans answers.length = (answers, l)
  /-- and so does the lexer by bytes, without cutting any character. -/
  scans?_eq : (ByteLexer.ofString s).scans? answers.length = some (answers, ⟨s, l.column - 1⟩)
  /-- The texts of the tokens that were taken and what remains are the text, -/
  append_eq : Token.written ((Lexer.taken answers).map Prod.fst) ++ l.remaining = s
  /-- which is divided between two characters, at the offset of the lexer. -/
  isValid : String.Pos.Raw.IsValid s ⟨l.column - 1⟩
  consumed_eq : slice? s 0 (l.column - 1) =
    some (Token.written ((Lexer.taken answers).map Prod.fst))
  remaining_eq : slice? s (l.column - 1) (bytes s).length = some l.remaining
  /-- The column of the lexer comes after the bytes of the tokens, -/
  column_eq : l.column = 1 + (bytes (Token.written ((Lexer.taken answers).map Prod.fst))).length
  /-- and that of a token after those of the tokens before it. -/
  position_eq : ∀ {before t column after}, Lexer.taken answers = before ++ (t, column) :: after →
    column = 1 + (bytes (Token.written (before.map Prod.fst))).length
  /-- A variable has a valid name, and no digit comes after it. -/
  name_eq : ∀ {before x column after}, Lexer.taken answers = before ++ (.var x, column) :: after →
    isVariable x = true ∧ NoDigitAhead (Token.chars (after.map Prod.fst) ++ l.rest)
  /-- There are no more tokens than bytes. -/
  length_le : (Lexer.taken answers).length ≤ (bytes s).length
  /-- If the next call fails, or finds the end of the text, then it takes nothing. -/
  stays : (∃ e, l.scan.1 = .error e) ∨ (∃ column, l.scan.1 = .ok (.endOfInput, column)) →
    l.scan.2 = l

/-- **Nothing is lost by any number of calls of a lexer.** -/
theorem lossless_scans (s : String) (n : Nat) :
    Lossless s ((Lexer.ofString s).scans n).1 ((Lexer.ofString s).scans n).2 := by
  have hlength := Lexer.length_scans n (Lexer.ofString s)
  obtain ⟨ts, hpass, htaken⟩ := Lexer.scans_passes n (Lexer.ofString s)
  obtain ⟨⟨input, offset⟩, hscans, hinput, hat⟩ := (ByteLexer.at_ofString s).scans?_eq n
  have hinput : input = s := hinput
  rcases hcalls : (Lexer.ofString s).scans n with ⟨answers, l⟩
  rw [hcalls] at hlength hpass htaken hscans hat
  dsimp only at hlength hpass htaken hscans hat ⊢
  have htokens : (Lexer.taken answers).map Prod.fst = ts := by
    rw [htaken, Token.map_fst_located]
  have hsplit : ∀ {before t column after}, Lexer.taken answers = before ++ (t, column) :: after →
      ts = before.map Prod.fst ++ t :: after.map Prod.fst := by
    intro before t column after h
    rw [← htokens, h, List.map_append, List.map_cons]
  exact {
    scans_eq := by rw [hlength, hcalls]
    scans?_eq := by
      rw [hlength, hscans, hinput, ← hat.column_eq]
      rfl
    append_eq := by rw [htokens, hpass.written_append]
    isValid := hpass.isValid
    consumed_eq := by rw [htokens, hpass.slice?_before]
    remaining_eq := hpass.slice?_after
    column_eq := by rw [htokens, hpass.column_eq_written]
    position_eq := by
      intro before t column after h
      have hwf : ∀ u ∈ before.map Prod.fst, u.WellFormed := fun u hu =>
        hpass.wellFormed u (hsplit h ▸ List.mem_append_left _ hu)
      rw [Token.column_of_located_eq (htaken.symm.trans h), ← Token.length_bytes_chars hwf,
        ← Token.toList_written, String.ofList_toList]
      rfl
    name_eq := by
      intro before x column after h
      rw [hsplit h] at hpass
      exact ⟨hpass.wellFormed _ (List.mem_append_right _ List.mem_cons_self),
        hpass.endsBefore_of_append⟩
    length_le := by
      rw [← List.length_map Prod.fst, htokens]
      exact hpass.length_le
    stays := Lexer.scan_stays }

/-! ### The calls of a reader -/

namespace Reader

variable {σ : Type}

/-- What the lexer answers to the calls that a run makes. -/
def asked (r : Reader σ) (limit : Option Nat) (s : σ) (l : Lexer) : List Lexer.Answer :=
  match r.result? s with
  | some _ => []
  | none =>
    match r.exceeded? limit s with
    | some _ => []
    | none =>
      l.scan.1 ::
        match _next : l.next with
        | .error _ => []
        | .ok (token, l') =>
          match r.feed s token with
          | none => []
          | some s' => asked r limit s' l'
termination_by l.rest.length
decreasing_by exact Lexer.length_next _next

/-- The calls of one round. -/
theorem asked_eq (r : Reader σ) (limit : Option Nat) (s : σ) (l : Lexer) :
    r.asked limit s l =
      match r.result? s with
      | some _ => []
      | none =>
        match r.exceeded? limit s with
        | some _ => []
        | none =>
          l.scan.1 ::
            match l.next with
            | .error _ => []
            | .ok (token, l') =>
              match r.feed s token with
              | none => []
              | some s' => r.asked limit s' l' := by
  rw [asked]
  split
  · rfl
  · split
    · rfl
    · split <;> rename_i h <;> simp only [h]

/-- **A run stops where its calls of the lexer have led.** -/
theorem scans_asked (r : Reader σ) (limit : Option Nat) (s : σ) (l : Lexer) :
    l.scans (r.asked limit s l).length = (r.asked limit s l, (r.run limit s l).2) := by
  fun_induction Reader.run r limit s l with
  | case1 s l f hres =>
      simp only [asked_eq, hres]
      rfl
  | case2 s l hres d hdeep =>
      simp only [asked_eq, hres, hdeep]
      rfl
  | case3 s l hres hdeep e hnext =>
      simp only [asked_eq, hres, hdeep, hnext, List.length_singleton, Lexer.scans,
        Lexer.scan_snd_of_next_eq_error hnext]
  | case4 s l hres hdeep t l' hnext hfeed =>
      have hscan := (Lexer.next_eq_ok_iff.mp hnext).scan_eq
      simp only [asked_eq, hres, hdeep, hnext, hfeed, hscan, List.length_singleton, Lexer.scans]
  | case5 s l hres hdeep t l' hnext s' hfeed ih =>
      have hscan := (Lexer.next_eq_ok_iff.mp hnext).scan_eq
      rw [asked_eq]
      simp only [hres, hdeep, hnext, hfeed, hscan, List.length_cons, Lexer.scans, ih]

/-- What an error leaves behind. A token that was refused has been taken, as the last one; in front
of anything else that is reported the lexer has stopped, and if it was called there in vain, then it
would be so again. -/
def Leaves (e : SyntaxError) (answers : List Lexer.Answer) (l : Lexer) : Prop :=
  match e.fault with
  | .unexpectedToken t => (Lexer.taken answers).getLast? = some (t, e.column)
  | .unexpectedChar _ | .incompleteArrow | .unexpectedEnd =>
      e.column = l.column ∧ answers.getLast? = some l.scan.1 ∧ l.next = .error e
  | .trailingInput _ | .tooDeep _ => e.column = l.column

/-- Calls that were made before do not matter for this. -/
theorem Leaves.append {e : SyntaxError} {answers : List Lexer.Answer} {l : Lexer}
    (h : Leaves e answers l) (earlier : List Lexer.Answer) : Leaves e (earlier ++ answers) l := by
  obtain ⟨fault, column⟩ := e
  cases fault with
  | unexpectedToken t =>
      change (Lexer.taken answers).getLast? = some (t, column) at h
      rw [Leaves, Lexer.taken_append, List.getLast?_append, h]
      rfl
  | unexpectedChar c | incompleteArrow | unexpectedEnd =>
      obtain ⟨hcolumn, hlast, hnext⟩ := h
      refine ⟨hcolumn, ?_, hnext⟩
      rw [List.getLast?_append, hlast]
      rfl
  | trailingInput rest | tooDeep d => exact h

/-- What a call in vain leaves behind. -/
theorem leaves_of_next_eq_error {l : Lexer} {e : SyntaxError} (h : l.next = .error e) :
    Leaves e [l.scan.1] l := by
  rcases Lexer.next_eq_error_iff.mp h with ⟨-, rfl⟩ | ⟨cs, -, -, rfl⟩ | ⟨c, cs, -, -, rfl⟩
  all_goals exact ⟨rfl, rfl, h⟩

/-- **What the error of a run leaves behind.** -/
theorem leaves_asked {r : Reader σ} {limit : Option Nat} {s : σ} {l : Lexer} {e : SyntaxError}
    (h : (r.run limit s l).1 = .error e) :
    Leaves e (r.asked limit s l) (r.run limit s l).2 := by
  fun_induction Reader.run r limit s l with
  | case1 s l f hres => cases h
  | case2 s l hres d hdeep =>
      cases h
      rfl
  | case3 s l hres hdeep e hnext =>
      cases h
      simp only [asked_eq, hres, hdeep, hnext]
      exact leaves_of_next_eq_error hnext
  | case4 s l hres hdeep t l' hnext hfeed =>
      cases h
      have hc := Lexer.next_eq_ok_iff.mp hnext
      simp only [asked_eq, hres, hdeep, hnext, hfeed, hc.scan_eq, Leaves,
        Lexer.taken_singleton hc.ne_endOfInput]
      rfl
  | case5 s l hres hdeep t l' hnext s' hfeed ih =>
      rw [asked_eq]
      simp only [hres, hdeep, hnext, hfeed]
      exact (ih h).append [l.scan.1]

end Reader

/-! ### The calls of a parser -/

namespace Parser

/-- What a parser can be asked: for a formula in one of the notations, or whether the text has
ended. -/
inductive Call
  | formula (form : TextForm)
  | expectEnd

/-- What the parser answers, and the parser after that. There is no formula at the end. -/
def answer (p : Parser) : Call → Except SyntaxError (Option Formula) × Parser
  | .formula form => ((p.read form).1.map some, (p.read form).2)
  | .expectEnd => (p.expectEnd.map fun _ => none, p)

/-- What the lexer of the parser answers to its calls. -/
def asked (p : Parser) : Call → List Lexer.Answer
  | .formula .standard => Standard.reader.asked p.maxDepth Standard.reader.start p.lexer
  | .formula .polish => Polish.reader.asked p.maxDepth Polish.reader.start p.lexer
  | .expectEnd => []

/-- What the lexer has answered after questions to the parser, and the parser after them. -/
def history (p : Parser) : List Call → List Lexer.Answer × Parser
  | [] => ([], p)
  | call :: calls =>
      (p.asked call ++ ((p.answer call).2.history calls).1, ((p.answer call).2.history calls).2)

/-- A parser stands where the calls of its lexer have led. -/
theorem scans_asked (p : Parser) (call : Call) :
    p.lexer.scans (p.asked call).length = (p.asked call, (p.answer call).2.lexer) := by
  cases call with
  | formula form =>
      cases form with
      | standard => exact Standard.reader.scans_asked p.maxDepth Standard.reader.start p.lexer
      | polish => exact Polish.reader.scans_asked p.maxDepth Polish.reader.start p.lexer
  | expectEnd => rfl

/-- So it does after any questions. -/
theorem scans_history (p : Parser) (calls : List Call) :
    p.lexer.scans (p.history calls).1.length =
      ((p.history calls).1, (p.history calls).2.lexer) := by
  induction calls generalizing p with
  | nil => rfl
  | cons call calls ih =>
      rw [history, List.length_append, Lexer.scans_add, p.scans_asked, ih]

/-- What an error of a parser leaves behind. -/
theorem leaves_answer {p : Parser} {call : Call} {e : SyntaxError}
    (h : (p.answer call).1 = .error e) :
    Reader.Leaves e (p.asked call) (p.answer call).2.lexer := by
  cases call with
  | formula form =>
      have hread : (p.read form).1 = .error e := by
        rw [answer] at h
        rcases hresult : (p.read form).1 with e' | f
        · rw [hresult] at h
          cases h
          rfl
        · rw [hresult] at h
          cases h
      cases form with
      | standard => exact Reader.leaves_asked hread
      | polish => exact Reader.leaves_asked hread
  | expectEnd =>
      rw [answer, expectEnd] at h
      split at h
      · cases h
      · cases h
        rfl

end Parser

/-- **Nothing is lost in reading, and no character is split.** Let a lexer over any text be called
any number of times, or a parser over it be asked any questions, some of which may fail. What has
been read is the texts of the tokens that were taken, each of them at the column after the bytes of
those before it, and with what remains it is the text, which is divided there between two
characters. Every variable that was read has a valid name and is not followed by a digit, and there
are no more tokens than bytes. Calls that fail and calls at the end take nothing. If the parser
fails, then a token that it refuses has been taken, and otherwise it stands at the column of the
error. -/
theorem reading_lossless (s : String) :
    (∀ n answers l, (Lexer.ofString s).scans n = (answers, l) → Lossless s answers l) ∧
    ∀ limit calls answers p, (Parser.ofString s limit).history calls = (answers, p) →
      Lossless s answers p.lexer ∧
        ∀ call e q, p.answer call = (.error e, q) → Reader.Leaves e (p.asked call) q.lexer := by
  have hlexer : ∀ n answers l, (Lexer.ofString s).scans n = (answers, l) →
      Lossless s answers l := by
    intro n answers l h
    have hlossless := lossless_scans s n
    rwa [h] at hlossless
  refine ⟨hlexer, fun limit calls answers p h => ⟨?_, fun call e q hq => ?_⟩⟩
  · have hcalls := (Parser.ofString s limit).scans_history calls
    rw [h] at hcalls
    exact hlexer _ _ _ hcalls
  · have hfails : (p.answer call).1 = .error e := congrArg Prod.fst hq
    have hleaves := Parser.leaves_answer hfails
    rwa [hq] at hleaves

/-- A formula is read in front of a character of two bytes, where the next question fails. -/
example : ((Parser.ofString "~p1λ(q").history [.formula .standard, .formula .polish]).1 =
    [.ok (.operator .negation, 1), .ok (.var "p1", 2), .error ⟨.unexpectedChar 'λ', 4⟩] := by
  cbv

end Propositional

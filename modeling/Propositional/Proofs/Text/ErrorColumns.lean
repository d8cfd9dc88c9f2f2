import Propositional.Proofs.Text.ByteOrder
import Propositional.Proofs.Text.PolishNotation
import Propositional.Proofs.Text.StandardNotation

/-!
# Where a Text Leaves the Formulas

An error is reported at the first column at which no formula goes on. What was read
before the column is the beginning of some formula (it can be completed), and no formula
begins with that and the reported character or token after it.

Both halves are statements about a state of the reader. The first one is that every state
can be led to a result: the operations that are open are closed one by one, with a
variable wherever an operand is missing. For the second one let a formula begin with the
bytes in question. Its own text is read without an error, and this run comes through the
very same state, since a state depends only on the tokens before it and these end where
they did. But there the reader finds what it refused before: a character that begins no
token, the same token, or, if it refused a variable, a variable with perhaps more digits,
and no state tells variables apart.

## Main results

* `Reader.Reads.run_continuation`: the text of a formula that begins with the tokens fed so
  far is read on from the state after them.
* `Reader.Reads.locatedIn`: the errors of a reader are located in its notation.
* `locatedIn_of_error`: so are those of the parsers of both notations.
-/

namespace Propositional

/-! ### The place of an error -/

/-- Some formula is written with these bytes first. -/
def Opens (write : Formula → String) (start : List UInt8) : Prop :=
  ∃ f : Formula, f.WellFormed ∧ start <+: bytes (write f)

/-- What the reader reports to have found where no formula has it. -/
def SyntaxFault.offender? : SyntaxFault → Option String
  | unexpectedChar c => some (String.singleton c)
  | unexpectedToken t => some t.text
  | trailingInput rest => some (String.ofList (rest.toList.take 1))
  | incompleteArrow | unexpectedEnd | tooDeep _ => none

namespace SyntaxError

/-- The bytes of the text before the column of the error. -/
def before (e : SyntaxError) (s : String) : List UInt8 :=
  (bytes s).take (e.column - 1)

/-- The error is located at the place where the text leaves the formulas of the
notation. -/
structure LocatedIn (e : SyntaxError) (write : Formula → String) (s : String) : Prop where
  /-- The column is a place in the text, or the place after its last byte. -/
  column_mem : 1 ≤ e.column ∧ e.column ≤ (bytes s).length + 1
  /-- Up to the column the text can be completed to a formula. -/
  opens : Opens write (e.before s)
  /-- What is reported stands at the column, -/
  stands : ∀ found ∈ e.fault.offender?, bytes found <+: (bytes s).drop (e.column - 1)
  /-- and with it nothing is the beginning of a formula any more. -/
  refused : ∀ found ∈ e.fault.offender?, ¬ Opens write (e.before s ++ bytes found)
  /-- An unexpected end is that of the text. -/
  at_end : e.fault = .unexpectedEnd → e.column = (bytes s).length + 1
  /-- An incomplete arrow is a `-` without a `>` after it. -/
  at_dash : e.fault = .incompleteArrow →
    (bytes s)[e.column - 1]? = some '-'.toUInt8 ∧ (bytes s)[e.column]? ≠ some '>'.toUInt8

end SyntaxError

/-! ### Tokens as bytes -/

/-- Texts that are made of tokens are written in ASCII characters. -/
theorem Token.val_le_of_mem_chars {ts : List Token} (h : ∀ t ∈ ts, t.WellFormed) :
    ∀ c ∈ Token.chars ts, c.val ≤ 127 :=
  fun c hc => (printable_of_mem_chars h c hc).2

/-- So these have as many bytes as characters. -/
theorem Token.length_bytes_chars {ts : List Token} (h : ∀ t ∈ ts, t.WellFormed) :
    (bytes (String.ofList (Token.chars ts))).length = (Token.chars ts).length :=
  length_bytes_ofList (Token.val_le_of_mem_chars h)

namespace Reader

variable {σ : Type}

/-! ### Readers that stop in time -/

/-- Every state that the reader comes to can be led to a result, and whether it takes a
variable does not depend on the name. -/
structure Viable (r : Reader σ) (tokens : Formula → List Token) : Prop where
  completes : ∀ {ts s}, r.feedAll r.start ts = some s →
    ∃ us f, (∀ u ∈ us, u.WellFormed) ∧ tokens f = ts ++ us
  refuses_var : ∀ {s x}, r.feed s (.var x) = none → ∀ y, r.feed s (.var y) = none

variable {r : Reader σ} {tokens : Formula → List Token} {write : Formula → String}

/-- Tokens that the reader takes open a formula. -/
theorem Viable.opens (h : r.Viable tokens) (hw : Spelling write tokens) {ts : List Token} {s : σ}
    (hwf : ∀ t ∈ ts, t.WellFormed) (hfeed : r.feedAll r.start ts = some s) :
    Opens write (bytes (String.ofList (Token.chars ts))) := by
  obtain ⟨us, f, hus, hf⟩ := h.completes hfeed
  refine ⟨f, (hw.wellFormed_iff f).mp ?_, ?_⟩
  · rw [hf]
    exact List.forall_mem_append.mpr ⟨hwf, hus⟩
  · rw [bytes_prefix_iff, hw.toList_write, hf, Token.chars_append, String.toList_ofList]
    exact List.prefix_append _ _

/-- The text of a formula that begins with the tokens fed so far is read on from the state
after them, up to its end. -/
theorem Reads.run_continuation (h : r.Reads tokens) (hw : Spelling write tokens)
    {ts : List Token} {s : σ} (hwf : ∀ t ∈ ts, t.WellFormed)
    (hfeed : r.feedAll r.start ts = some s) {f : Formula} (hf : f.WellFormed) {more : List Char}
    (hends : ∀ t ∈ ts.getLast?, t.EndsBefore more)
    (htext : (write f).toList = Token.chars ts ++ more) :
    ∃ l', r.run none s ⟨1 + (Token.chars ts).length, more⟩ = (.ok f, l') ∧ l'.rest = [] := by
  have hwhole : r.whole none (write f) = .ok f := (h.whole_eq_ok_iff hw).mpr ⟨hf, rfl⟩
  obtain ⟨l', hrun, hend⟩ := Reader.whole_eq_ok_iff.mp hwhole
  have hsteps := h.steps_of_passes (Lexer.Passes.of_append hwf hends 1) hfeed
  refine ⟨l', ?_, hend⟩
  rw [← hsteps.run_eq, ← htext]
  exact hrun

/-- No run from the state gets past the characters to the end of a text. -/
def StuckAt (r : Reader σ) (s : σ) (found : List Char) : Prop :=
  ∀ column more f l', r.run none s ⟨column, found ++ more⟩ = (.ok f, l') → l'.rest ≠ []

/-- Where a token is expected, no run gets past a character that begins none. -/
theorem stuckAt_of_not_beginsToken {s : σ} {c : Char} (hres : r.result? s = none)
    (hc : ¬ Lexer.BeginsToken c) : r.StuckAt s [c] := by
  intro column more f l' hrun
  have hnext : Lexer.next ⟨column, [c] ++ more⟩ = .error ⟨.unexpectedChar c, column⟩ :=
    Lexer.next_eq_error_iff.mpr (.inr (.inr ⟨c, more, rfl, hc, rfl⟩))
  rw [Reader.run_eq, hres, hnext] at hrun
  cases hrun

/-- No run gets past a token that the state refuses. -/
theorem Viable.stuckAt_of_refused (h : r.Viable tokens) {s : σ} {t : Token}
    (hres : r.result? s = none) (hwf : t.WellFormed) (hfeed : r.feed s t = none) :
    r.StuckAt s t.text.toList := by
  intro column more f l' hrun
  rcases hnext : Lexer.next ⟨column, t.text.toList ++ more⟩ with e | ⟨u, l''⟩
  · rw [Reader.run_eq, hres, hnext] at hrun
    cases hrun
  · have hu : r.feed s u = none := by
      rcases Lexer.eq_or_var_of_next hwf hnext with rfl | ⟨x, y, rfl, rfl⟩
      · exact hfeed
      · exact h.refuses_var hfeed y
    rw [Reader.run_eq, hres, hnext] at hrun
    simp only [exceeded?, Option.filter_none, hu] at hrun
    cases hrun

/-- No run gets past anything where it already has its result. -/
theorem stuckAt_of_result {s : σ} {g : Formula} (hres : r.result? s = some g) (c : Char) :
    r.StuckAt s [c] := by
  intro column more f l' hrun
  rw [Reader.run_eq, hres] at hrun
  obtain ⟨-, rfl⟩ := Prod.mk.inj hrun
  exact List.cons_ne_nil c more

/-- After tokens that lead to a state, what the state is stuck at is the beginning of no
formula. -/
theorem Reads.not_opens (h : r.Reads tokens) (hw : Spelling write tokens) {ts : List Token}
    {s : σ} (hwf : ∀ t ∈ ts, t.WellFormed) (hfeed : r.feedAll r.start ts = some s)
    {found : String} (hends : ∀ more, ∀ t ∈ ts.getLast?, t.EndsBefore (found.toList ++ more))
    (hstuck : r.StuckAt s found.toList) :
    ¬ Opens write (bytes (String.ofList (Token.chars ts)) ++ bytes found) := by
  rintro ⟨f, hf, hprefix⟩
  rw [← bytes_append, bytes_prefix_iff, String.toList_append, String.toList_ofList] at hprefix
  obtain ⟨more, hmore⟩ := hprefix
  rw [List.append_assoc] at hmore
  obtain ⟨l', hrun, hend⟩ := h.run_continuation hw hwf hfeed hf (hends more) hmore.symm
  exact hstuck _ _ _ _ hrun hend

/-! ### Where a run stops -/

/-- What precedes the place where a run stops, and what stands there. -/
theorem bytes_of_passes {s : String} {ts : List Token} {l : Lexer}
    (hpass : (Lexer.ofString s).Passes ts l) :
    (bytes s).take (l.column - 1) = bytes (String.ofList (Token.chars ts)) ∧
      (bytes s).drop (l.column - 1) = bytes (String.ofList l.rest) ∧
      l.column = (bytes (String.ofList (Token.chars ts))).length + 1 := by
  have hcolumn : l.column = (bytes (String.ofList (Token.chars ts))).length + 1 := by
    rw [Token.length_bytes_chars hpass.wellFormed, hpass.column_eq, Nat.add_comm]
    rfl
  have hsplit : bytes s =
      bytes (String.ofList (Token.chars ts)) ++ bytes (String.ofList l.rest) := by
    rw [← bytes_append, ← String.ofList_append, ← hpass.rest_eq, Lexer.ofString,
      String.ofList_toList]
  have hlength : l.column - 1 = (bytes (String.ofList (Token.chars ts))).length := by omega
  rw [hlength, hsplit]
  exact ⟨List.take_left, List.drop_left, hcolumn⟩

/-- A `-` without a `>` after it, byte by byte. -/
theorem bytes_of_incomplete_arrow {cs : List Char} (h : cs.head? ≠ some '>') :
    (bytes (String.ofList ('-' :: cs)))[0]? = some '-'.toUInt8 ∧
      (bytes (String.ofList ('-' :: cs)))[1]? ≠ some '>'.toUInt8 := by
  have hcons : bytes (String.ofList ('-' :: cs)) = '-'.toUInt8 :: bytes (String.ofList cs) := by
    rw [bytes_eq, bytes_eq, String.toList_ofList, String.toList_ofList]
    rfl
  rw [hcons, List.getElem?_cons_succ]
  refine ⟨rfl, fun hgt => h ?_⟩
  rw [← List.head?_eq_getElem?, List.head?_eq_some_iff] at hgt
  obtain ⟨more, hmore⟩ := hgt
  have hprefix : bytes ">" <+: bytes (String.ofList cs) := ⟨more, hmore.symm⟩
  simp only [bytes_prefix_iff, String.toList_ofList] at hprefix
  obtain ⟨more, rfl⟩ := hprefix
  rfl

/-- An error at the place where a run stops is located there, if the reader is stuck at
what is reported. -/
theorem Reads.locatedIn_of_passes (h : r.Reads tokens) (hw : Spelling write tokens)
    (hv : r.Viable tokens) {s : String} {ts : List Token} {st : σ} {l : Lexer} {e : SyntaxError}
    (hpass : (Lexer.ofString s).Passes ts l) (hfeed : r.feedAll r.start ts = some st)
    (hcolumn : e.column = l.column)
    (hfound : ∀ found ∈ e.fault.offender?,
      found.toList ≠ [] ∧ found.toList <+: l.rest ∧ r.StuckAt st found.toList)
    (hend : e.fault = .unexpectedEnd → l.rest = [])
    (hdash : e.fault = .incompleteArrow → ∃ cs, l.rest = '-' :: cs ∧ cs.head? ≠ some '>') :
    e.LocatedIn write s := by
  obtain ⟨htake, hdrop, hplace⟩ := bytes_of_passes hpass
  rw [← hcolumn] at htake hdrop hplace
  have hlength : (bytes s).length =
      (bytes (String.ofList (Token.chars ts))).length + (bytes (String.ofList l.rest)).length := by
    rw [← htake, ← hdrop, ← List.length_append, List.take_append_drop]
  refine ⟨⟨by omega, by omega⟩, ?_, ?_, ?_, ?_, ?_⟩
  · rw [SyntaxError.before, htake]
    exact hv.opens hw hpass.wellFormed hfeed
  · intro found hmem
    rw [hdrop, bytes_prefix_iff, String.toList_ofList]
    exact (hfound found hmem).2.1
  · intro found hmem
    obtain ⟨hne, ⟨after, hafter⟩, hstuck⟩ := hfound found hmem
    rw [SyntaxError.before, htake]
    refine h.not_opens hw hpass.wellFormed hfeed (fun more t ht => ?_) hstuck
    -- Whether the last token ends depends on the next character, and that is the same.
    refine (hpass.endsBefore t ht).congr ?_
    obtain ⟨c, cs, hcons⟩ := List.exists_cons_of_ne_nil hne
    rw [← hafter, hcons]
    rfl
  · intro hfault
    have hnil : bytes (String.ofList l.rest) = [] := by rw [hend hfault]; rfl
    rw [hlength, hnil, hplace, List.length_nil, Nat.add_zero]
  · intro hfault
    obtain ⟨cs, hcs, hhead⟩ := hdash hfault
    have hget : ∀ k, (bytes s)[e.column - 1 + k]? = (bytes (String.ofList ('-' :: cs)))[k]? :=
      fun k => by rw [← hcs, ← hdrop, List.getElem?_drop]
    have hnext : e.column = e.column - 1 + 1 := by omega
    rw [hnext, hget 1]
    exact ⟨(hget 0).trans (bytes_of_incomplete_arrow hhead).1, (bytes_of_incomplete_arrow hhead).2⟩

/-- **The errors of a reader are located in its notation.** -/
theorem Reads.locatedIn (h : r.Reads tokens) (hw : Spelling write tokens) (hv : r.Viable tokens)
    {s : String} {e : SyntaxError} (he : r.whole none s = .error e) : e.LocatedIn write s := by
  obtain ⟨ts, st, l, hsteps, hhalts⟩ := r.exists_halts none r.start (.ofString s)
  have hstop := fun e => h.locatedIn_of_passes hw hv hsteps.passes hsteps.feedAll_eq (e := e)
  rcases Reader.whole_eq_error_iff.mp he with ⟨l', hrun⟩ | ⟨f, l', hrun, hrest, rfl⟩
  · rw [hrun] at hhalts
    cases hhalts with
    | tooDeep _ hlimit => exact absurd hlimit (by simp [exceeded?])
    | unreadable hres _ hnext =>
        rcases Lexer.next_eq_error_iff.mp hnext with ⟨hnil, rfl⟩ | ⟨cs, hcs, hhead, rfl⟩ |
          ⟨c, cs, hcs, hc, rfl⟩
        · exact hstop _ rfl (by simp [SyntaxFault.offender?]) (fun _ => hnil) (by simp)
        · exact hstop _ rfl (by simp [SyntaxFault.offender?]) (by simp)
            (fun _ => ⟨cs, hcs, hhead⟩)
        · refine hstop _ rfl ?_ (by simp) (by simp)
          rintro found ⟨⟩
          rw [String.toList_singleton, hcs]
          exact ⟨by simp, ⟨cs, rfl⟩, stuckAt_of_not_beginsToken hres hc⟩
    | refused hres _ hc hfeed =>
        refine hstop _ rfl ?_ (by simp) (by simp)
        rintro found ⟨⟩
        rw [hc.rest_eq]
        exact ⟨hc.wellFormed.toList_text_ne_nil, List.prefix_append _ _,
          hv.stuckAt_of_refused hres hc.wellFormed hfeed⟩
  · rw [hrun] at hhalts
    cases hhalts with
    | done hres =>
        refine hstop _ rfl ?_ (by simp) (by simp)
        rintro found ⟨⟩
        obtain ⟨c, cs, hcs⟩ := List.exists_cons_of_ne_nil hrest
        simp only [Lexer.remaining, String.toList_ofList, hcs]
        exact ⟨by simp, ⟨cs, rfl⟩, stuckAt_of_result hres c⟩

end Reader

/-! ### Both notations -/

/-- A variable can stand wherever an operand is missing. -/
theorem Token.wellFormed_var_p : Token.WellFormed (.var "p") :=
  (by decide : isVariable "p" = true)

namespace Standard

/-- After a formula the operations that are open can be closed one by one. -/
theorem exists_completion (f : Formula) (pending : List Frame) :
    ∃ us g, (∀ u ∈ us, u.WellFormed) ∧
      Formula.standardTokens g = pendingTokens pending ++ f.standardTokens ++ us := by
  induction pending generalizing f with
  | nil => exact ⟨[], f, by simp, by simp [pendingTokens]⟩
  | cons frame pending ih =>
      cases frame with
      | negation =>
          obtain ⟨us, g, hus, hg⟩ := ih (.not f)
          refine ⟨us, g, hus, ?_⟩
          simp [hg, pendingTokens, Frame.tokens, Formula.standardTokens]
      | opened =>
          obtain ⟨us, g, hus, hg⟩ := ih (.binary .and f (.var "p"))
          refine ⟨.operator (.binary .and) :: .var "p" :: .closeParen :: us, g, ?_, ?_⟩
          · simp only [List.forall_mem_cons]
            exact ⟨trivial, Token.wellFormed_var_p, trivial, hus⟩
          · simp [hg, pendingTokens, Frame.tokens, Formula.standardTokens]
      | joined first c =>
          obtain ⟨us, g, hus, hg⟩ := ih (.binary c first f)
          refine ⟨.closeParen :: us, g, ?_, ?_⟩
          · simpa [Token.WellFormed] using hus
          · simp [hg, pendingTokens, Frame.tokens, Formula.standardTokens]

/-- What a state has been fed can be completed to the tokens of a formula. -/
theorem State.exists_completion (s : State) :
    ∃ us g, (∀ u ∈ us, u.WellFormed) ∧ Formula.standardTokens g = s.consumed ++ us := by
  cases s with
  | operand pending =>
      obtain ⟨us, g, hus, hg⟩ := Standard.exists_completion (.var "p") pending
      refine ⟨.var "p" :: us, g, ?_, ?_⟩
      · exact List.forall_mem_cons.mpr ⟨Token.wellFormed_var_p, hus⟩
      · simp [hg, consumed, Formula.standardTokens]
  | connective first pending =>
      obtain ⟨us, g, hus, hg⟩ := Standard.exists_completion first (.opened :: pending)
      refine ⟨us, g, hus, ?_⟩
      simp [hg, consumed, pendingTokens, Frame.tokens]
  | closing c first second pending =>
      obtain ⟨us, g, hus, hg⟩ := Standard.exists_completion second (.joined first c :: pending)
      refine ⟨us, g, hus, ?_⟩
      simp [hg, consumed, pendingTokens, Frame.tokens]
  | done f => exact ⟨[], f, by simp, by simp [consumed]⟩

/-- The reader of the standard notation stops in time. -/
theorem viable : reader.Viable Formula.standardTokens where
  completes hfeed := remembers.consumed_eq hfeed ▸ State.exists_completion _
  refuses_var := by
    intro s x h y
    cases s with
    | operand => exact absurd h (by simp [reader, feed])
    | connective | closing | done => rfl

end Standard

namespace Polish

/-- After a formula the operators that wait can be given what they lack. -/
theorem exists_completion (f : Formula) (pending : List Frame) :
    ∃ us g, (∀ u ∈ us, u.WellFormed) ∧
      Formula.polishTokens g = pendingTokens pending ++ f.polishTokens ++ us := by
  induction pending generalizing f with
  | nil => exact ⟨[], f, by simp, by simp [pendingTokens]⟩
  | cons frame pending ih =>
      cases frame with
      | negation =>
          obtain ⟨us, g, hus, hg⟩ := ih (.not f)
          refine ⟨us, g, hus, ?_⟩
          simp [hg, pendingTokens, Frame.tokens]
      | first c =>
          obtain ⟨us, g, hus, hg⟩ := ih (.binary c f (.var "p"))
          refine ⟨.var "p" :: us, g, ?_, ?_⟩
          · exact List.forall_mem_cons.mpr ⟨Token.wellFormed_var_p, hus⟩
          · simp [hg, pendingTokens, Frame.tokens]
      | second c first =>
          obtain ⟨us, g, hus, hg⟩ := ih (.binary c first f)
          refine ⟨us, g, hus, ?_⟩
          simp [hg, pendingTokens, Frame.tokens]

/-- What a state has been fed can be completed to the tokens of a formula. -/
theorem State.exists_completion (s : State) :
    ∃ us g, (∀ u ∈ us, u.WellFormed) ∧ Formula.polishTokens g = s.consumed ++ us := by
  cases s with
  | operand pending =>
      obtain ⟨us, g, hus, hg⟩ := Polish.exists_completion (.var "p") pending
      refine ⟨.var "p" :: us, g, ?_, ?_⟩
      · exact List.forall_mem_cons.mpr ⟨Token.wellFormed_var_p, hus⟩
      · simp [hg, consumed]
  | done f => exact ⟨[], f, by simp, by simp [consumed]⟩

/-- The reader of the polish notation stops in time. -/
theorem viable : reader.Viable Formula.polishTokens where
  completes hfeed := remembers.consumed_eq hfeed ▸ State.exists_completion _
  refuses_var := by
    intro s x h y
    cases s with
    | operand => exact absurd h (by simp [reader, feed])
    | done => rfl

end Polish

/-- **Errors are located where the text leaves the formulas.** Whatever text is parsed
without a limit on the depth, in either notation: the bytes before the column of an error
begin some formula of the notation; with the character, the token or the first of the
trailing characters that the error reports, which stand at the column, they begin none any
more; an unexpected end is reported after the last byte, and an incomplete arrow at a `-`
that no `>` follows. -/
theorem locatedIn_of_error (s : String) (e : SyntaxError) :
    (parse s = .error e → e.LocatedIn Formula.text s) ∧
      (parsePolish s = .error e → e.LocatedIn Formula.polish s) := by
  rw [parse_eq_whole, parsePolish_eq_whole]
  exact ⟨Standard.reads.locatedIn Formula.spelling_text Standard.viable,
    Polish.reads.locatedIn Formula.spelling_polish Polish.viable⟩

/-- A second connective inside a parenthesis, and a character behind a formula that needs
two bytes. -/
theorem locatedIn_of_error_two_texts :
    (parse "(p1&q|r)" = .error ⟨.unexpectedToken (.operator (.binary .or)), 6⟩ ∧
      SyntaxError.LocatedIn ⟨.unexpectedToken (.operator (.binary .or)), 6⟩ Formula.text
        "(p1&q|r)") ∧
    parsePolish "&p1qλ" = .error ⟨.trailingInput "λ", 5⟩ ∧
      SyntaxError.LocatedIn ⟨.trailingInput "λ", 5⟩ Formula.polish "&p1qλ" := by
  have hstandard : parse "(p1&q|r)" =
      .error ⟨.unexpectedToken (.operator (.binary .or)), 6⟩ := by with_unfolding_all rfl
  have hpolish : parsePolish "&p1qλ" = .error ⟨.trailingInput "λ", 5⟩ := by
    with_unfolding_all rfl
  exact ⟨⟨hstandard, (locatedIn_of_error _ _).1 hstandard⟩,
    hpolish, (locatedIn_of_error _ _).2 hpolish⟩

end Propositional

import Propositional.Analysis
import Propositional.Proofs.Construction.Nodes
import Propositional.Proofs.Text.Streams

/-!
# Reading with Checked Builders

A parser knows which connective stands between two operands, and can therefore build a
formula that has the right number of operands by construction. A `CheckedReader` does not
rely on that. It keeps the operators that wait with the list of the operands read so far
and has every node built by a checked builder, so that reading could fail with a
`FormulaError`: for a name that is no variable name, or for the wrong number of operands.

It never does (`CheckedReader.Follows.run_eq`). The names that the lexer reads are valid,
and an operator is handed to the builder when it has as many operands as its arity. This
is a simulation, in which each state of the reader is seen as a state of the checked one;
one lemma about a single token is all that a notation has to provide.

## Main results

* `CheckedReader.Follows.run_eq`: a checked reader does what its reader does.
* `checkedParse_eq`, `checkedParsePolish_eq`, `checkedParsePrefix_eq`: so do the checked
  parsers.
* `Reader.Reads.wellFormed_of_run`: what is read is well-formed.
-/

namespace Propositional

/-- An automaton that reads a formula from tokens and has its nodes built by checked
builders. -/
structure CheckedReader (τ : Type) where
  /-- The state before the first token. -/
  start : τ
  /-- The state after a token, or what is wrong with a node that is to be built then,
  unless the token is refused. -/
  feed : τ → Token → Option (Except FormulaError τ)
  /-- The formula that has been read, once it is complete. -/
  result? : τ → Option Formula
  /-- The number of operations around the operand that is about to be read, if one is. -/
  enclosing? : τ → Option Nat

namespace CheckedReader

variable {σ τ : Type}

/-- Feeds the automaton from the lexer until it has a result or an error occurs. -/
def run (c : CheckedReader τ) (limit : Option Nat) (s : τ) (l : Lexer) :
    Except Error Formula × Lexer :=
  match c.result? s with
  | some f => (.ok f, l)
  | none =>
    match limit.filter fun d => (c.enclosing? s).any (d ≤ ·) with
    | some d => (.error (.ofText ⟨.tooDeep d, l.column⟩), l)
    | none =>
      match _next : l.next with
      | .error e => (.error (.ofText e), l)
      | .ok (token, l') =>
        match c.feed s token with
        | none => (.error (.ofText ⟨.unexpectedToken token, l.column⟩), l')
        | some (.error e) => (.error (.ofParts e), l')
        | some (.ok s') => run c limit s' l'
termination_by l.rest.length
decreasing_by exact Lexer.length_next _next

/-- One round of reading. -/
theorem run_eq (c : CheckedReader τ) (limit : Option Nat) (s : τ) (l : Lexer) :
    c.run limit s l =
      match c.result? s with
      | some f => (.ok f, l)
      | none =>
        match limit.filter fun d => (c.enclosing? s).any (d ≤ ·) with
        | some d => (.error (.ofText ⟨.tooDeep d, l.column⟩), l)
        | none =>
          match l.next with
          | .error e => (.error (.ofText e), l)
          | .ok (token, l') =>
            match c.feed s token with
            | none => (.error (.ofText ⟨.unexpectedToken token, l.column⟩), l')
            | some (.error e) => (.error (.ofParts e), l')
            | some (.ok s') => c.run limit s' l' := by
  rw [run]
  split
  · rfl
  · split
    · rfl
    · split <;> rename_i hnext <;> simp only [hnext]

/-- Reads a text that is to be one formula, so nothing may remain after it. -/
def whole (c : CheckedReader τ) (limit : Option Nat) (s : String) : Except Error Formula :=
  match c.run limit c.start (.ofString s) with
  | (.error e, _) => .error e
  | (.ok f, l) =>
    if l.rest.isEmpty then .ok f else .error (.ofText ⟨.trailingInput l.remaining, l.column⟩)

/-- Reads a formula off the start of a text, and returns it with the rest. -/
def front (c : CheckedReader τ) (limit : Option Nat) (s : String) :
    Except Error (Formula × String) :=
  match c.run limit c.start (.ofString s) with
  | (.error e, _) => .error e
  | (.ok f, l) => .ok (f, l.remaining)

/-- The checked reader goes through the states of the reader, each seen as one of its own.
No builder fails for a token that can stand in a text. -/
structure Follows (c : CheckedReader τ) (r : Reader σ) (view : σ → τ) : Prop where
  start_eq : c.start = view r.start
  result?_eq : ∀ s, c.result? (view s) = r.result? s
  enclosing?_eq : ∀ s, c.enclosing? (view s) = r.enclosing? s
  feed_eq : ∀ {t : Token}, t.WellFormed → ∀ s,
    c.feed (view s) t = (r.feed s t).map fun s' => .ok (view s')

namespace Follows

variable {c : CheckedReader τ} {r : Reader σ} {view : σ → τ}

/-- **A checked reader does what its reader does**, so that no builder ever fails. -/
theorem run_eq (h : c.Follows r view) (limit : Option Nat) (s : σ) (l : Lexer) :
    c.run limit (view s) l =
      ((r.run limit s l).1.mapError .ofText, (r.run limit s l).2) := by
  fun_induction Reader.run r limit s l with
  | case1 s l f hres => simp only [CheckedReader.run_eq, h.result?_eq, hres, Except.mapError]
  | case2 s l hres d hdeep =>
      rw [Reader.exceeded?] at hdeep
      simp only [CheckedReader.run_eq, h.result?_eq, hres, h.enclosing?_eq, hdeep,
        Except.mapError]
  | case3 s l hres hdeep e hnext =>
      rw [Reader.exceeded?] at hdeep
      simp only [CheckedReader.run_eq, h.result?_eq, hres, h.enclosing?_eq, hdeep, hnext,
        Except.mapError]
  | case4 s l hres hdeep t l' hnext hfeed =>
      rw [Reader.exceeded?] at hdeep
      have hread := h.feed_eq (Lexer.next_eq_ok_iff.mp hnext).wellFormed s
      rw [hfeed, Option.map_none] at hread
      simp only [CheckedReader.run_eq, h.result?_eq, hres, h.enclosing?_eq, hdeep, hnext, hread,
        Except.mapError]
  | case5 s l hres hdeep t l' hnext s' hfeed ih =>
      rw [Reader.exceeded?] at hdeep
      have hread := h.feed_eq (Lexer.next_eq_ok_iff.mp hnext).wellFormed s
      rw [hfeed, Option.map_some] at hread
      rw [CheckedReader.run_eq]
      simp only [h.result?_eq, hres, h.enclosing?_eq, hdeep, hnext, hread, ih]

/-- A whole text is read alike. -/
theorem whole_eq (h : c.Follows r view) (limit : Option Nat) (s : String) :
    c.whole limit s = (r.whole limit s).mapError .ofText := by
  rw [whole, h.start_eq, h.run_eq, Reader.whole]
  rcases r.run limit r.start (.ofString s) with ⟨e | f, l⟩
  · rfl
  · simp only [Except.mapError]
    split <;> rfl

/-- A formula is read alike off the start of a text. -/
theorem front_eq (h : c.Follows r view) (limit : Option Nat) (s : String) :
    c.front limit s = (r.front limit s).mapError .ofText := by
  rw [front, h.start_eq, h.run_eq, Reader.front]
  rcases r.run limit r.start (.ofString s) with ⟨e | f, l⟩
  · rfl
  · rfl

end Follows

end CheckedReader

/-! ### The standard notation -/

namespace Standard

/-- An operation that was opened and is not finished, with its operator. -/
inductive CheckedFrame
  /-- A negation that waits for its operand. -/
  | negation
  /-- A parenthesis that waits for the first operand. -/
  | opened
  /-- A parenthesis with a first operand and an operator, that waits for the second
  operand. -/
  | joined (first : Formula) (op : Operator)

/-- The states of the checked reader. The operations that are open stand in `pending`,
innermost first. -/
inductive CheckedState
  /-- An operand is to be read. -/
  | operand (pending : List CheckedFrame)
  /-- The first operand of a parenthesis has been read. -/
  | connective (first : Formula) (pending : List CheckedFrame)
  /-- Both operands of a parenthesis have been read. -/
  | closing (op : Operator) (first second : Formula) (pending : List CheckedFrame)
  /-- A formula has been read and no operation is open. -/
  | done (f : Formula)

/-- The state after a formula has been read as the operand of the innermost open
operation. It ends every negation that waits for it, which no builder checks. -/
def checkedFinish (f : Formula) : List CheckedFrame → CheckedState
  | [] => .done f
  | .negation :: pending => checkedFinish (.not f) pending
  | .opened :: pending => .connective f pending
  | .joined first op :: pending => .closing op first f pending

/-- The state after a token, unless the token is refused: variables, constants and what
stands in parentheses are built by checked builders. -/
def checkedFeed : CheckedState → Token → Option (Except FormulaError CheckedState)
  | .operand pending, .var name =>
      some ((Formula.ofName? name).map (checkedFinish · pending))
  | .operand pending, .operator op =>
      if op.arity = 0 then some ((Formula.ofOperator? op []).map (checkedFinish · pending))
      else if op = .negation then some (.ok (.operand (.negation :: pending)))
      else none
  | .operand pending, .openParen => some (.ok (.operand (.opened :: pending)))
  | .connective f pending, .operator op =>
      if op.arity = 2 then some (.ok (.operand (.joined f op :: pending))) else none
  | .closing op f g pending, .closeParen =>
      some ((Formula.ofOperator? op [f, g]).map (checkedFinish · pending))
  | _, _ => none

/-- The checked reader of the standard notation. -/
def checkedReader : CheckedReader CheckedState where
  start := .operand []
  feed := checkedFeed
  result?
    | .done f => some f
    | _ => none
  enclosing?
    | .operand pending => some pending.length
    | _ => none

/-- An open operation as the checked reader keeps it. -/
def Frame.checked : Frame → CheckedFrame
  | negation => .negation
  | opened => .opened
  | joined first c => .joined first (.binary c)

/-- A state as a state of the checked reader. -/
def State.checked : State → CheckedState
  | operand pending => .operand (pending.map Frame.checked)
  | connective first pending => .connective first (pending.map Frame.checked)
  | closing c first second pending =>
      .closing (.binary c) first second (pending.map Frame.checked)
  | done f => .done f

/-- The same operations are ended by a formula. -/
theorem checked_finish (f : Formula) (pending : List Frame) :
    (finish f pending).checked = checkedFinish f (pending.map Frame.checked) := by
  induction pending generalizing f with
  | nil => rfl
  | cons frame pending ih =>
      cases frame with
      | negation => exact ih (.not f)
      | opened => rfl
      | joined first c => rfl

/-- **The checked reader of the standard notation follows the reader.** -/
theorem checkedReader_follows : checkedReader.Follows reader State.checked where
  start_eq := rfl
  result?_eq s := by cases s <;> rfl
  enclosing?_eq s := by
    cases s with
    | operand pending => exact congrArg some (List.length_map _)
    | connective | closing | done => rfl
  feed_eq := by
    intro t ht s
    have hbuilt (f : Formula) (pending : List Frame) :
        some (Except.ok (checkedFinish f (pending.map Frame.checked))) =
          (some (finish f pending)).map
            fun s' => (.ok s'.checked : Except FormulaError CheckedState) := by
      rw [Option.map_some, checked_finish]
    cases s with
    | operand pending =>
        cases t with
        | var name =>
            have hname : Formula.ofName? name = .ok (.var name) := if_pos ht
            change some ((Formula.ofName? name).map _) = _
            rw [hname]
            exact hbuilt (.var name) pending
        | operator op =>
            rcases op with value | - | c
            · exact hbuilt (.const value) pending
            · rfl
            · rfl
        | openParen | closeParen | endOfInput => rfl
    | connective f pending =>
        cases t with
        | operator op => rcases op with value | - | c <;> rfl
        | var | openParen | closeParen | endOfInput => rfl
    | closing c f g pending =>
        cases t with
        | closeParen => exact hbuilt (.binary c f g) pending
        | var | openParen | operator | endOfInput => rfl
    | done f => cases t <;> rfl

end Standard

/-! ### The polish notation -/

namespace Polish

/-- The states of the checked reader. The operators that wait stand in `pending` with the
operands they already have, innermost first. -/
inductive CheckedState
  /-- An operand is to be read. -/
  | operand (pending : List (Operator × List Formula))
  /-- A formula has been read and no operator waits. -/
  | done (f : Formula)

/-- The state after a formula has been read as an operand of the innermost operator that
waits. An operator that still has fewer operands than its arity goes on waiting, any other
one is built. -/
def checkedFinish (f : Formula) :
    List (Operator × List Formula) → Except FormulaError CheckedState
  | [] => .ok (.done f)
  | (op, operands) :: pending =>
      if (operands ++ [f]).length < op.arity then
        .ok (.operand ((op, operands ++ [f]) :: pending))
      else (Formula.ofOperator? op (operands ++ [f])).bind (checkedFinish · pending)

/-- The state after a token, unless the token is refused. -/
def checkedFeed : CheckedState → Token → Option (Except FormulaError CheckedState)
  | .operand pending, .var name =>
      some ((Formula.ofName? name).bind (checkedFinish · pending))
  | .operand pending, .operator op =>
      if op.arity = 0 then some ((Formula.ofOperator? op []).bind (checkedFinish · pending))
      else some (.ok (.operand ((op, []) :: pending)))
  | _, _ => none

/-- The checked reader of the polish notation. -/
def checkedReader : CheckedReader CheckedState where
  start := .operand []
  feed := checkedFeed
  result?
    | .done f => some f
    | .operand _ => none
  enclosing?
    | .operand pending => some pending.length
    | .done _ => none

/-- An operator that waits as the checked reader keeps it. -/
def Frame.checked : Frame → Operator × List Formula
  | negation => (.negation, [])
  | first c => (.binary c, [])
  | second c operand => (.binary c, [operand])

/-- A state as a state of the checked reader. -/
def State.checked : State → CheckedState
  | operand pending => .operand (pending.map Frame.checked)
  | done f => .done f

/-- The same operators are ended by a formula, and each of them is built. -/
theorem checked_finish (f : Formula) (pending : List Frame) :
    checkedFinish f (pending.map Frame.checked) = .ok (finish f pending).checked := by
  induction pending generalizing f with
  | nil => rfl
  | cons frame pending ih =>
      cases frame with
      | negation => exact ih (.not f)
      | first c => rfl
      | second c first => exact ih (.binary c first f)

/-- **The checked reader of the polish notation follows the reader.** -/
theorem checkedReader_follows : checkedReader.Follows reader State.checked where
  start_eq := rfl
  result?_eq s := by cases s <;> rfl
  enclosing?_eq s := by
    cases s with
    | operand pending => exact congrArg some (List.length_map _)
    | done => rfl
  feed_eq := by
    intro t ht s
    cases s with
    | operand pending =>
        cases t with
        | var name =>
            have hname : Formula.ofName? name = .ok (.var name) := if_pos ht
            change some ((Formula.ofName? name).bind _) = _
            rw [hname]
            exact congrArg some (checked_finish (.var name) pending)
        | operator op =>
            rcases op with value | - | c
            · exact congrArg some (checked_finish (.const value) pending)
            · rfl
            · rfl
        | openParen | closeParen | endOfInput => rfl
    | done f => cases t <;> rfl

end Polish

/-! ### Checked parsers -/

/-- Reads a text that is one formula in standard notation, with checked builders. -/
def checkedParse (s : String) (maxDepth : Option Nat := none) : Except Error Formula :=
  Standard.checkedReader.whole maxDepth s

/-- Reads a text that is one formula in polish notation, with checked builders. -/
def checkedParsePolish (s : String) (maxDepth : Option Nat := none) : Except Error Formula :=
  Polish.checkedReader.whole maxDepth s

/-- Reads a formula in standard notation off the start of a text with checked builders,
and returns it with the rest. -/
def checkedParsePrefix (s : String) (maxDepth : Option Nat := none) :
    Except Error (Formula × String) :=
  Standard.checkedReader.front maxDepth s

/-- A text in standard notation is parsed alike. -/
theorem checkedParse_eq (s : String) (limit : Option Nat) :
    checkedParse s limit = (parse s limit).mapError .ofText := by
  rw [checkedParse, Standard.checkedReader_follows.whole_eq, parse_eq_whole]

/-- A text in polish notation is parsed alike. -/
theorem checkedParsePolish_eq (s : String) (limit : Option Nat) :
    checkedParsePolish s limit = (parsePolish s limit).mapError .ofText := by
  rw [checkedParsePolish, Polish.checkedReader_follows.whole_eq, parsePolish_eq_whole]

/-- A text that begins with a formula is parsed alike. -/
theorem checkedParsePrefix_eq (s : String) (limit : Option Nat) :
    checkedParsePrefix s limit = (parsePrefix s limit).mapError .ofText := by
  rw [checkedParsePrefix, Standard.checkedReader_follows.front_eq, parsePrefix_eq_front]

/-- An error about a text is never one about the parts of a formula. -/
theorem mapError_ofText_ne {α : Type} (result : Except SyntaxError α) (e : FormulaError) :
    result.mapError Error.ofText ≠ .error (.ofParts e) := by
  cases result with
  | error fault =>
      intro h
      cases Except.error.inj h
  | ok a =>
      intro h
      cases h

/-! ### What is read -/

/-- **What is read is well-formed**, wherever reading begins and whatever the limit. -/
theorem Reader.Reads.wellFormed_of_run {σ : Type} {r : Reader σ} {tokens : Formula → List Token}
    (h : r.Reads tokens) {write : Formula → String} (hw : Spelling write tokens)
    {limit : Option Nat} {l l' : Lexer} {f : Formula}
    (hrun : r.run limit r.start l = (.ok f, l')) : f.WellFormed := by
  obtain ⟨ts, s, hsteps, hres⟩ := exists_steps_of_run_eq_ok hrun
  obtain rfl := h.sound hsteps.feedAll_eq hres
  exact (hw.wellFormed_iff f).mp hsteps.passes.wellFormed

end Propositional

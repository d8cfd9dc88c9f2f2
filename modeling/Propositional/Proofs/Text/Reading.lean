import Propositional.Proofs.Text.Lexing
import Propositional.Text.Reader

/-!
# Runs of a Reader

A run of a reader is a sequence of rounds that each consume one token, followed by one
last round that ends it: with a result, because the formula would become too deep,
because no token can be read, or because the token that was read is refused. `Steps`
collects the first part and `Halts` describes the second, so that a statement about all
runs needs one lemma about a single round and one about the last one.

A reader **reads a notation** (`Reads`) if it accepts, of every formula, the tokens that
the notation writes for it and nothing else, and takes no token after a result. Such a
reader returns a formula exactly when the text begins with the tokens of that formula.

## Main results

* `Reader.exists_halts`: every run consists of steps and a last round.
* `Reader.Reads.run_eq_ok_iff`: a reader of a notation returns `f` iff it passes the
  tokens of `f`.
* `Reader.Reads.whole_eq_ok_iff`: a text is read to its end as `f` iff it is what the
  notation writes for `f`.
-/

namespace Propositional.Reader

variable {σ : Type}

/-- The state after all the tokens, unless one of them is refused. -/
def feedAll (r : Reader σ) (s : σ) (ts : List Token) : Option σ :=
  ts.foldlM r.feed s

@[simp] theorem feedAll_nil (r : Reader σ) (s : σ) : r.feedAll s [] = some s := rfl

@[simp] theorem feedAll_cons (r : Reader σ) (s : σ) (t : Token) (ts : List Token) :
    r.feedAll s (t :: ts) = (r.feed s t).bind fun s' => r.feedAll s' ts := rfl

@[simp] theorem feedAll_append (r : Reader σ) (s : σ) (ts us : List Token) :
    r.feedAll s (ts ++ us) = (r.feedAll s ts).bind fun s' => r.feedAll s' us :=
  List.foldlM_append

/-! ### Rounds -/

/-- Rounds that each consume one token, from one state and lexer to another. -/
inductive Steps (r : Reader σ) (limit : Option Nat) :
    σ → Lexer → List Token → σ → Lexer → Prop
  | refl (s : σ) (l : Lexer) : Steps r limit s l [] s l
  | step {s s' s'' : σ} {l l' l'' : Lexer} {t : Token} {ts : List Token} :
      r.result? s = none → r.exceeded? limit s = none → l.Consumes t l' →
      r.feed s t = some s' → Steps r limit s' l' ts s'' l'' →
      Steps r limit s l (t :: ts) s'' l''

/-- The last round of a run, and what it returns. -/
inductive Halts (r : Reader σ) (limit : Option Nat) (s : σ) (l : Lexer) :
    Except SyntaxError Formula × Lexer → Prop
  | done {f : Formula} : r.result? s = some f → Halts r limit s l (.ok f, l)
  | tooDeep {d : Nat} : r.result? s = none → r.exceeded? limit s = some d →
      Halts r limit s l (.error ⟨.tooDeep d, l.column⟩, l)
  | unreadable {e : SyntaxError} : r.result? s = none → r.exceeded? limit s = none →
      l.next = .error e → Halts r limit s l (.error e, l)
  | refused {t : Token} {l' : Lexer} : r.result? s = none → r.exceeded? limit s = none →
      l.Consumes t l' → r.feed s t = none →
      Halts r limit s l (.error ⟨.unexpectedToken t, l.column⟩, l')

/-- A run goes on where its first rounds lead. -/
theorem Steps.run_eq {r : Reader σ} {limit : Option Nat} {s s' : σ} {l l' : Lexer}
    {ts : List Token} (h : r.Steps limit s l ts s' l') :
    r.run limit s l = r.run limit s' l' := by
  induction h with
  | refl s l => rfl
  | step hres hdeep hc hfeed _ ih =>
      rw [Reader.run_eq, hres, hdeep, Lexer.next_eq_ok_iff.mpr hc]
      simp only [hfeed, ih]

/-- The tokens of the rounds stand in the text. -/
theorem Steps.passes {r : Reader σ} {limit : Option Nat} {s s' : σ} {l l' : Lexer}
    {ts : List Token} (h : r.Steps limit s l ts s' l') : l.Passes ts l' := by
  induction h with
  | refl s l => exact .nil l
  | step _ _ hc _ _ ih => exact .cons hc ih

/-- The rounds feed their tokens to the reader. -/
theorem Steps.feedAll_eq {r : Reader σ} {limit : Option Nat} {s s' : σ} {l l' : Lexer}
    {ts : List Token} (h : r.Steps limit s l ts s' l') : r.feedAll s ts = some s' := by
  induction h with
  | refl s l => rfl
  | step _ _ _ hfeed _ ih => rw [feedAll_cons, hfeed, Option.bind_some, ih]

/-- **Every run consists of rounds that consume a token and one last round.** -/
theorem exists_halts (r : Reader σ) (limit : Option Nat) (s : σ) (l : Lexer) :
    ∃ ts s' l', r.Steps limit s l ts s' l' ∧ r.Halts limit s' l' (r.run limit s l) := by
  fun_induction run r limit s l with
  | case1 s l f hres => exact ⟨[], s, l, .refl s l, .done hres⟩
  | case2 s l hres d hdeep => exact ⟨[], s, l, .refl s l, .tooDeep hres hdeep⟩
  | case3 s l hres hdeep e hnext =>
      exact ⟨[], s, l, .refl s l, .unreadable hres hdeep hnext⟩
  | case4 s l hres hdeep t l' hnext hfeed =>
      exact ⟨[], s, l, .refl s l,
        .refused hres hdeep (Lexer.next_eq_ok_iff.mp hnext) hfeed⟩
  | case5 s l hres hdeep t l' hnext s' hfeed ih =>
      obtain ⟨ts, s'', l'', hsteps, hhalts⟩ := ih
      exact ⟨t :: ts, s'', l'',
        .step hres hdeep (Lexer.next_eq_ok_iff.mp hnext) hfeed hsteps, hhalts⟩

/-- A run that returns a formula ends in a state with that result. -/
theorem exists_steps_of_run_eq_ok {r : Reader σ} {limit : Option Nat} {s : σ}
    {l l' : Lexer} {f : Formula} (h : r.run limit s l = (.ok f, l')) :
    ∃ ts s', r.Steps limit s l ts s' l' ∧ r.result? s' = some f := by
  obtain ⟨ts, s', l'', hsteps, hhalts⟩ := r.exists_halts limit s l
  rw [h] at hhalts
  cases hhalts with
  | done hres => exact ⟨ts, s', hsteps, hres⟩

/-! ### Whole texts -/

/-- Reads a text that is to be one formula, so nothing may remain after it. -/
def whole (r : Reader σ) (limit : Option Nat) (s : String) : Except SyntaxError Formula :=
  match r.run limit r.start (.ofString s) with
  | (.error e, _) => .error e
  | (.ok f, l) => if l.rest.isEmpty then .ok f else .error ⟨.trailingInput l.remaining, l.column⟩

/-- A whole text is read as a formula if a run returns it at the end of the text. -/
theorem whole_eq_ok_iff {r : Reader σ} {limit : Option Nat} {s : String} {f : Formula} :
    r.whole limit s = .ok f ↔
      ∃ l', r.run limit r.start (.ofString s) = (.ok f, l') ∧ l'.rest = [] := by
  rcases hrun : r.run limit r.start (.ofString s) with ⟨e | g, l'⟩
  · simp [whole, hrun]
  · by_cases hrest : l'.rest = [] <;> simp [whole, hrun, hrest, and_assoc]

/-- The two ways to refuse a whole text: the run ends with an error, or it returns a
formula before the end of the text. -/
theorem whole_eq_error_iff {r : Reader σ} {limit : Option Nat} {s : String} {e : SyntaxError} :
    r.whole limit s = .error e ↔
      (∃ l', r.run limit r.start (.ofString s) = (.error e, l')) ∨
      ∃ f l', r.run limit r.start (.ofString s) = (.ok f, l') ∧ l'.rest ≠ [] ∧
        e = ⟨.trailingInput l'.remaining, l'.column⟩ := by
  rcases hrun : r.run limit r.start (.ofString s) with ⟨e' | g, l'⟩
  · simp [whole, hrun]
  · by_cases hrest : l'.rest = [] <;> simp [whole, hrun, hrest, and_assoc, eq_comm (a := e)]

/-! ### Texts that begin with a formula -/

/-- Reads a formula off the start of a text, and returns it with the rest. -/
def front (r : Reader σ) (limit : Option Nat) (s : String) :
    Except SyntaxError (Formula × String) :=
  match r.run limit r.start (.ofString s) with
  | (.error e, _) => .error e
  | (.ok f, l) => .ok (f, l.remaining)

/-- A formula is read off the start of a text if a run returns it there. -/
theorem front_eq_ok_iff {r : Reader σ} {limit : Option Nat} {s rest : String} {f : Formula} :
    r.front limit s = .ok (f, rest) ↔
      ∃ l', r.run limit r.start (.ofString s) = (.ok f, l') ∧ l'.remaining = rest := by
  rcases hrun : r.run limit r.start (.ofString s) with ⟨e | g, l'⟩
  · simp [front, hrun]
  · simp [front, hrun, and_assoc]

/-! ### Readers of a notation -/

/-- The reader accepts the tokens that a notation writes for each formula, and no
others. -/
structure Reads (r : Reader σ) (tokens : Formula → List Token) : Prop where
  complete : ∀ f, ∃ s, r.feedAll r.start (tokens f) = some s ∧ r.result? s = some f
  sound : ∀ {ts s f}, r.feedAll r.start ts = some s → r.result? s = some f → ts = tokens f
  closed : ∀ {s f}, r.result? s = some f → ∀ t, r.feed s t = none

/-- What a notation writes for a formula is the text of the tokens, and these can stand in
a text exactly if the names in the formula are valid. -/
structure Spelling (write : Formula → String) (tokens : Formula → List Token) : Prop where
  toList_write : ∀ f, (write f).toList = Token.chars (tokens f)
  wellFormed_iff : ∀ f, (∀ t ∈ tokens f, t.WellFormed) ↔ f.WellFormed

/-- A function of the states knows all tokens that lead to a state: each token that is
taken is appended to them. -/
def Remembers (r : Reader σ) (consumed : σ → List Token) : Prop :=
  consumed r.start = [] ∧
    ∀ {s s' : σ} {t : Token}, r.feed s t = some s' → consumed s' = consumed s ++ [t]

/-- The tokens that lead from the start to a state are those that the state knows. -/
theorem Remembers.consumed_eq {r : Reader σ} {consumed : σ → List Token}
    (h : r.Remembers consumed) {ts : List Token} {s : σ} (hfeed : r.feedAll r.start ts = some s) :
    consumed s = ts := by
  suffices hall : ∀ {s₀ : σ}, r.feedAll s₀ ts = some s → consumed s = consumed s₀ ++ ts by
    rw [hall hfeed, h.1, List.nil_append]
  clear hfeed
  induction ts with
  | nil =>
      intro s₀ hs
      obtain rfl := Option.some.inj hs
      rw [List.append_nil]
  | cons t ts ih =>
      intro s₀ hs
      obtain ⟨s₁, hs₁, hrest⟩ := Option.bind_eq_some_iff.mp hs
      rw [ih hrest, h.2 hs₁, List.append_assoc, List.singleton_append]

namespace Reads

variable {r : Reader σ} {tokens : Formula → List Token}

/-- Tokens that stand in the text and that the reader takes are consumed round by
round. -/
theorem steps_of_passes (h : r.Reads tokens) {s s' : σ} {l l' : Lexer} {ts : List Token}
    (hpass : l.Passes ts l') (hfeed : r.feedAll s ts = some s') :
    r.Steps none s l ts s' l' := by
  induction hpass generalizing s with
  | nil l =>
      obtain rfl := Option.some.inj hfeed
      exact .refl s l
  | cons hc _ ih =>
      obtain ⟨s₁, hs₁, hrest⟩ := Option.bind_eq_some_iff.mp hfeed
      have hres : r.result? s = none := by
        rw [Option.eq_none_iff_forall_ne_some]
        intro f hf
        rw [h.closed hf] at hs₁
        exact absurd hs₁ (by simp)
      exact .step hres rfl hc hs₁ (ih hrest)

/-- **A reader of a notation returns `f` exactly if the text begins with the tokens of
`f`**, and it stops right after them. -/
theorem run_eq_ok_iff (h : r.Reads tokens) {l l' : Lexer} {f : Formula} :
    r.run none r.start l = (.ok f, l') ↔ l.Passes (tokens f) l' := by
  constructor
  · intro hrun
    obtain ⟨ts, s, hsteps, hres⟩ := exists_steps_of_run_eq_ok hrun
    obtain rfl := h.sound hsteps.feedAll_eq hres
    exact hsteps.passes
  · intro hpass
    obtain ⟨s, hfeed, hres⟩ := h.complete f
    rw [(h.steps_of_passes hpass hfeed).run_eq, Reader.run_eq, hres]

/-- **A text that is read as one formula is the text of that formula**, and the text of a
formula with valid names is read as that formula. -/
theorem whole_eq_ok_iff (h : r.Reads tokens) {write : Formula → String}
    (hw : Spelling write tokens) {s : String} {f : Formula} :
    r.whole none s = .ok f ↔ f.WellFormed ∧ write f = s := by
  rw [Reader.whole_eq_ok_iff, ← hw.wellFormed_iff, ← String.toList_inj, hw.toList_write]
  constructor
  · rintro ⟨l', hrun, hend⟩
    have hpass := h.run_eq_ok_iff.mp hrun
    have hrest := hpass.rest_eq
    rw [hend, List.append_nil] at hrest
    exact ⟨hpass.wellFormed, hrest.symm⟩
  · rintro ⟨hwf, hs⟩
    have hpass := Lexer.Passes.of_append hwf (fun t _ => t.endsBefore_nil) 1
    rw [List.append_nil, hs] at hpass
    exact ⟨_, h.run_eq_ok_iff.mpr hpass, rfl⟩

/-- The texts that are read as one formula are those of the formulas with valid names. -/
theorem isOk_whole_iff (h : r.Reads tokens) {write : Formula → String}
    (hw : Spelling write tokens) {s : String} :
    (r.whole none s).isOk = true ↔ ∃ f : Formula, f.WellFormed ∧ write f = s := by
  simp only [← h.whole_eq_ok_iff hw]
  cases r.whole none s <;> simp [Except.isOk, Except.toBool]

end Reads

end Propositional.Reader

import Mathlib.Tactic.SplitIfs
import Propositional.Proofs.Text.ErrorColumns
import Propositional.Proofs.Text.Occurrences

/-!
# The Limit on the Depth

With a limit a text is read as it is without one, or refused because it is too deep. The
reader counts the operations around each operand that it is about to read. While it reads
the tokens of a formula these operands are the occurrences of its subformulas, in the
order of the text (`Standard.checks_standardTokens`, `Polish.checks_polishTokens`), so a
run with a limit ends at the first occurrence under too many operations
(`Reader.run_limited`). There is one iff the formula is deeper than the limit.

## Main results

* `Reader.run_limited_eq_or`: a run with a limit is the run without, or too deep.
* `Reader.Reads.run_limited`: where a run with a limit ends if the run without one returns
  a formula.
* `parse_limited_eq_ok_iff`: which texts are parsed with a limit, and to which formulas.
* `limit_refuses_deep_only`: what a limit does to the parsers.
-/

namespace Propositional

/-- The `column` is the one at which, of all subformulas of `g` that have exactly `d`
operations around them, the first one in the text begins. -/
def Layout.BeginsFirst (n : Layout) (g : Formula) (d column : Nat) : Prop :=
  ∃ o ∈ n.occurrences 0 "" g, o.enclosing = d ∧ column = (bytes o.before).length + 1 ∧
    ∀ o' ∈ n.occurrences 0 "" g, o'.enclosing = d →
      (bytes o.before).length ≤ (bytes o'.before).length

/-- The first occurrence under `d` operations or more begins at such a column. -/
theorem Layout.beginsFirst_of_find? {n : Layout} {g : Formula} {d : Nat} {o : Occurrence}
    (h : (n.occurrences 0 "" g).find? (fun o => d ≤ o.enclosing) = some o) :
    n.BeginsFirst g d ((bytes o.before).length + 1) := by
  refine ⟨o, List.mem_of_find?_eq_some h, enclosing_of_find? (Nat.zero_le d) h, rfl, ?_⟩
  intro o' ho' hd
  obtain ⟨-, earlier, later, hsplit, hearlier⟩ := List.find?_eq_some_iff_append.mp h
  have hpairwise := pairwise_before n g 0 ""
  rw [hsplit] at ho' hpairwise
  rcases List.mem_append.mp ho' with hmem | hmem
  · have hshallow := hearlier o' hmem
    simp [hd] at hshallow
  rcases List.mem_cons.mp hmem with rfl | hmem
  · exact Nat.le_refl _
  · have hbegin := (List.pairwise_cons.mp (List.pairwise_append.mp hpairwise).2.1).1 o' hmem
    exact (bytes_prefix_iff.mpr hbegin).length_le

/-- What a reader counts where it is about to read the subformula: the operations around
it, and the column. -/
def Occurrence.check (o : Occurrence) : Nat × Nat :=
  (o.enclosing, o.before.length + 1)

namespace Reader

variable {σ : Type} {r : Reader σ}

/-! ### What a run with a limit checks -/

/-- The operands that are about to be read while the tokens are fed: the number of
operations around each of them, and the column at which it begins. -/
def checks (r : Reader σ) (s : σ) (column : Nat) : List Token → List (Nat × Nat)
  | [] => []
  | t :: ts =>
    ((r.enclosing? s).map fun enclosing => (enclosing, column)).toList ++
      match r.feed s t with
      | none => []
      | some s' => r.checks s' (column + t.text.length) ts

/-- Where no operand is about to be read, a token is fed without a check. -/
theorem checks_of_enclosing_none {s s' : σ} {t : Token} (henclosing : r.enclosing? s = none)
    (hfeed : r.feed s t = some s') (before : String) (ts : List Token) :
    r.checks s (before.length + 1) (t :: ts) =
      r.checks s' ((before ++ t.text).length + 1) ts := by
  simp only [checks, henclosing, hfeed, Option.map_none, Option.toList_none, List.nil_append,
    String.length_append, Nat.add_right_comm]

/-- Where one is, the operations around it are counted first. -/
theorem checks_of_enclosing_some {s s' : σ} {t : Token} {enclosing : Nat}
    (henclosing : r.enclosing? s = some enclosing) (hfeed : r.feed s t = some s')
    (before : String) (ts : List Token) :
    r.checks s (before.length + 1) (t :: ts) =
      (enclosing, before.length + 1) :: r.checks s' ((before ++ t.text).length + 1) ts := by
  simp only [checks, henclosing, hfeed, Option.map_some, Option.toList_some, List.cons_append,
    List.nil_append, String.length_append, Nat.add_right_comm]

/-- A round in which a token is consumed, unless the limit is exceeded before. -/
theorem run_of_consumes {s s' : σ} {l l' : Lexer} {t : Token} (hres : r.result? s = none)
    (hc : l.Consumes t l') (hfeed : r.feed s t = some s') (d : Nat) :
    r.run (some d) s l =
      if (r.enclosing? s).any (d ≤ ·) then (.error ⟨.tooDeep d, l.column⟩, l)
      else r.run (some d) s' l' := by
  have hexceeded : r.exceeded? (some d) s =
      if (r.enclosing? s).any (d ≤ ·) then some d else none := Option.filter_some
  rw [run_eq, hres, hexceeded]
  split_ifs
  · rfl
  · simp only [Lexer.next_eq_ok_iff.mpr hc, hfeed]

/-- **A run with a limit ends at the first check that exceeds it**, where the run without
one returns a formula, and with that formula if there is no such check. -/
theorem run_limited (hclosed : ∀ {s f}, r.result? s = some f → ∀ t, r.feed s t = none)
    {s s' : σ} {l l' : Lexer} {ts : List Token} {f : Formula} (hpass : l.Passes ts l')
    (hfeed : r.feedAll s ts = some s') (hres : r.result? s' = some f) (d : Nat) :
    match (r.checks s l.column ts).find? (fun check => d ≤ check.1) with
    | none => r.run (some d) s l = (.ok f, l')
    | some check => ∃ l'', r.run (some d) s l = (.error ⟨.tooDeep d, check.2⟩, l'') := by
  induction hpass generalizing s with
  | nil l =>
      obtain rfl := Option.some.inj hfeed
      rw [checks, List.find?_nil, run_eq, hres]
  | @cons l l' l'' t ts hc _ ih =>
      obtain ⟨s₁, hs₁, hrest⟩ := Option.bind_eq_some_iff.mp hfeed
      have hnone : r.result? s = none := by
        rw [Option.eq_none_iff_forall_ne_some]
        intro g hg
        rw [hclosed hg] at hs₁
        cases hs₁
      have hlater := ih hrest
      rw [hc.column_eq] at hlater
      rw [run_of_consumes hnone hc hs₁, checks, hs₁]
      cases henclosing : r.enclosing? s with
      | none => simpa using hlater
      | some enclosing =>
          by_cases hdeep : d ≤ enclosing
          · simp [hdeep]
          · simpa [hdeep] using hlater

/-- A run with a limit returns what the run without one returns, unless it ends because
the formula is too deep. -/
theorem run_limited_eq_or (r : Reader σ) (d : Nat) (s : σ) (l : Lexer) :
    r.run (some d) s l = r.run none s l ∨
      ∃ column l', r.run (some d) s l = (.error ⟨.tooDeep d, column⟩, l') := by
  have hfree : ∀ s, r.exceeded? none s = none := fun _ => rfl
  fun_induction run r (some d) s l with
  | case1 s l f hres => exact .inl (by rw [run_eq, hres])
  | case2 s l hres d' hdeep =>
      obtain ⟨heq, -⟩ := Option.filter_eq_some_iff.mp hdeep
      obtain rfl := Option.some.inj heq
      exact .inr ⟨_, _, rfl⟩
  | case3 s l hres hdeep e hnext => exact .inl (by rw [run_eq, hres, hfree, hnext])
  | case4 s l hres hdeep t l' hnext hfeed =>
      refine .inl ?_
      rw [run_eq, hres, hfree, hnext]
      simp only [hfeed]
  | case5 s l hres hdeep t l' hnext s' hfeed ih =>
      rw [run_eq r none, hres, hfree, hnext]
      simpa only [hfeed] using ih

/-! ### Runs that read a formula -/

/-- While the reader reads the tokens of a formula, it checks the occurrences of the
subformulas, in the order of the text. -/
def ChecksOccurrences (r : Reader σ) (tokens : Formula → List Token) (n : Layout) : Prop :=
  ∀ f, r.checks r.start 1 (tokens f) = (n.occurrences 0 "" f).map Occurrence.check

variable {tokens : Formula → List Token} {n : Layout}

/-- What is before an occurrence in a formula with valid names is ASCII. -/
theorem length_bytes_before (hw : Spelling n.write tokens) {f : Formula} (hf : f.WellFormed)
    {o : Occurrence} (ho : o ∈ n.occurrences 0 "" f) :
    (bytes o.before).length = o.before.length := by
  refine length_bytes_of_ascii fun c hc => ?_
  have hbegin := Layout.isPrefix_write ho
  rw [String.empty_append, hw.toList_write] at hbegin
  exact Token.val_le_of_mem_chars ((hw.wellFormed_iff f).mpr hf) c (hbegin.subset hc)

/-- **Where a formula is read, a limit makes a difference iff the formula is deeper.** Then
the run ends where the first subformula under so many operations begins. -/
theorem Reads.run_limited (h : r.Reads tokens) (hw : Spelling n.write tokens)
    (hchecks : r.ChecksOccurrences tokens n) {s : String} {f : Formula} {l : Lexer}
    (hrun : r.run none r.start (.ofString s) = (.ok f, l)) (d : Nat) :
    (f.depth ≤ d → r.run (some d) r.start (.ofString s) = (.ok f, l)) ∧
      (d < f.depth → ∃ column l', n.BeginsFirst f d column ∧
        r.run (some d) r.start (.ofString s) = (.error ⟨.tooDeep d, column⟩, l')) := by
  have hpass := h.run_eq_ok_iff.mp hrun
  have hf : f.WellFormed := (hw.wellFormed_iff f).mp hpass.wellFormed
  obtain ⟨st, hfeed, hres⟩ := h.complete f
  have hlimited := Reader.run_limited h.closed hpass hfeed hres d
  have hfirst : (r.checks r.start (Lexer.ofString s).column (tokens f)).find?
        (fun check => d ≤ check.1) =
      ((n.occurrences 0 "" f).find? fun o => d ≤ o.enclosing).map Occurrence.check := by
    rw [Lexer.ofString, hchecks, List.find?_map]
    rfl
  have hdepth := n.forall_enclosing_lt_iff f 0 "" d
  rw [Nat.zero_add] at hdepth
  rw [hfirst] at hlimited
  cases hfind : (n.occurrences 0 "" f).find? (fun o => d ≤ o.enclosing) with
  | none =>
      rw [hfind] at hlimited
      have hshallow : f.depth ≤ d := by
        refine hdepth.mp fun o ho => ?_
        simpa using List.find?_eq_none.mp hfind o ho
      exact ⟨fun _ => hlimited, fun hdeep => absurd hshallow (Nat.not_le.mpr hdeep)⟩
  | some o =>
      rw [hfind] at hlimited
      obtain ⟨l', hlimited⟩ := hlimited
      have ho := List.mem_of_find?_eq_some hfind
      have hdeep : d < f.depth := by
        refine Nat.lt_of_not_le fun hshallow => ?_
        have hlt := hdepth.mpr hshallow o ho
        rw [Layout.enclosing_of_find? (Nat.zero_le d) hfind] at hlt
        exact Nat.lt_irrefl d hlt
      have hbegins := Layout.beginsFirst_of_find? hfind
      rw [length_bytes_before hw hf ho] at hbegins
      exact ⟨fun hshallow => absurd hdeep (Nat.not_lt.mpr hshallow),
        fun _ => ⟨_, l', hbegins, hlimited⟩⟩

/-! ### What a limit does to a parser -/

/-- The results of reading a text without a limit and with the limit `d` are the same,
unless the latter is that the text is too deep. If a formula can be read at the start of
the text, then that happens iff the formula is deeper than `d`, and the column is that of
its first subformula under `d` operations. -/
structure RefusesDeepOnly {α : Type} (n : Layout) (d : Nat) (read : Except SyntaxError Formula)
    (free limited : Except SyntaxError α) : Prop where
  same_or_tooDeep : limited = free ∨ ∃ column, limited = .error ⟨.tooDeep d, column⟩
  tooDeep_iff : ∀ f, read = .ok f →
    ((∃ column, limited = .error ⟨.tooDeep d, column⟩) ↔ d < f.depth)
  beginsFirst : ∀ f, read = .ok f → ∀ column, limited = .error ⟨.tooDeep d, column⟩ →
    n.BeginsFirst f d column

/-- Reads a formula and goes on with it from where the lexer stopped. -/
def readThen (r : Reader σ) (limit : Option Nat) (s : String) {α : Type}
    (next : Formula → Lexer → Except SyntaxError α) : Except SyntaxError α :=
  (r.run limit r.start (.ofString s)).1.bind fun f =>
    next f (r.run limit r.start (.ofString s)).2

/-- To read a whole text is to read a formula and to refuse what remains. -/
theorem whole_eq_readThen (r : Reader σ) (limit : Option Nat) (s : String) :
    r.whole limit s = r.readThen limit s fun f l =>
      if l.rest.isEmpty then .ok f else .error ⟨.trailingInput l.remaining, l.column⟩ := by
  rw [whole, readThen]
  rcases r.run limit r.start (.ofString s) with ⟨e | f, l⟩ <;> rfl

/-- To read a formula off the start is to read it and to return what remains. -/
theorem front_eq_readThen (r : Reader σ) (limit : Option Nat) (s : String) :
    r.front limit s = r.readThen limit s fun f l => .ok (f, l.remaining) := by
  rw [front, readThen]
  rcases r.run limit r.start (.ofString s) with ⟨e | f, l⟩ <;> rfl

/-- So it is for whatever is done after a formula has been read, if nothing is said to be
too deep there. -/
theorem Reads.refusesDeepOnly (h : r.Reads tokens) (hw : Spelling n.write tokens)
    (hchecks : r.ChecksOccurrences tokens n) {α : Type}
    {next : Formula → Lexer → Except SyntaxError α}
    (hnext : ∀ f l d column, next f l ≠ .error ⟨.tooDeep d, column⟩) (s : String) (d : Nat) :
    RefusesDeepOnly n d (r.run none r.start (.ofString s)).1 (r.readThen none s next)
      (r.readThen (some d) s next) := by
  refine ⟨?_, fun f hread => ⟨?_, ?_⟩, fun f hread column => ?_⟩
  · rcases r.run_limited_eq_or d r.start (.ofString s) with heq | ⟨column, l', heq⟩
    · exact .inl (by rw [readThen, heq, readThen])
    · exact .inr ⟨column, by rw [readThen, heq]; rfl⟩
  · rintro ⟨column, hlimited⟩
    obtain ⟨hshallow, -⟩ := h.run_limited hw hchecks (Prod.ext hread rfl) d
    refine Nat.lt_of_not_le fun hle => ?_
    rw [readThen, hshallow hle] at hlimited
    exact hnext _ _ _ _ hlimited
  · intro hlt
    obtain ⟨-, hdeep⟩ := h.run_limited hw hchecks (Prod.ext hread rfl) d
    obtain ⟨column, l', -, hrun⟩ := hdeep hlt
    exact ⟨column, by rw [readThen, hrun]; rfl⟩
  · intro hlimited
    obtain ⟨hshallow, hdeep⟩ := h.run_limited hw hchecks (Prod.ext hread rfl) d
    rcases Nat.lt_or_ge d f.depth with hlt | hle
    · obtain ⟨column', l', hbegins, hrun⟩ := hdeep hlt
      rw [readThen, hrun] at hlimited
      obtain ⟨-, rfl⟩ := SyntaxError.mk.inj (Except.error.inj hlimited)
      exact hbegins
    · rw [readThen, hshallow hle] at hlimited
      exact absurd hlimited (hnext _ _ _ _)

/-- So it is for reading a whole text: nothing else is refused after a formula than what
remains of the text. -/
theorem Reads.refusesDeepOnly_whole (h : r.Reads tokens) (hw : Spelling n.write tokens)
    (hchecks : r.ChecksOccurrences tokens n) (s : String) (d : Nat) :
    RefusesDeepOnly n d (r.run none r.start (.ofString s)).1 (r.whole none s)
      (r.whole (some d) s) := by
  rw [whole_eq_readThen, whole_eq_readThen]
  refine h.refusesDeepOnly hw hchecks (fun f l d column => ?_) s d
  split <;> simp

/-- Nothing at all is refused after a formula that is read off the start of a text. -/
theorem Reads.refusesDeepOnly_front (h : r.Reads tokens) (hw : Spelling n.write tokens)
    (hchecks : r.ChecksOccurrences tokens n) (s : String) (d : Nat) :
    RefusesDeepOnly n d (r.run none r.start (.ofString s)).1 (r.front none s)
      (r.front (some d) s) := by
  rw [front_eq_readThen, front_eq_readThen]
  exact h.refusesDeepOnly hw hchecks (fun _ _ _ _ => by simp) s d

end Reader

/-! ### Both notations -/

namespace Standard

/-- While the reader reads an operand it checks the subformulas of this operand, under the
operations that are open. -/
theorem checks_standardTokens (f : Formula) (pending : List Frame) (before : String)
    (ts : List Token) :
    reader.checks (.operand pending) (before.length + 1) (f.standardTokens ++ ts) =
      (Layout.standard.occurrences pending.length before f).map Occurrence.check ++
        reader.checks (finish f pending) ((before ++ Layout.standard.write f).length + 1) ts := by
  have hoperand : ∀ pending, reader.enclosing? (.operand pending) = some pending.length :=
    fun _ => rfl
  induction f generalizing pending before ts with
  | var name => exact Reader.checks_of_enclosing_some (hoperand pending) rfl before ts
  | const value => exact Reader.checks_of_enclosing_some (hoperand pending) rfl before ts
  | not f ih =>
      have hnot : reader.feed (.operand pending) (.operator .negation) =
          some (.operand (.negation :: pending)) := rfl
      rw [Formula.standardTokens, List.cons_append,
        Reader.checks_of_enclosing_some (hoperand pending) hnot, ih, Layout.write,
        ← String.append_assoc]
      rfl
  | binary c f g ihf ihg =>
      have hopen : reader.feed (.operand pending) .openParen =
          some (.operand (.opened :: pending)) := rfl
      have hjoin : reader.feed (.connective f pending) (.operator (.binary c)) =
          some (.operand (.joined f c :: pending)) := rfl
      have hclose : reader.feed (.closing c f g pending) .closeParen =
          some (finish (.binary c f g) pending) := rfl
      have hfirst : finish f (.opened :: pending) = .connective f pending := rfl
      have hsecond : finish g (.joined f c :: pending) = .closing c f g pending := rfl
      have htokens : (Formula.binary c f g).standardTokens ++ ts =
          .openParen :: (f.standardTokens ++ .operator (.binary c) ::
            (g.standardTokens ++ .closeParen :: ts)) := by
        simp [Formula.standardTokens]
      rw [htokens, Reader.checks_of_enclosing_some (hoperand pending) hopen, ihf, hfirst,
        Reader.checks_of_enclosing_none rfl hjoin, ihg, hsecond,
        Reader.checks_of_enclosing_none rfl hclose]
      simp only [Layout.occurrences, Layout.write, List.map_cons, List.map_append,
        List.cons_append, List.append_assoc, String.append_assoc]
      rfl

/-- So it does from the start. -/
theorem checksOccurrences :
    reader.ChecksOccurrences Formula.standardTokens Layout.standard := by
  intro f
  have hchecks := checks_standardTokens f [] "" []
  rwa [List.append_nil, Reader.checks, List.append_nil] at hchecks

/-- The tokens spell the text that the layout writes. -/
theorem spelling : Reader.Spelling Layout.standard.write Formula.standardTokens :=
  funext Layout.write_standard ▸ Formula.spelling_text

end Standard

namespace Polish

/-- While the reader reads an operand it checks the subformulas of this operand, under the
operators that wait. -/
theorem checks_polishTokens (f : Formula) (pending : List Frame) (before : String)
    (ts : List Token) :
    reader.checks (.operand pending) (before.length + 1) (f.polishTokens ++ ts) =
      (Layout.polish.occurrences pending.length before f).map Occurrence.check ++
        reader.checks (finish f pending) ((before ++ Layout.polish.write f).length + 1) ts := by
  have hoperand : ∀ pending, reader.enclosing? (.operand pending) = some pending.length :=
    fun _ => rfl
  induction f generalizing pending before ts with
  | var name => exact Reader.checks_of_enclosing_some (hoperand pending) rfl before ts
  | const value => exact Reader.checks_of_enclosing_some (hoperand pending) rfl before ts
  | not f ih =>
      have hnot : reader.feed (.operand pending) (.operator .negation) =
          some (.operand (.negation :: pending)) := rfl
      rw [Formula.polishTokens_not, List.cons_append,
        Reader.checks_of_enclosing_some (hoperand pending) hnot, ih, Layout.write,
        ← String.append_assoc]
      rfl
  | binary c f g ihf ihg =>
      have hopen : reader.feed (.operand pending) (.operator (.binary c)) =
          some (.operand (.first c :: pending)) := rfl
      -- The connective still waits after the first operand, as one operator.
      have hfirst : finish f (.first c :: pending) = .operand (.second c f :: pending) := rfl
      have hsecond : finish g (.second c f :: pending) = finish (.binary c f g) pending := rfl
      rw [Formula.polishTokens_binary, List.cons_append, List.append_assoc,
        Reader.checks_of_enclosing_some (hoperand pending) hopen, ihf, hfirst, ihg, hsecond]
      simp only [Layout.occurrences, Layout.write, List.map_cons, List.map_append,
        List.cons_append, List.append_assoc, String.append_assoc, Layout.polish,
        String.append_empty]
      rfl

/-- So it does from the start. -/
theorem checksOccurrences :
    reader.ChecksOccurrences Formula.polishTokens Layout.polish := by
  intro f
  have hchecks := checks_polishTokens f [] "" []
  rwa [List.append_nil, Reader.checks, List.append_nil] at hchecks

/-- The tokens spell the text that the layout writes. -/
theorem spelling : Reader.Spelling Layout.polish.write Formula.polishTokens :=
  funext Layout.write_polish ▸ Formula.spelling_polish

end Polish

/-- With a limit the parser returns `f` exactly for the text of `f`, and only well-formed
formulas that are no deeper than the limit. -/
theorem parse_limited_eq_ok_iff {s : String} {f : Formula} {d : Nat} :
    parse s (some d) = .ok f ↔ f.WellFormed ∧ f.text = s ∧ f.depth ≤ d := by
  have hlimit :=
    Standard.reads.refusesDeepOnly_whole Standard.spelling Standard.checksOccurrences s d
  rw [← parse_eq_whole, ← parse_eq_whole] at hlimit
  have hdeep (hfree : parse s = .ok f) :
      (∃ column, parse s (some d) = .error ⟨.tooDeep d, column⟩) ↔ d < f.depth := by
    refine hlimit.tooDeep_iff f ?_
    rw [parse_eq_whole, Reader.whole_eq_readThen, Reader.readThen] at hfree
    cases hread : (Standard.reader.run none Standard.reader.start (.ofString s)).1 with
    | error e => simp [hread, Except.bind] at hfree
    | ok g =>
        rw [hread, Except.bind] at hfree
        split at hfree <;> simp_all
  rw [← and_assoc, ← parse_eq_ok_iff]
  constructor
  · intro hlimited
    rcases hlimit.same_or_tooDeep with hsame | ⟨column, hrefused⟩
    · have hfree : parse s = .ok f := hsame.symm.trans hlimited
      refine ⟨hfree, Nat.le_of_not_lt fun hlt => ?_⟩
      obtain ⟨column, hrefused⟩ := (hdeep hfree).mpr hlt
      simp [hlimited] at hrefused
    · simp [hlimited] at hrefused
  · rintro ⟨hfree, hle⟩
    rcases hlimit.same_or_tooDeep with hsame | hrefused
    · exact hsame.trans hfree
    · exact absurd hle (Nat.not_le_of_lt ((hdeep hfree).mp hrefused))

/-- **A limit refuses the formulas that are too deep, and changes nothing else.** With any
limit, each parser returns what it returns without one, the rest or the error and its
column included, or it refuses the text as too deep. Where a formula can be read at the
start of the text, whatever follows it, the text is refused so iff that formula is deeper
than the limit, at the column at which the first subformula begins that has as many
operations around it as the limit allows. -/
theorem limit_refuses_deep_only (s : String) (d : Nat) :
    Reader.RefusesDeepOnly Layout.standard d (Parser.ofString s).formula.1
        (parse s) (parse s (some d)) ∧
      Reader.RefusesDeepOnly Layout.polish d (Parser.ofString s).polishFormula.1
        (parsePolish s) (parsePolish s (some d)) ∧
      Reader.RefusesDeepOnly Layout.standard d (Parser.ofString s).formula.1
        (parsePrefix s) (parsePrefix s (some d)) := by
  simp only [parse_eq_whole, parsePolish_eq_whole, parsePrefix_eq_front]
  refine ⟨?_, ?_, ?_⟩
  · exact Standard.reads.refusesDeepOnly_whole Standard.spelling Standard.checksOccurrences s d
  · exact Polish.reads.refusesDeepOnly_whole Polish.spelling Polish.checksOccurrences s d
  · exact Standard.reads.refusesDeepOnly_front Standard.spelling Standard.checksOccurrences s d

end Propositional

import Propositional.Proofs.Construction.Reading
import Propositional.Proofs.Semantics.Synthesis
import Propositional.Proofs.Substitution.Meaning

/-!
# Operations Keep Formulas Well-Formed

Each operation of the library that returns a formula returns a well-formed one if its
operands are well-formed: the parsers, whatever the text, since the lexer reads valid
names only; the substitutions, whatever has been asked of them before; and the syntheses,
which write no other variables than those of a model or of a list that was checked.

For substitutions this is said once for both kinds. What a kind has to provide is that its
effect on a formula keeps it well-formed (`SubstitutionLaw.KeepsWellFormed`) if only
well-formed formulas are assigned that the law does not refuse.

## Main results

* `Parser.wellFormed_of_read`, `wellFormed_of_parse`, `wellFormed_of_parsePolish`,
  `wellFormed_of_parsePrefix`: parsing.
* `SubstitutionKind.Follows.step_keeps`: one request to a substitution.
* `NormalForm.wellFormed_of_clause`, `NormalForm.wellFormed_of_synthesize`: synthesis.
-/

namespace Propositional

/-! ### Parsing -/

/-- What a parser reads is well-formed, whatever it has read before. -/
theorem Parser.wellFormed_of_read {p : Parser} {form : TextForm} {f : Formula}
    (h : (p.read form).1 = .ok f) : f.WellFormed := by
  cases form with
  | standard => exact Standard.reads.wellFormed_of_run Formula.spelling_text (Prod.ext h rfl)
  | polish => exact Polish.reads.wellFormed_of_run Formula.spelling_polish (Prod.ext h rfl)

/-- A text in standard notation is parsed as a well-formed formula. -/
theorem wellFormed_of_parse {s : String} {limit : Option Nat} {f : Formula}
    (h : parse s limit = .ok f) : f.WellFormed := by
  rw [parse_eq_whole, Reader.whole_eq_ok_iff] at h
  obtain ⟨l', hrun, -⟩ := h
  exact Standard.reads.wellFormed_of_run Formula.spelling_text hrun

/-- A text in polish notation is parsed as a well-formed formula. -/
theorem wellFormed_of_parsePolish {s : String} {limit : Option Nat} {f : Formula}
    (h : parsePolish s limit = .ok f) : f.WellFormed := by
  rw [parsePolish_eq_whole, Reader.whole_eq_ok_iff] at h
  obtain ⟨l', hrun, -⟩ := h
  exact Polish.reads.wellFormed_of_run Formula.spelling_polish hrun

/-- A well-formed formula is read off the start of a text. -/
theorem wellFormed_of_parsePrefix {s rest : String} {limit : Option Nat} {f : Formula}
    (h : parsePrefix s limit = .ok (f, rest)) : f.WellFormed := by
  rw [parsePrefix_eq_front, Reader.front_eq_ok_iff] at h
  obtain ⟨l', hrun, -⟩ := h
  exact Standard.reads.wellFormed_of_run Formula.spelling_text hrun

/-! ### Substitution -/

/-- Replacing variables by well-formed formulas keeps a formula well-formed. -/
theorem Formula.WellFormed.substituteForm {f : Formula} (hf : f.WellFormed)
    {r : String → Option Formula} (hr : ∀ x g, r x = some g → g.WellFormed) :
    (f.substituteForm r).WellFormed := by
  rw [wellFormed_iff] at hf ⊢
  intro x hx
  rcases mentions_substituteForm_iff_replaced.mp hx with ⟨hxf, -⟩ | ⟨y, g, -, hg, hxg⟩
  · exact hf x hxf
  · exact wellFormed_iff.mp (hr y g hg) x hxg

/-- Replacing operators by templates over `p` and `q` keeps a formula well-formed. -/
theorem Formula.WellFormed.expandForm {f : Formula} (hf : f.WellFormed) {template : Templates}
    (hclosed : template.Closed) : (f.expandForm template).WellFormed := by
  rw [wellFormed_iff] at hf ⊢
  intro x hx
  rcases mentions_of_expandForm hclosed hx with hxf | rfl | rfl
  · exact hf x hxf
  · decide
  · decide

section Laws

variable {κ σ : Type}

/-- The formula that comes with a request. -/
def SubstitutionCall.formula : SubstitutionCall κ → Formula
  | insert _ f => f
  | apply f => f

/-- The formula that a request is answered with, if it is one for rewriting. -/
def SubstitutionAnswer.rewritten? : SubstitutionAnswer → Option Formula
  | rewritten g => some g
  | _ => none

/-- The assignment maps keys to well-formed formulas, and the law does not refuse them. -/
def SubstitutionLaw.Admits (law : SubstitutionLaw κ) (m : κ → Option Formula) : Prop :=
  ∀ key f, m key = some f → law.fault? key f = none ∧ f.WellFormed

/-- What the law makes of a well-formed formula is well-formed. -/
def SubstitutionLaw.KeepsWellFormed (law : SubstitutionLaw κ) : Prop :=
  ∀ m f, law.Admits m → f.WellFormed → (law.effect m f).WellFormed

/-- The substitution of variables keeps formulas well-formed. -/
theorem VariableSubstitution.keepsWellFormed : law.KeepsWellFormed := by
  intro m f hm hf
  exact hf.substituteForm fun x g hg => (hm x g hg).2

/-- The substitution of operators keeps formulas well-formed. -/
theorem OperatorSubstitution.keepsWellFormed : law.KeepsWellFormed := by
  intro m f hm hf
  exact hf.expandForm fun op t ht =>
    strayVariable?_eq_none_iff.mp (Option.map_eq_none_iff.mp (hm op t ht).1)

/-- The substitution stands for an assignment of well-formed formulas. -/
def SubstitutionLaw.Holds (law : SubstitutionLaw κ) (Stands : σ → (κ → Option Formula) → Prop)
    (s : σ) : Prop :=
  ∃ m, Stands s m ∧ law.Admits m

namespace SubstitutionKind.Follows

variable [DecidableEq κ] {k : SubstitutionKind κ σ} {law : SubstitutionLaw κ}
  {Stands : σ → (κ → Option Formula) → Prop} {s s' : σ}

/-- A new substitution assigns nothing. -/
theorem holds_start (h : k.Follows law Stands) : law.Holds Stands k.start :=
  ⟨_, h.start, fun _ _ hnone => nomatch hnone⟩

/-- An insertion that is accepted assigns a well-formed formula. -/
theorem insert_keeps (h : k.Follows law Stands) (hs : law.Holds Stands s) {key : κ}
    {f : Formula} (hf : f.WellFormed) (hinsert : k.insert s key f = .ok s') :
    law.Holds Stands s' := by
  obtain ⟨m, hstands, hm⟩ := hs
  cases hfault : law.fault? key f with
  | some e => rw [h.refuse hstands hfault] at hinsert; cases hinsert
  | none =>
      obtain ⟨s₁, hs₁, hstands'⟩ := h.insert hstands hfault
      obtain rfl : s₁ = s' := Except.ok.inj (hs₁.symm.trans hinsert)
      refine ⟨_, hstands', fun key' g hg => ?_⟩
      split at hg
      · rename_i hkey
        subst hkey
        obtain rfl := Option.some.inj hg
        exact ⟨hfault, hf⟩
      · exact hm key' g hg

/-- Insertions that are all accepted assign well-formed formulas. -/
theorem foldlM_insert_keeps (h : k.Follows law Stands) {entries : List (κ × Formula)}
    (hs : law.Holds Stands s) (hentries : ∀ e ∈ entries, e.2.WellFormed)
    (hinsert : entries.foldlM (fun s e => k.insert s e.1 e.2) s = .ok s') :
    law.Holds Stands s' := by
  induction entries generalizing s with
  | nil =>
      obtain rfl := Except.ok.inj hinsert
      exact hs
  | cons e entries ih =>
      obtain ⟨he, hentries⟩ := List.forall_mem_cons.mp hentries
      rw [List.foldlM_cons] at hinsert
      cases hfirst : k.insert s e.1 e.2 with
      | error fault =>
          rw [hfirst] at hinsert
          cases hinsert
      | ok s₁ =>
          rw [hfirst] at hinsert
          exact ih (h.insert_keeps hs he hfirst) hentries hinsert

/-- What is rewritten is well-formed. -/
theorem apply_keeps (h : k.Follows law Stands) (hlaw : law.KeepsWellFormed)
    (hs : law.Holds Stands s) {f : Formula} (hf : f.WellFormed) :
    (k.apply s f).1.WellFormed ∧ law.Holds Stands (k.apply s f).2 := by
  obtain ⟨m, hstands, hm⟩ := hs
  obtain ⟨hanswer, hstands'⟩ := h.apply f hstands
  rw [hanswer]
  exact ⟨hlaw m f hm hf, m, hstands', hm⟩

/-- **A request with a well-formed formula is answered with no other**, and leaves a
substitution that assigns no other. -/
theorem step_keeps (h : k.Follows law Stands) (hlaw : law.KeepsWellFormed)
    (hs : law.Holds Stands s) {call : SubstitutionCall κ} (hcall : call.formula.WellFormed) :
    (∀ g ∈ (k.step s call).1.rewritten?, g.WellFormed) ∧ law.Holds Stands (k.step s call).2 := by
  cases call with
  | apply f =>
      obtain ⟨hanswer, hs'⟩ := h.apply_keeps hlaw hs hcall
      refine ⟨fun g hg => ?_, hs'⟩
      obtain rfl := Option.some.inj hg
      exact hanswer
  | insert key f =>
      cases hinsert : k.insert s key f with
      | ok s' =>
          rw [step_insert_of_ok hinsert]
          exact ⟨fun g hg => (nomatch hg), h.insert_keeps hs hcall hinsert⟩
      | error e =>
          rw [step_insert_of_error hinsert]
          exact ⟨fun g hg => (nomatch hg), hs⟩

/-- What a new substitution with well-formed entries rewrites is well-formed. -/
theorem wellFormed_of_entries (h : k.Follows law Stands) (hlaw : law.KeepsWellFormed)
    {entries : List (κ × Formula)} (hentries : ∀ e ∈ entries, e.2.WellFormed) {f g : Formula}
    (hf : f.WellFormed)
    (hg : (entries.foldlM (fun s e => k.insert s e.1 e.2) k.start).map
      (fun s => (k.apply s f).1) = .ok g) : g.WellFormed := by
  cases hinsert : entries.foldlM (fun s e => k.insert s e.1 e.2) k.start with
  | error e =>
      rw [hinsert] at hg
      cases hg
  | ok s =>
      rw [hinsert] at hg
      obtain rfl := Except.ok.inj hg
      exact (h.apply_keeps hlaw (h.foldlM_insert_keeps h.holds_start hentries hinsert) hf).1

end SubstitutionKind.Follows

end Laws

/-- Replacing variables by a list of well-formed formulas keeps a formula well-formed. -/
theorem Formula.wellFormed_of_substituteVariables {f g : Formula}
    {entries : List (String × Formula)} (hf : f.WellFormed)
    (hentries : ∀ e ∈ entries, e.2.WellFormed) (h : f.substituteVariables entries = .ok g) :
    g.WellFormed :=
  VariableSubstitution.follows.wellFormed_of_entries VariableSubstitution.keepsWellFormed
    hentries hf h

/-- Replacing operators by a list of well-formed templates keeps a formula well-formed. -/
theorem Formula.wellFormed_of_substituteOperators {f g : Formula}
    {entries : List (Operator × Formula)} (hf : f.WellFormed)
    (hentries : ∀ e ∈ entries, e.2.WellFormed) (h : f.substituteOperators entries = .ok g) :
    g.WellFormed :=
  OperatorSubstitution.follows.wellFormed_of_entries OperatorSubstitution.keepsWellFormed
    hentries hf h

/-! ### Models and synthesis -/

/-- The pairs of a model that is built have valid names. -/
theorem Model.isVariable_of_firstFault? {seen : OrderedSet String} {pairs : List (String × Bool)}
    (h : firstFault? seen pairs = none) : ∀ p ∈ pairs, isVariable p.1 = true := by
  induction pairs generalizing seen with
  | nil => exact fun p hp => absurd hp List.not_mem_nil
  | cons p pairs ih =>
      obtain ⟨name, value⟩ := p
      rw [firstFault?] at h
      split at h
      · cases h
      · split at h
        · rename_i hname
          exact List.forall_mem_cons.mpr ⟨hname, ih h⟩
        · cases h

/-- The variables of a model that is built from pairs have valid names. -/
theorem Model.isVariable_of_ofPairs {pairs : List (String × Bool)} {m : Model}
    (h : ofPairs pairs = .ok m) : ∀ x ∈ m.vars, isVariable x = true := by
  rw [ofPairs] at h
  split at h
  · cases h
  · rename_i hfault
    obtain rfl := Except.ok.inj h
    exact List.forall_mem_map.mpr (isVariable_of_firstFault? hfault)

/-- The variables of a model that is built from a map have valid names. -/
theorem Model.isVariable_of_ofMap {map : OrderedMap String Bool} {m : Model}
    (h : ofMap map = .ok m) : ∀ x ∈ m.vars, isVariable x = true := by
  rw [ofMap] at h
  split at h
  · cases h
  · rename_i hfind
    obtain rfl := Except.ok.inj h
    rw [List.find?_eq_none] at hfind
    exact fun x hx => by simpa using hfind x hx

/-- The variables of a model that gets one more value have valid names. -/
theorem Model.isVariable_of_insert {m m' : Model} {name : String} {value : Bool}
    {old : Option Bool} (hm : ∀ x ∈ m.vars, isVariable x = true)
    (h : m.insert name value = .ok (old, m')) : ∀ x ∈ m'.vars, isVariable x = true := by
  rw [insert] at h
  split at h
  · rename_i hname
    obtain ⟨-, rfl⟩ := Prod.mk.inj (Except.ok.inj h)
    intro x hx
    rw [vars, OrderedMap.keys_insert] at hx
    split at hx
    · exact hm x hx
    · rcases List.mem_append.mp hx with hx | hx
      · exact hm x hx
      · exact List.mem_singleton.mp hx ▸ hname
  · cases h

/-- The variables of a model that is enumerated have valid names. -/
theorem Enumeration.isVariable_of_modelAt? {names : List String} {e : Enumeration} {number : Nat}
    {m : Model} (he : ofVariables names = .ok e) (hm : e.modelAt? number = some m) :
    ∀ x ∈ m.vars, isVariable x = true := by
  obtain ⟨hvalid, -, rfl⟩ := of_ofVariables he
  obtain ⟨-, hm⟩ := Option.ite_none_right_eq_some.mp hm
  obtain rfl : modelOf names number = m := Option.some.inj hm
  rw [vars_modelOf]
  exact hvalid

/-- The clause for a model with valid names is well-formed. -/
theorem NormalForm.wellFormed_of_clause {form : NormalForm} {m : Model} {f : Formula}
    (hm : ∀ x ∈ m.vars, isVariable x = true) (h : form.clause m = .ok f) : f.WellFormed := by
  rw [Formula.wellFormed_iff]
  intro x hx
  exact hm x (((singlesOut_of_clause h).mentions_iff x).mp hx)

/-- **The formula for a table is well-formed.** -/
theorem NormalForm.wellFormed_of_synthesize {form : NormalForm} {names : List String}
    {values : List Bool} {f : Formula} (h : form.synthesize names values = .ok f) :
    f.WellFormed := by
  cases htable : tableModels names values with
  | error e =>
      simp only [synthesize, htable] at h
      cases h
  | ok table =>
      obtain ⟨hne, hvalid, hrows⟩ := of_tableModels htable
      obtain ⟨g, hg, -, hmentions, -⟩ := form.exists_synthesize hne htable hrows
      obtain rfl : g = f := Except.ok.inj (hg.symm.trans h)
      exact Formula.wellFormed_iff.mpr fun x hx => hvalid x (hmentions x hx)

end Propositional

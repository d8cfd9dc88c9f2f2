import Propositional.Proofs.Construction.Operations
import Propositional.Proofs.Construction.Rewriting

/-!
# Sessions

A session is a sequence of requests to the library, each of which may use what the earlier
ones have returned. Formulas are values, and a request names its operands: it is made only
if all of them were returned before. Models and substitutions change with the requests
that are made to them, so they are named by their place among those that were begun.

A session begins with nothing. It follows that everything it comes to hold is well-formed
(`Session.valid_run`): one request keeps this (`Session.Valid.perform`), with one case for
each kind of request. That is all there is to show for a node to be what it ought to be,
and for no check to fail and no impossible branch to be met on the way to it.

## Main results

* `Session.Valid.perform`: one request keeps a session valid.
* `Session.valid_run`: every session is valid.
* `Session.exists_run_iff_wellFormed`: what is returned by sessions is what is well-formed.
* `Session.never_malformed`: what this means for the nodes of the formulas, for the
  parsers, for the printer and for the substitutions.
-/

namespace Propositional

/-- What has been obtained from the library so far. -/
structure Session where
  /-- The formulas that were returned. -/
  formulas : List Formula
  /-- The models that were begun, as they are now. -/
  models : List Model
  /-- The substitutions of variables that were begun, as they are now. -/
  variableSubstitutions : List VariableSubstitution
  /-- The substitutions of operators that were begun, as they are now. -/
  operatorSubstitutions : List OperatorSubstitution

namespace SubstitutionKind

variable {κ σ : Type}

/-- What the substitution at a place answers if it is asked to rewrite a formula, and the
substitutions after the request to it. -/
def callAt (k : SubstitutionKind κ σ) (substitutions : List σ) (place : Nat)
    (call : SubstitutionCall κ) : Option Formula × List σ :=
  match substitutions[place]? with
  | none => (none, substitutions)
  | some s => ((k.step s call).1.rewritten?, substitutions.set place (k.step s call).2)

/-- A request with a well-formed formula to one of the substitutions keeps all of them. -/
theorem Follows.callAt_keeps [DecidableEq κ] {k : SubstitutionKind κ σ}
    {law : SubstitutionLaw κ} {Stands : σ → (κ → Option Formula) → Prop}
    (h : k.Follows law Stands) (hlaw : law.KeepsWellFormed) {substitutions : List σ}
    (hheld : ∀ s ∈ substitutions, law.Holds Stands s) (place : Nat)
    {call : SubstitutionCall κ} (hcall : call.formula.WellFormed) :
    (∀ g ∈ (k.callAt substitutions place call).1, g.WellFormed) ∧
      ∀ s ∈ (k.callAt substitutions place call).2, law.Holds Stands s := by
  rw [callAt]
  cases hplace : substitutions[place]? with
  | none => exact ⟨fun g hg => (nomatch hg), hheld⟩
  | some s =>
      obtain ⟨hanswer, hs⟩ := h.step_keeps hlaw (hheld s (List.mem_of_getElem? hplace)) hcall
      refine ⟨hanswer, fun s' hs' => ?_⟩
      rcases List.mem_or_eq_of_mem_set hs' with hs' | rfl
      · exact hheld s' hs'
      · exact hs

end SubstitutionKind

namespace Session

/-- Nothing has been obtained. -/
def start : Session := ⟨[], [], [], []⟩

/-- A request to the library. -/
inductive Request
  /-- Read a formula with a parser, whatever it has read before. -/
  | read (p : Parser) (form : TextForm)
  | parse (text : String) (maxDepth : Option Nat)
  | parsePolish (text : String) (maxDepth : Option Nat)
  | parsePrefix (text : String) (maxDepth : Option Nat)
  | ofRoot (symbol : String) (operands : List Formula)
  | ofOperator (op : Operator) (operands : List Formula)
  | ofName (name : String)
  | const (value : Bool)
  | not (f : Formula)
  | binary (c : Connective) (f g : Formula)
  /-- Begin a substitution of variables. -/
  | newVariableSubstitution
  /-- Make a request to the substitution of variables at the place. -/
  | callVariables (place : Nat) (call : SubstitutionCall String)
  | substituteVariables (f : Formula) (entries : List (String × Formula))
  /-- Begin a substitution of operators. -/
  | newOperatorSubstitution
  /-- Make a request to the substitution of operators at the place. -/
  | callOperators (place : Nat) (call : SubstitutionCall Operator)
  | substituteOperators (f : Formula) (entries : List (Operator × Formula))
  /-- Begin a model with the pairs. -/
  | modelOfPairs (pairs : List (String × Bool))
  /-- Begin a model with the entries of a map. -/
  | modelOfMap (map : OrderedMap String Bool)
  /-- Begin with the model that has the number among those over the variables. -/
  | modelAt (names : List String) (number : Nat)
  /-- Give a variable a value in the model at the place. -/
  | assign (place : Nat) (name : String) (value : Bool)
  /-- Write the clause for the model at the place. -/
  | clause (form : NormalForm) (place : Nat)
  | synthesize (form : NormalForm) (names : List String) (values : List Bool)

/-- The formulas that come with a request. -/
def Request.operands : Request → List Formula
  | ofRoot _ operands | ofOperator _ operands => operands
  | not f => [f]
  | binary _ f g => [f, g]
  | callVariables _ call => [call.formula]
  | callOperators _ call => [call.formula]
  | substituteVariables f entries => f :: entries.map Prod.snd
  | substituteOperators f entries => f :: entries.map Prod.snd
  | _ => []

/-- The session after a request that returns the formula, unless it fails. -/
def addFormula (s : Session) (f : Option Formula) : Session :=
  { s with formulas := s.formulas ++ f.toList }

/-- The session after a request that begins the model, unless it fails. -/
def addModel (s : Session) (m : Option Model) : Session :=
  { s with models := s.models ++ m.toList }

/-- The session after a request. -/
def perform (s : Session) : Request → Session
  | .read p form => s.addFormula (p.read form).1.toOption
  | .parse text limit => s.addFormula (parse text limit).toOption
  | .parsePolish text limit => s.addFormula (parsePolish text limit).toOption
  | .parsePrefix text limit => s.addFormula ((parsePrefix text limit).toOption.map Prod.fst)
  | .ofRoot symbol operands => s.addFormula (Formula.ofRoot? symbol operands).toOption
  | .ofOperator op operands => s.addFormula (Formula.ofOperator? op operands).toOption
  | .ofName name => s.addFormula (Formula.ofName? name).toOption
  | .const value => s.addFormula (some (.const value))
  | .not f => s.addFormula (some (.not f))
  | .binary c f g => s.addFormula (some (.binary c f g))
  | .newVariableSubstitution =>
      { s with variableSubstitutions := s.variableSubstitutions ++ [.empty] }
  | .callVariables place call =>
      let (f, substitutions) :=
        VariableSubstitution.kind.callAt s.variableSubstitutions place call
      { s with variableSubstitutions := substitutions }.addFormula f
  | .substituteVariables f entries => s.addFormula (f.substituteVariables entries).toOption
  | .newOperatorSubstitution =>
      { s with operatorSubstitutions := s.operatorSubstitutions ++ [.empty] }
  | .callOperators place call =>
      let (f, substitutions) :=
        OperatorSubstitution.kind.callAt s.operatorSubstitutions place call
      { s with operatorSubstitutions := substitutions }.addFormula f
  | .substituteOperators f entries => s.addFormula (f.substituteOperators entries).toOption
  | .modelOfPairs pairs => s.addModel (Model.ofPairs pairs).toOption
  | .modelOfMap map => s.addModel (Model.ofMap map).toOption
  | .modelAt names number =>
      s.addModel ((Enumeration.ofVariables names).toOption.bind (·.modelAt? number))
  | .assign place name value =>
      match s.models[place]? with
      | none => s
      | some m =>
          match m.insert name value with
          | .error _ => s
          | .ok (_, m') => { s with models := s.models.set place m' }
  | .clause form place =>
      s.addFormula (s.models[place]?.bind fun m => (form.clause m).toOption)
  | .synthesize form names values => s.addFormula (form.synthesize names values).toOption

/-- The session after a request, which is made only if the formulas that come with it were
returned before. -/
def step (s : Session) (request : Request) : Session :=
  if ∀ f ∈ request.operands, f ∈ s.formulas then s.perform request else s

/-- The session in which the requests were made one after the other. -/
def run (requests : List Request) : Session :=
  requests.foldl step start

/-! ### What a session holds -/

/-- Everything that the session holds is well-formed. -/
structure Valid (s : Session) : Prop where
  formulas : ∀ f ∈ s.formulas, f.WellFormed
  models : ∀ m ∈ s.models, ∀ x ∈ m.vars, isVariable x = true
  variableSubstitutions : ∀ σ ∈ s.variableSubstitutions,
    VariableSubstitution.law.Holds VariableSubstitution.Stands σ
  operatorSubstitutions : ∀ σ ∈ s.operatorSubstitutions,
    OperatorSubstitution.law.Holds OperatorSubstitution.Stands σ

/-- A session that holds nothing is valid. -/
theorem valid_start : start.Valid := by
  constructor <;> exact fun _ h => absurd h List.not_mem_nil

/-- A result that is there as an option was no error. -/
theorem eq_ok_of_toOption {ε α : Type} {result : Except ε α} {a : α}
    (h : result.toOption = some a) : result = .ok a := by
  cases result with
  | error e => cases h
  | ok a' => exact congrArg Except.ok (Option.some.inj h)

section Kept

variable {s : Session}

/-- A session stays valid if a well-formed formula is returned. -/
theorem Valid.addFormula (h : s.Valid) {f : Option Formula} (hf : ∀ g ∈ f, g.WellFormed) :
    (s.addFormula f).Valid where
  formulas g hg := by
    rcases List.mem_append.mp hg with hg | hg
    · exact h.formulas g hg
    · exact hf g (Option.mem_toList.mp hg)
  models := h.models
  variableSubstitutions := h.variableSubstitutions
  operatorSubstitutions := h.operatorSubstitutions

/-- So it does for a request that fails or returns a well-formed formula. -/
theorem Valid.addFormula_toOption {ε : Type} (h : s.Valid) {result : Except ε Formula}
    (hresult : ∀ g, result = .ok g → g.WellFormed) : (s.addFormula result.toOption).Valid := by
  exact h.addFormula fun g hg => hresult g (eq_ok_of_toOption hg)

/-- A session stays valid if a model with valid names is begun. -/
theorem Valid.addModel (h : s.Valid) {m : Option Model}
    (hm : ∀ m' ∈ m, ∀ x ∈ m'.vars, isVariable x = true) : (s.addModel m).Valid where
  formulas := h.formulas
  models m' hm' := by
    rcases List.mem_append.mp hm' with hm' | hm'
    · exact h.models m' hm'
    · exact hm m' (Option.mem_toList.mp hm')
  variableSubstitutions := h.variableSubstitutions
  operatorSubstitutions := h.operatorSubstitutions

/-- **A request whose operands are well-formed keeps a session valid.** -/
theorem Valid.perform (h : s.Valid) {request : Request}
    (hoperands : ∀ f ∈ request.operands, f.WellFormed) : (s.perform request).Valid := by
  cases request with
  | read p form => exact h.addFormula_toOption fun g => Parser.wellFormed_of_read
  | parse text limit => exact h.addFormula_toOption fun g => wellFormed_of_parse
  | parsePolish text limit => exact h.addFormula_toOption fun g => wellFormed_of_parsePolish
  | parsePrefix text limit =>
      refine h.addFormula fun g hg => ?_
      obtain ⟨⟨g, rest⟩, hread, rfl⟩ := Option.map_eq_some_iff.mp hg
      exact wellFormed_of_parsePrefix (eq_ok_of_toOption hread)
  | ofRoot symbol operands =>
      exact h.addFormula_toOption fun g hg => Formula.wellFormed_of_ofRoot? hg hoperands
  | ofOperator op operands =>
      exact h.addFormula_toOption fun g hg => Formula.wellFormed_of_ofOperator? hg hoperands
  | ofName name => exact h.addFormula_toOption fun g => Formula.wellFormed_of_ofName?
  | const value =>
      refine h.addFormula fun g hg => ?_
      obtain rfl := Option.some.inj hg
      exact trivial
  | not f =>
      refine h.addFormula fun g hg => ?_
      obtain rfl := Option.some.inj hg
      exact hoperands f List.mem_cons_self
  | binary c f g =>
      refine h.addFormula fun g hg => ?_
      obtain rfl := Option.some.inj hg
      exact ⟨hoperands f (by simp [Request.operands]), hoperands g (by simp [Request.operands])⟩
  | newVariableSubstitution =>
      refine ⟨h.formulas, h.models, ?_, h.operatorSubstitutions⟩
      exact List.forall_mem_append.mpr ⟨h.variableSubstitutions,
        List.forall_mem_singleton.mpr VariableSubstitution.follows.holds_start⟩
  | callVariables place call =>
      obtain ⟨hanswer, hheld⟩ := VariableSubstitution.follows.callAt_keeps
        VariableSubstitution.keepsWellFormed h.variableSubstitutions place
        (hoperands call.formula List.mem_cons_self)
      have hkept : Session.Valid { s with
          variableSubstitutions :=
            (VariableSubstitution.kind.callAt s.variableSubstitutions place call).2 } :=
        ⟨h.formulas, h.models, hheld, h.operatorSubstitutions⟩
      exact hkept.addFormula hanswer
  | substituteVariables f entries =>
      obtain ⟨hf, hentries⟩ := List.forall_mem_cons.mp hoperands
      exact h.addFormula_toOption fun g =>
        Formula.wellFormed_of_substituteVariables hf (List.forall_mem_map.mp hentries)
  | newOperatorSubstitution =>
      refine ⟨h.formulas, h.models, h.variableSubstitutions, ?_⟩
      exact List.forall_mem_append.mpr ⟨h.operatorSubstitutions,
        List.forall_mem_singleton.mpr OperatorSubstitution.follows.holds_start⟩
  | callOperators place call =>
      obtain ⟨hanswer, hheld⟩ := OperatorSubstitution.follows.callAt_keeps
        OperatorSubstitution.keepsWellFormed h.operatorSubstitutions place
        (hoperands call.formula List.mem_cons_self)
      have hkept : Session.Valid { s with
          operatorSubstitutions :=
            (OperatorSubstitution.kind.callAt s.operatorSubstitutions place call).2 } :=
        ⟨h.formulas, h.models, h.variableSubstitutions, hheld⟩
      exact hkept.addFormula hanswer
  | substituteOperators f entries =>
      obtain ⟨hf, hentries⟩ := List.forall_mem_cons.mp hoperands
      exact h.addFormula_toOption fun g =>
        Formula.wellFormed_of_substituteOperators hf (List.forall_mem_map.mp hentries)
  | modelOfPairs pairs =>
      exact h.addModel fun m hm => Model.isVariable_of_ofPairs (eq_ok_of_toOption hm)
  | modelOfMap map =>
      exact h.addModel fun m hm => Model.isVariable_of_ofMap (eq_ok_of_toOption hm)
  | modelAt names number =>
      refine h.addModel fun m hm => ?_
      obtain ⟨models, hmodels, hm⟩ := Option.bind_eq_some_iff.mp hm
      exact Enumeration.isVariable_of_modelAt? (eq_ok_of_toOption hmodels) hm
  | assign place name value =>
      rw [Session.perform]
      split
      · exact h
      · rename_i m hplace
        split
        · exact h
        · rename_i old m' hinsert
          have hm' := Model.isVariable_of_insert (h.models m (List.mem_of_getElem? hplace)) hinsert
          refine ⟨h.formulas, fun m₁ hm₁ => ?_, h.variableSubstitutions,
            h.operatorSubstitutions⟩
          rcases List.mem_or_eq_of_mem_set hm₁ with hm₁ | rfl
          · exact h.models m₁ hm₁
          · exact hm'
  | clause form place =>
      refine h.addFormula fun g hg => ?_
      obtain ⟨m, hplace, hclause⟩ := Option.bind_eq_some_iff.mp hg
      exact NormalForm.wellFormed_of_clause (h.models m (List.mem_of_getElem? hplace))
        (eq_ok_of_toOption hclause)
  | synthesize form names values =>
      exact h.addFormula_toOption fun g => NormalForm.wellFormed_of_synthesize

/-- A session stays valid, whatever is requested. -/
theorem Valid.step (h : s.Valid) (request : Request) : (s.step request).Valid := by
  rw [Session.step]
  split
  · rename_i hoperands
    exact h.perform fun f hf => h.formulas f (hoperands f hf)
  · exact h

end Kept

/-- **Every session is valid.** -/
theorem valid_run (requests : List Request) : (run requests).Valid := by
  rw [run]
  generalize start = s, valid_start = h
  induction requests generalizing s with
  | nil => exact h
  | cons request requests ih => exact ih (s.step request) (h.step request)

/-- The formulas that sessions return are the well-formed ones: one request is enough for
each of them, to parse its text. -/
theorem exists_run_iff_wellFormed {f : Formula} :
    (∃ requests, f ∈ (run requests).formulas) ↔ f.WellFormed := by
  constructor
  · rintro ⟨requests, hf⟩
    exact (valid_run requests).formulas f hf
  · intro hf
    have hparse : parse f.text none = .ok f := parse_eq_ok_iff.mpr ⟨hf, rfl⟩
    have hmade : ∀ g ∈ (Request.parse f.text none).operands, g ∈ start.formulas :=
      fun g hg => absurd hg List.not_mem_nil
    have hrun : run [.parse f.text none] = start.addFormula (parse f.text none).toOption := by
      rw [run, List.foldl_cons, List.foldl_nil, step, if_pos hmade]
      rfl
    refine ⟨[.parse f.text none], ?_⟩
    rw [hrun, hparse]
    exact List.mem_singleton_self f

/-- **No session ever meets a malformed formula.** Sessions return the well-formed formulas
and no others. Whatever is requested in whatever order: each node of each formula that was
returned is a variable with a valid name or an operator with as many operands as its
arity, just what the checked builder makes of its symbol and its operands, and the printer
never finds an operator that it cannot write. Each substitution, at any time and on any
formula, is given as many rewritten operands as a node had, and is left with one result.
And no text at all makes a parser build a node that a checked builder would refuse, so
that parsing with checked builders gives the same formulas and the same errors, all of
which are about the text. -/
theorem never_malformed :
    (∀ f, (∃ requests, f ∈ (run requests).formulas) ↔ f.WellFormed) ∧
    (∀ requests, ∀ f ∈ (run requests).formulas,
      (∀ g ∈ f.preorder, g.ProperNode ∧ Formula.ofRoot? g.root g.operands = .ok g) ∧
        Standard.checkedWrite "" [.formula f] = some f.text) ∧
    (∀ requests f,
      (∀ σ ∈ (run requests).variableSubstitutions, σ.checkedApply f = some (σ.apply f)) ∧
        ∀ σ ∈ (run requests).operatorSubstitutions, σ.checkedApply f = some (σ.apply f)) ∧
    (∀ text limit,
      checkedParse text limit = (parse text limit).mapError .ofText ∧
        checkedParsePolish text limit = (parsePolish text limit).mapError .ofText ∧
        checkedParsePrefix text limit = (parsePrefix text limit).mapError .ofText) ∧
    ∀ text limit e,
      checkedParse text limit ≠ .error (.ofParts e) ∧
        checkedParsePolish text limit ≠ .error (.ofParts e) ∧
        checkedParsePrefix text limit ≠ .error (.ofParts e) := by
  refine ⟨fun f => exists_run_iff_wellFormed,
    fun requests f hf => ⟨?_, Standard.checkedWrite_eq "" [.formula f]⟩,
    fun requests f => ⟨fun σ hσ => ?_, fun σ hσ => ?_⟩,
    fun text limit => ⟨checkedParse_eq text limit, checkedParsePolish_eq text limit,
      checkedParsePrefix_eq text limit⟩, fun text limit e => ?_⟩
  · intro g hg
    have hproper :=
      Formula.wellFormed_iff_forall_properNode.mp ((valid_run requests).formulas f hf) g hg
    exact ⟨hproper, Formula.properNode_iff_ofRoot?.mp hproper⟩
  · obtain ⟨m, hstands, -⟩ := (valid_run requests).variableSubstitutions σ hσ
    exact VariableSubstitution.checkedApply_eq hstands.faithful f
  · obtain ⟨m, hstands, -⟩ := (valid_run requests).operatorSubstitutions σ hσ
    exact OperatorSubstitution.checkedApply_eq hstands.faithful f
  · rw [checkedParse_eq, checkedParsePolish_eq, checkedParsePrefix_eq]
    exact ⟨mapError_ofText_ne _ e, mapError_ofText_ne _ e, mapError_ofText_ne _ e⟩

end Session

end Propositional

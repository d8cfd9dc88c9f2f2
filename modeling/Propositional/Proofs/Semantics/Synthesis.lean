import Propositional.Proofs.Semantics.Enumeration
import Propositional.TruthTable.Basic
import Propositional.TruthTable.Synthesis

/-!
# Synthesis Reproduces the Table

In both normal forms a clause has the value `NormalForm.selected` exactly where all its
literals have it, and the whole formula exactly where one of its clauses has it. So the
clause for a model singles out the assignments that give the variables of the model their
values there (`NormalForm.SinglesOut`), and since no two models of an enumeration give all
variables the same values, in the model with the number `i` only the clause written for
that model can have the value `selected`.

## Main results

* `NormalForm.exists_synthesize`: where the formula for a table has the value `selected`,
  and which variables it mentions.
* `NormalForm.synthesize_reproduces`: the values of the formula in the models are the
  entries of the table.
-/

namespace Propositional.NormalForm

/-! ### Chains of formulas -/

/-- The connective inside the clauses yields `selected` where both operands do. -/
theorem apply_inner_iff (form : NormalForm) (a b : Bool) :
    form.inner.apply a b = form.selected ↔ a = form.selected ∧ b = form.selected := by
  revert a b
  cases form <;> decide

/-- The connective between the clauses yields `selected` where one operand does. -/
theorem apply_outer_iff (form : NormalForm) (a b : Bool) :
    form.outer.apply a b = form.selected ↔ a = form.selected ∨ b = form.selected := by
  revert a b
  cases form <;> decide

/-- A chain of literals yields `selected` where all literals do. -/
theorem value_chain_inner (form : NormalForm) (v : String → Bool) (f : Formula)
    (rest : List Formula) :
    (chain form.inner f rest).value v = form.selected ↔
      ∀ g ∈ f :: rest, g.value v = form.selected := by
  induction rest generalizing f with
  | nil => simp [chain]
  | cons g rest ih =>
      have hstep := ih (.binary form.inner f g)
      simp only [List.forall_mem_cons, Formula.value, apply_inner_iff, and_assoc] at hstep ⊢
      exact hstep

/-- A chain of clauses yields `selected` where one clause does. -/
theorem value_chain_outer (form : NormalForm) (v : String → Bool) (f : Formula)
    (rest : List Formula) :
    (chain form.outer f rest).value v = form.selected ↔
      ∃ g ∈ f :: rest, g.value v = form.selected := by
  induction rest generalizing f with
  | nil => simp [chain]
  | cons g rest ih =>
      have hstep := ih (.binary form.outer f g)
      simp only [List.exists_mem_cons_iff, Formula.value, apply_outer_iff, or_assoc] at hstep ⊢
      exact hstep

/-- A chain mentions the variables of its members. -/
theorem mentions_chain (c : Connective) (x : String) (f : Formula) (rest : List Formula) :
    (chain c f rest).Mentions x ↔ ∃ g ∈ f :: rest, g.Mentions x := by
  induction rest generalizing f with
  | nil => simp [chain]
  | cons g rest ih =>
      have hstep := ih (.binary c f g)
      simp only [List.exists_mem_cons_iff, Formula.Mentions, or_assoc] at hstep ⊢
      exact hstep

/-- Two truth values are equal if both or none of them are the one asked for. -/
theorem eq_of_eq_selected_iff {a b selected : Bool} (h : a = selected ↔ b = selected) : a = b := by
  revert a b selected
  decide

/-! ### Clauses -/

/-- A literal yields `selected` where its variable has the value of the entry. -/
theorem value_entryLiteral (form : NormalForm) (v : String → Bool) (e : String × Bool) :
    (form.entryLiteral e).value v = form.selected ↔ v e.1 = e.2 := by
  obtain ⟨name, value⟩ := e
  cases form <;> cases value <;> cases hv : v name <;>
    simp [entryLiteral, literal, selected, Formula.value, hv]

/-- A literal mentions its variable. -/
theorem mentions_entryLiteral (form : NormalForm) (x : String) (e : String × Bool) :
    (form.entryLiteral e).Mentions x ↔ x = e.1 := by
  unfold entryLiteral literal
  split
  · exact eq_comm
  · exact eq_comm

/-- The formula yields `selected` in exactly the assignments that give the variables of
the model their values there, and mentions these variables. -/
structure SinglesOut (form : NormalForm) (m : Model) (f : Formula) : Prop where
  value_iff : ∀ v, f.value v = form.selected ↔ ∀ e ∈ m.entries, v e.1 = e.2
  mentions_iff : ∀ x, f.Mentions x ↔ x ∈ m.vars

/-- **The clause for a model singles it out.** -/
theorem singlesOut_of_clause {form : NormalForm} {m : Model} {f : Formula}
    (h : form.clause m = .ok f) : form.SinglesOut m f := by
  rw [clause] at h
  split at h
  · cases h
  · rename_i e rest hentries
    obtain rfl := Except.ok.inj h
    refine ⟨fun v => ?_, fun x => ?_⟩
    · rw [value_chain_inner, ← List.map_cons, ← hentries, List.forall_mem_map]
      simp only [value_entryLiteral]
    · rw [mentions_chain, ← List.map_cons, ← hentries]
      constructor
      · rintro ⟨g, hg, hx⟩
        obtain ⟨e', he', rfl⟩ := List.mem_map.mp hg
        obtain rfl := (form.mentions_entryLiteral x e').mp hx
        exact List.mem_map.mpr ⟨e', he', rfl⟩
      · intro hx
        obtain ⟨e', he', rfl⟩ := List.mem_map.mp hx
        exact ⟨_, List.mem_map.mpr ⟨e', he', rfl⟩, (form.mentions_entryLiteral _ e').mpr rfl⟩

/-- There is a clause for every model that is not empty. -/
theorem exists_clause (form : NormalForm) {m : Model} (h : m.vars ≠ []) :
    ∃ f, form.clause m = .ok f := by
  have hentries : m.entries ≠ [] := fun hnil => h (congrArg (List.map Prod.fst) hnil)
  obtain ⟨e, rest, hcons⟩ := List.exists_cons_of_ne_nil hentries
  exact ⟨_, by rw [clause, hcons]⟩

/-- Where each member of a list has a result, the list has the list of these results. -/
theorem exists_mapM_eq_ok {ε α β : Type} (act : α → Except ε β) (xs : List α)
    (h : ∀ x ∈ xs, ∃ y, act x = .ok y) :
    ∃ ys, xs.mapM act = .ok ys ∧ ∀ y, y ∈ ys ↔ ∃ x ∈ xs, act x = .ok y := by
  induction xs with
  | nil => exact ⟨[], rfl, by simp⟩
  | cons x xs ih =>
      obtain ⟨y, hy⟩ := h x List.mem_cons_self
      obtain ⟨ys, hys, hmem⟩ := ih fun x' hx' => h x' (List.mem_cons_of_mem x hx')
      refine ⟨y :: ys, ?_, fun z => ?_⟩
      · rw [List.mapM_cons, hy, hys]
        rfl
      · rw [List.mem_cons, hmem, List.exists_mem_cons_iff, hy, Except.ok.injEq, eq_comm]

/-- The clauses for a table are those for the rows with the value `selected`. -/
theorem exists_clauses (form : NormalForm) {table : List (Model × Bool)}
    (h : ∀ row ∈ table, ∃ f, form.clause row.1 = .ok f) :
    ∃ fs, form.clauses table = .ok fs ∧
      ∀ f, f ∈ fs ↔ ∃ row ∈ table, row.2 = form.selected ∧ form.clause row.1 = .ok f := by
  obtain ⟨fs, hfs, hmem⟩ := exists_mapM_eq_ok (fun row => form.clause row.1)
    (table.filter fun row => row.2 == form.selected)
    fun row hrow => h row (List.mem_of_mem_filter hrow)
  refine ⟨fs, hfs, fun f => ?_⟩
  simp only [hmem, List.mem_filter, beq_iff_eq, and_assoc]

/-! ### The formula for a table -/

/-- The clauses joined, or the first variable and its own negation if there are none. -/
def joined (form : NormalForm) (name : String) : List Formula → Formula
  | [] => .binary form.inner (.var name) (.not (.var name))
  | clause :: rest => chain form.outer clause rest

/-- Synthesis joins the clauses for the table. -/
theorem synthesize_eq_joined {form : NormalForm} {name : String} {others : List String}
    {values : List Bool} {table : List (Model × Bool)} {clauses : List Formula}
    (htable : tableModels (name :: others) values = .ok table)
    (hclauses : form.clauses table = .ok clauses) :
    form.synthesize (name :: others) values = .ok (form.joined name clauses) := by
  rw [synthesize, htable]
  simp only [bind, Except.bind, hclauses]
  cases clauses with
  | nil => rfl
  | cons clause rest => rfl

/-- The clauses joined yield `selected` where one of them does. -/
theorem value_joined (form : NormalForm) (v : String → Bool) (name : String)
    (clauses : List Formula) :
    (form.joined name clauses).value v = form.selected ↔
      ∃ g ∈ clauses, g.value v = form.selected := by
  cases clauses with
  | nil =>
      simp only [joined, Formula.value, apply_inner_iff, List.not_mem_nil, false_and,
        exists_false, iff_false]
      cases form <;> cases v name <;> decide
  | cons clause rest => exact form.value_chain_outer v clause rest

/-- The clauses joined mention what the clauses mention, and the first variable if there
are none. -/
theorem mentions_joined (form : NormalForm) (x name : String) (clauses : List Formula) :
    (form.joined name clauses).Mentions x ↔
      (clauses = [] ∧ x = name) ∨ ∃ g ∈ clauses, g.Mentions x := by
  cases clauses with
  | nil => simp [joined, Formula.Mentions, eq_comm]
  | cons clause rest => simp [joined, mentions_chain]

/-- The formula for a table is made of the clauses for the rows with the value
`selected`. -/
theorem exists_synthesize_joined (form : NormalForm) {name : String} {others : List String}
    {values : List Bool} {table : List (Model × Bool)}
    (htable : tableModels (name :: others) values = .ok table)
    (hrows : ∀ row ∈ table, row.1.vars = name :: others) :
    ∃ clauses, form.synthesize (name :: others) values = .ok (form.joined name clauses) ∧
      ∀ f, f ∈ clauses ↔
        ∃ row ∈ table, row.2 = form.selected ∧ form.clause row.1 = .ok f := by
  have hclause : ∀ row ∈ table, ∃ f, form.clause row.1 = .ok f := fun row hrow =>
    form.exists_clause (by rw [hrows row hrow]; exact List.cons_ne_nil name others)
  obtain ⟨clauses, hclauses, hmem⟩ := form.exists_clauses hclause
  exact ⟨clauses, synthesize_eq_joined htable hclauses, hmem⟩

/-- **The formula for a table yields `selected` exactly in the models of the rows that
have this value.** It mentions no other variables than the given ones, and only the first
of them if there is no such row. -/
theorem exists_synthesize (form : NormalForm) {vars : List String} {values : List Bool}
    {table : List (Model × Bool)} (hvars : vars ≠ []) (htable : tableModels vars values = .ok table)
    (hrows : ∀ row ∈ table, row.1.vars = vars) :
    ∃ f, form.synthesize vars values = .ok f ∧
      (∀ v, f.value v = form.selected ↔
        ∃ row ∈ table, row.2 = form.selected ∧ ∀ e ∈ row.1.entries, v e.1 = e.2) ∧
      (∀ x, f.Mentions x → x ∈ vars) ∧
      ((∀ row ∈ table, row.2 ≠ form.selected) → ∀ x, f.Mentions x ↔ vars.head? = some x) := by
  have hclause : ∀ row ∈ table, ∃ f, form.clause row.1 = .ok f := fun row hrow =>
    form.exists_clause (hrows row hrow ▸ hvars)
  obtain ⟨name, others, rfl⟩ := List.exists_cons_of_ne_nil hvars
  obtain ⟨clauses, hsynthesize, hmem⟩ := form.exists_synthesize_joined htable hrows
  refine ⟨form.joined name clauses, hsynthesize, ?_, ?_, ?_⟩
  · intro v
    rw [value_joined]
    constructor
    · rintro ⟨g, hg, hvalue⟩
      obtain ⟨row, hrow, hselected, hg⟩ := (hmem g).mp hg
      exact ⟨row, hrow, hselected, ((singlesOut_of_clause hg).value_iff v).mp hvalue⟩
    · rintro ⟨row, hrow, hselected, hagree⟩
      obtain ⟨g, hg⟩ := hclause row hrow
      exact ⟨g, (hmem g).mpr ⟨row, hrow, hselected, hg⟩,
        ((singlesOut_of_clause hg).value_iff v).mpr hagree⟩
  · intro x hx
    rcases (form.mentions_joined x name clauses).mp hx with ⟨-, rfl⟩ | ⟨g, hg, hxg⟩
    · exact List.mem_cons_self
    · obtain ⟨row, hrow, -, hg⟩ := (hmem g).mp hg
      rw [← hrows row hrow]
      exact ((singlesOut_of_clause hg).mentions_iff x).mp hxg
  · intro hnone x
    have hempty : clauses = [] := by
      rw [List.eq_nil_iff_forall_not_mem]
      intro g hg
      obtain ⟨row, hrow, hselected, -⟩ := (hmem g).mp hg
      exact hnone row hrow hselected
    rw [mentions_joined, hempty]
    simp [eq_comm]

/-! ### The table over an enumeration -/

/-- What makes the rows of a table, and what it is refused for: first of all that there are no
variables, then what the variables are refused for, and then the number of values. -/
theorem tableModels_eq (vars : List String) (values : List Bool) :
    tableModels vars values =
      if vars = [] then .error .emptyVariableList
      else (Enumeration.ofVariables vars).bind fun models =>
        if values.length = 2 ^ vars.length then .ok (models.rest.zip values)
        else .error (.wrongTableLength (2 ^ vars.length) values.length) := by
  refine (if_congr List.isEmpty_iff rfl ?_ : tableModels vars values = _)
  cases hmodels : Enumeration.ofVariables vars with
  | error fault => rfl
  | ok models =>
      obtain ⟨-, -, -, rfl⟩ := Enumeration.ofVariables_eq_ok_iff.mp hmodels
      change (if 2 ^ vars.length ≠ values.length then _ else _) = if _ then _ else _
      rw [ite_not]
      exact if_congr eq_comm rfl rfl

/-- A table has rows if its variables, and there are some, can be enumerated and there are as many
values as models. -/
theorem tableModels_eq_ok_iff {vars : List String} {values : List Bool}
    {table : List (Model × Bool)} :
    tableModels vars values = .ok table ↔
      vars ≠ [] ∧ Enumeration.ofVariables vars = .ok (.start vars) ∧
        values.length = 2 ^ vars.length ∧ (Enumeration.start vars).rest.zip values = table := by
  rw [tableModels_eq]
  by_cases hvars : vars = []
  · simp [hvars]
  · cases hmodels : Enumeration.ofVariables vars with
    | error fault => simp [hvars, Except.bind]
    | ok models =>
        obtain ⟨-, -, -, rfl⟩ := Enumeration.ofVariables_eq_ok_iff.mp hmodels
        by_cases hlength : values.length = 2 ^ vars.length <;>
          simp [hvars, hlength, Except.bind]

/-- The rows of a table, from the models that can be enumerated and as many values. -/
theorem tableModels_eq_ok {vars : List String} {values : List Bool} (hvars : vars ≠ [])
    (hmodels : Enumeration.ofVariables vars = .ok (.start vars))
    (hlength : values.length = 2 ^ vars.length) :
    tableModels vars values = .ok ((Enumeration.start vars).rest.zip values) :=
  tableModels_eq_ok_iff.mpr ⟨hvars, hmodels, hlength, rfl⟩

/-- Only a table over valid names has rows, and their models are over these names. -/
theorem of_tableModels {vars : List String} {values : List Bool} {table : List (Model × Bool)}
    (h : tableModels vars values = .ok table) :
    vars ≠ [] ∧ (∀ x ∈ vars, isVariable x = true) ∧ ∀ row ∈ table, row.1.vars = vars := by
  obtain ⟨hne, hmodels, -, rfl⟩ := tableModels_eq_ok_iff.mp h
  obtain ⟨hvalid, -⟩ := Enumeration.ofVariables_eq_ok_iff.mp hmodels
  refine ⟨hne, hvalid, ?_⟩
  rintro ⟨m, value⟩ hrow
  obtain ⟨number, -, rfl⟩ := Enumeration.mem_rest_start_iff.mp (List.of_mem_zip hrow).1
  exact Enumeration.vars_modelOf vars number

/-- Each row is the model with some number and the entry of that number. -/
theorem mem_rows_iff {vars : List String} {values : List Bool}
    (hlength : values.length = 2 ^ vars.length) {row : Model × Bool} :
    row ∈ (Enumeration.start vars).rest.zip values ↔
      ∃ i, row.1 = Enumeration.modelOf vars i ∧ values[i]? = some row.2 := by
  rw [Enumeration.rest_start, List.mem_iff_getElem?]
  refine exists_congr fun i => ?_
  rw [List.getElem?_zip_eq_some]
  refine and_congr_left fun hi => ?_
  have hlt : i < 2 ^ vars.length := hlength ▸ (List.getElem?_eq_some_iff.mp hi).1
  rw [List.getElem?_map, List.getElem?_range hlt, Option.map_some, Option.some.injEq, eq_comm]

/-- Only the row of the number `i` has the values of the model with that number, so its
entry alone decides whether the formula yields `selected` there. -/
theorem exists_row_iff {selected : Bool} {vars : List String} {values : List Bool}
    (hnodup : vars.Nodup) (hlength : values.length = 2 ^ vars.length) {i : Nat}
    (hi : i < values.length) :
    (∃ row ∈ (Enumeration.start vars).rest.zip values, row.2 = selected ∧
      ∀ e ∈ row.1.entries, (Enumeration.modelOf vars i).valuation e.1 = e.2) ↔
    values[i] = selected := by
  constructor
  · rintro ⟨⟨m, value⟩, hrow, hselected, hagree⟩
    obtain ⟨j, hm, hj⟩ := (mem_rows_iff hlength).mp hrow
    obtain ⟨hjlt, hvalue⟩ := List.getElem?_eq_some_iff.mp hj
    have hmodel : m = Enumeration.modelOf vars j := hm
    rw [hmodel] at hagree
    obtain rfl := (Enumeration.agrees_modelOf_iff hnodup (hlength ▸ hjlt)
      (hlength ▸ hi)).mp hagree
    exact hvalue.trans hselected
  · intro hselected
    refine ⟨(Enumeration.modelOf vars i, values[i]),
      (mem_rows_iff hlength).mpr ⟨i, rfl, List.getElem?_eq_getElem hi⟩, hselected, ?_⟩
    exact (Enumeration.agrees_modelOf_iff hnodup (hlength ▸ hi) (hlength ▸ hi)).mpr rfl

/-- **Synthesis reproduces the table.** For every non-empty list of fewer than 64 distinct
variable names, in any order, and every list of as many values as there are models over
them, there is a formula in either normal form whose value in the model with the number
`i` is the entry `i`. If no entry calls for a clause, so if the table is all false for the
disjunctive and all true for the conjunctive form, the first variable is the only one that
is mentioned. -/
theorem synthesize_reproduces (form : NormalForm) {vars : List String} {values : List Bool}
    (hvars : vars ≠ []) (hvalid : ∀ name ∈ vars, isVariable name = true)
    (hnodup : vars.Nodup) (hlimit : vars.length < 64)
    (hlength : values.length = 2 ^ vars.length) :
    ∃ f models, form.synthesize vars values = .ok f ∧
      Enumeration.ofVariables vars = .ok models ∧
      (∀ i (hi : i < values.length),
        ∃ m, models.modelAt? i = some m ∧ f.evaluate m = .ok values[i]) ∧
      f.truthValues models.rest = values.map .ok ∧
      f.truthValuesOver vars = .ok values ∧
      ((∀ value ∈ values, value ≠ form.selected) →
        ∀ name, f.Mentions name ↔ vars.head? = some name) := by
  have hmodels := Enumeration.ofVariables_eq_ok hvalid hnodup hlimit
  have hrows : ∀ row ∈ (Enumeration.start vars).rest.zip values, row.1.vars = vars := by
    intro row hrow
    obtain ⟨i, hi, -⟩ := (mem_rows_iff hlength).mp hrow
    rw [hi, Enumeration.vars_modelOf]
  obtain ⟨f, hf, hvalue, hmentions, hdegenerate⟩ :=
    form.exists_synthesize hvars (tableModels_eq_ok hvars hmodels hlength) hrows
  have hevaluate : ∀ i (hi : i < values.length),
      f.evaluate (Enumeration.modelOf vars i) = .ok values[i] := by
    intro i hi
    have hiff := (hvalue (Enumeration.modelOf vars i).valuation).trans
      (exists_row_iff hnodup hlength hi)
    rw [Formula.evaluate_of_covers (Enumeration.covers_modelOf hnodup i hmentions),
      eq_of_eq_selected_iff hiff]
  have htruth : f.truthValues (Enumeration.start vars).rest = values.map .ok := by
    rw [Formula.truthValues, Enumeration.rest_start, List.map_map]
    refine List.ext_getElem (by simp [hlength]) fun i hi hi' => ?_
    rw [List.getElem_map, List.getElem_map, List.getElem_range]
    exact hevaluate i (by simpa using hi')
  refine ⟨f, .start vars, hf, hmodels, ?_, htruth, ?_, ?_⟩
  · intro i hi
    exact ⟨_, Enumeration.modelAt?_start (hlength ▸ hi), hevaluate i hi⟩
  · exact Formula.truthValuesOver_eq_ok hmodels htruth
  · intro hnone
    refine hdegenerate fun row hrow => ?_
    obtain ⟨i, -, hi⟩ := (mem_rows_iff hlength).mp hrow
    exact hnone row.2 (List.mem_of_getElem? hi)

/-- Two tables over the variables `q7` and `p`, in that order: the implication in
conjunctive form, and the table without a true entry in disjunctive form. -/
theorem synthesize_reproduces_two_variables :
    (∃ f models, conjunctive.synthesize ["q7", "p"] [true, true, false, true] = .ok f ∧
      Enumeration.ofVariables ["q7", "p"] = .ok models ∧
      f.truthValues models.rest = [.ok true, .ok true, .ok false, .ok true]) ∧
    ∃ f, disjunctive.synthesize ["q7", "p"] [false, false, false, false] = .ok f ∧
      ∀ name, f.Mentions name ↔ some "q7" = some name := by
  constructor
  · obtain ⟨f, models, hf, hmodels, -, htruth, -⟩ :=
      @synthesize_reproduces conjunctive ["q7", "p"] [true, true, false, true]
        (by decide) (by decide) (by decide) (by decide) rfl
    exact ⟨f, models, hf, hmodels, htruth⟩
  · obtain ⟨f, -, hf, -, -, -, -, hmentions⟩ :=
      @synthesize_reproduces disjunctive ["q7", "p"] [false, false, false, false]
        (by decide) (by decide) (by decide) (by decide) rfl
    exact ⟨f, hf, hmentions (by decide)⟩

end Propositional.NormalForm

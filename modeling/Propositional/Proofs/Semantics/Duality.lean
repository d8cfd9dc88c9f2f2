import Mathlib.Data.List.Forall2
import Mathlib.Data.List.Induction
import Propositional.Proofs.Semantics.Synthesis

/-!
# The Two Normal Forms Are Dual

The dual of a formula has `&` and `|` exchanged, and the opposite of each literal in its place
(`Formula.dual`). The conjunctive normal form for a table is the dual of the disjunctive one for the
table with all entries negated, and it is so as a formula, not only up to equivalence.

What makes this so is the shape of the formulas, which is described here apart from how they are
synthesized: a normal form is a chain, nested to the left, of one clause for each selected entry of
the table in order, and a clause is a chain, nested to the left, of one literal for each variable in
order (`NormalForm.IsNormalForm`). Synthesis yields a formula of this shape
(`NormalForm.exists_isNormalForm`), the dual of one in the disjunctive form is one in the
conjunctive form (`NormalForm.IsNormalForm.dual`), and there is but one
(`NormalForm.IsNormalForm.unique`).

## Main definitions

* `Connective.dual`, `Formula.dual`: the exchange of `&` and `|` and of the two kinds of literals.
* `IsChain`: chains of formulas that are nested to the left.
* `NormalForm.IsClause`, `NormalForm.IsNormalForm`: the shape of clauses and of normal forms.

## Main results

* `NormalForm.exists_isNormalForm`: what is synthesized has this shape.
* `NormalForm.conjunctive_eq_dual`: the conjunctive form is the dual of the disjunctive one.
-/

namespace Propositional

/-! ### Duals -/

/-- The connective with `&` and `|` exchanged. -/
def Connective.dual : Connective → Connective
  | .and => .or
  | .or => .and
  | .implies => .implies

/-- The formula with `&` and `|` exchanged and with the opposite of each literal in its place.
Everything else stays as it is. -/
def Formula.dual : Formula → Formula
  | var name => not (var name)
  | not (var name) => var name
  | not f => not f.dual
  | const value => const value
  | binary c f g => binary c.dual f.dual g.dual

/-- The dual of a literal is the opposite one. -/
theorem NormalForm.dual_literal (name : String) (positive : Bool) :
    (literal name positive).dual = literal name !positive := by
  cases positive <;> rfl

/-! ### Chains -/

/-- The formula joins the members of the list, in order, by the connective, and is nested to the
left: the first members are the most deeply nested ones. -/
inductive IsChain (c : Connective) : List Formula → Formula → Prop
  | single (f : Formula) : IsChain c [f] f
  | snoc {fs : List Formula} {f : Formula} (h : IsChain c fs f) (g : Formula) :
      IsChain c (fs ++ [g]) (.binary c f g)

namespace IsChain

variable {c : Connective} {fs : List Formula} {f g : Formula}

/-- Formulas that are joined from the left make a chain. -/
theorem of_chain (c : Connective) (f : Formula) (rest : List Formula) :
    IsChain c (f :: rest) (NormalForm.chain c f rest) := by
  induction rest using List.reverseRecOn with
  | nil => exact single f
  | append_singleton rest g ih =>
      have hchain : NormalForm.chain c f (rest ++ [g]) =
          .binary c (NormalForm.chain c f rest) g := List.foldl_concat ..
      rw [hchain]
      exact ih.snoc g

/-- There is no other chain of them. -/
theorem exists_eq_chain (h : IsChain c fs f) :
    ∃ first rest, fs = first :: rest ∧ f = NormalForm.chain c first rest := by
  induction h with
  | single f => exact ⟨f, [], rfl, rfl⟩
  | snoc h g ih =>
      obtain ⟨first, rest, rfl, rfl⟩ := ih
      exact ⟨first, rest ++ [g], rfl, (List.foldl_concat ..).symm⟩

/-- The members of a chain and their order determine it. -/
theorem unique (h : IsChain c fs f) (h' : IsChain c fs g) : f = g := by
  obtain ⟨first, rest, rfl, rfl⟩ := h.exists_eq_chain
  obtain ⟨first', rest', heq, rfl⟩ := h'.exists_eq_chain
  obtain ⟨rfl, rfl⟩ := List.cons.inj heq
  rfl

/-- The dual of a chain is the chain of the duals. -/
theorem dual (h : IsChain c fs f) : IsChain c.dual (fs.map Formula.dual) f.dual := by
  induction h with
  | single f => exact single f.dual
  | snoc h g ih =>
      rw [List.map_append, Formula.dual]
      exact ih.snoc g.dual

end IsChain

namespace NormalForm

/-! ### The shape of clauses and of normal forms -/

/-- The literals of the clause for the model with the number, one for each variable in order. Those
of the variables with the value `selected` are positive. -/
def literals (form : NormalForm) (vars : List String) (number : Nat) : List Formula :=
  vars.zipIdx.map fun (name, place) =>
    literal name (bit vars.length number place == form.selected)

/-- The formula is a clause for the model with the number: a chain of the literals of all variables
in order. -/
def IsClause (form : NormalForm) (vars : List String) (number : Nat) (f : Formula) : Prop :=
  IsChain form.inner (form.literals vars number) f

/-- The numbers of the entries with the value `selected`, in order. -/
def selectedRows (form : NormalForm) (values : List Bool) : List Nat :=
  (List.range values.length).filter fun number => values[number]? == some form.selected

/-- The formula is a chain of one clause for each entry with the value `selected`, in order. -/
def IsNormalForm (form : NormalForm) (vars : List String) (values : List Bool) (f : Formula) :
    Prop :=
  ∃ clauses, List.Forall₂ (form.IsClause vars) (form.selectedRows values) clauses ∧
    IsChain form.outer clauses f

/-- There is but one clause for a model. -/
theorem rightUnique_isClause (form : NormalForm) (vars : List String) :
    Relator.RightUnique (form.IsClause vars) :=
  fun _ _ _ h h' => IsChain.unique h h'

/-- A table has but one normal form. -/
theorem IsNormalForm.unique {form : NormalForm} {vars : List String} {values : List Bool}
    {f g : Formula} (hf : form.IsNormalForm vars values f) (hg : form.IsNormalForm vars values g) :
    f = g := by
  obtain ⟨clauses, hclauses, hchain⟩ := hf
  obtain ⟨clauses', hclauses', hchain'⟩ := hg
  obtain rfl := List.right_unique_forall₂' (form.rightUnique_isClause vars) hclauses hclauses'
  exact hchain.unique hchain'

/-- The dual of a clause in the disjunctive form is the one in the conjunctive form. -/
theorem IsClause.dual {vars : List String} {number : Nat} {f : Formula}
    (h : disjunctive.IsClause vars number f) : conjunctive.IsClause vars number f.dual := by
  have hliterals : (disjunctive.literals vars number).map Formula.dual =
      conjunctive.literals vars number := by
    rw [literals, literals, List.map_map]
    refine List.map_congr_left fun entry _ => ?_
    have hopposite : ∀ digit : Bool,
        (digit == conjunctive.selected) = !(digit == disjunctive.selected) := by decide
    rw [Function.comp_apply, dual_literal, ← hopposite]
  rw [IsClause, ← hliterals]
  exact IsChain.dual h

/-- **The dual of a disjunctive normal form is the conjunctive one of the negated table.** -/
theorem IsNormalForm.dual {vars : List String} {values : List Bool} {f : Formula}
    (h : disjunctive.IsNormalForm vars (values.map (!·)) f) :
    conjunctive.IsNormalForm vars values f.dual := by
  have hrows : disjunctive.selectedRows (values.map (!·)) = conjunctive.selectedRows values := by
    rw [selectedRows, selectedRows, List.length_map]
    refine List.filter_congr fun number _ => ?_
    rw [List.getElem?_map]
    rcases values[number]? with _ | _ | _ <;> rfl
  obtain ⟨clauses, hclauses, hchain⟩ := h
  rw [hrows] at hclauses
  refine ⟨clauses.map Formula.dual, ?_, hchain.dual⟩
  rw [List.forall₂_map_right_iff]
  exact hclauses.imp fun _ _ => IsClause.dual

/-! ### What is synthesized -/

/-- The results for the members of a list stand in the order of these. -/
theorem forall₂_of_mapM {ε α β : Type} {act : α → Except ε β} {xs : List α} {ys : List β}
    (h : xs.mapM act = .ok ys) : List.Forall₂ (fun x y => act x = .ok y) xs ys := by
  induction xs generalizing ys with
  | nil =>
      obtain rfl := Except.ok.inj h
      exact .nil
  | cons x xs ih =>
      rw [List.mapM_cons] at h
      obtain ⟨y, hy, hrest⟩ := bind_eq_ok_iff.mp h
      obtain ⟨ys', hys, hcons⟩ := bind_eq_ok_iff.mp hrest
      obtain rfl := Except.ok.inj hcons
      exact .cons hy (ih hys)

/-- The clause for a model is a chain of the literals of its entries. -/
theorem isChain_of_clause {form : NormalForm} {m : Model} {f : Formula}
    (h : form.clause m = .ok f) : IsChain form.inner (m.entries.map form.entryLiteral) f := by
  rw [clause] at h
  split at h
  · cases h
  · rename_i e rest hentries
    obtain rfl := Except.ok.inj h
    rw [hentries]
    exact IsChain.of_chain _ _ _

/-- The entries of a model that is enumerated, by the places of the variables. -/
theorem entriesAt_eq_map_zipIdx (width number i : Nat) (vars : List String) :
    Enumeration.entriesAt width number i vars =
      (vars.zipIdx i).map fun (name, place) => (name, bit width number place) := by
  induction vars generalizing i with
  | nil => rfl
  | cons name vars ih => rw [Enumeration.entriesAt, ih, List.zipIdx_cons, List.map_cons]

/-- So the clause for such a model has the literals of all variables in order. -/
theorem isClause_of_clause {form : NormalForm} {vars : List String} {number : Nat} {f : Formula}
    (h : form.clause (Enumeration.modelOf vars number) = .ok f) : form.IsClause vars number f := by
  have hliterals : (Enumeration.modelOf vars number).entries.map form.entryLiteral =
      form.literals vars number := by
    change (Enumeration.entriesAt vars.length number 0 vars).map form.entryLiteral = _
    rw [entriesAt_eq_map_zipIdx, List.map_map]
    rfl
  rw [IsClause, ← hliterals]
  exact isChain_of_clause h

/-- The models that clauses are written for are those with the numbers of the selected entries. -/
theorem map_fst_selected (form : NormalForm) {vars : List String} {values : List Bool}
    (hlength : values.length = 2 ^ vars.length) :
    (((Enumeration.start vars).rest.zip values).filter fun row => row.2 == form.selected).map
        Prod.fst = (form.selectedRows values).map (Enumeration.modelOf vars) := by
  have htable : (Enumeration.start vars).rest.zip values =
      (List.range values.length).map fun number =>
        (Enumeration.modelOf vars number, values.getD number false) := by
    refine List.ext_getElem (by simp [Enumeration.rest_start, hlength]) fun number h h' => ?_
    have hnumber : number < values.length := by simpa using h'
    simp [Enumeration.rest_start, hnumber]
  rw [htable, List.filter_map, List.map_map, selectedRows]
  refine congrArg (List.map _) (List.filter_congr fun number hnumber => ?_)
  have hlt : number < values.length := List.mem_range.mp hnumber
  simp [List.getElem?_eq_getElem hlt]

/-- An entry that calls for a clause is among those selected. -/
theorem selectedRows_ne_nil {form : NormalForm} {values : List Bool}
    (h : form.selected ∈ values) : form.selectedRows values ≠ [] := by
  obtain ⟨number, hnumber⟩ := List.mem_iff_getElem?.mp h
  have hlt : number < values.length := (List.getElem?_eq_some_iff.mp hnumber).1
  refine List.ne_nil_of_mem (a := number) (List.mem_filter.mpr ⟨List.mem_range.mpr hlt, ?_⟩)
  rw [hnumber, beq_self_eq_true]

/-- **Synthesis yields a formula of this shape**, if some entry of the table calls for a clause. -/
theorem exists_isNormalForm (form : NormalForm) {vars : List String} {values : List Bool}
    (hvars : vars ≠ []) (hvalid : ∀ name ∈ vars, isVariable name = true) (hnodup : vars.Nodup)
    (hlimit : vars.length < variableLimit) (hlength : values.length = 2 ^ vars.length)
    (hselected : form.selected ∈ values) :
    ∃ f, form.synthesize vars values = .ok f ∧ form.IsNormalForm vars values f := by
  have htable := tableModels_eq_ok hvars (Enumeration.ofVariables_eq_ok hvalid hnodup hlimit)
    hlength
  have hclause : ∀ row ∈ (Enumeration.start vars).rest.zip values,
      ∃ f, form.clause row.1 = .ok f := by
    intro row hrow
    obtain ⟨number, hnumber, -⟩ := (mem_rows_iff hlength).mp hrow
    exact form.exists_clause (by rw [hnumber, Enumeration.vars_modelOf]; exact hvars)
  obtain ⟨clauses, hclauses, -⟩ := form.exists_clauses hclause
  have hrows : List.Forall₂ (form.IsClause vars) (form.selectedRows values) clauses := by
    have hmapM : ((form.selectedRows values).map (Enumeration.modelOf vars)).mapM form.clause =
        .ok clauses := by
      rw [← map_fst_selected form hlength, List.mapM_map]
      exact hclauses
    rw [List.mapM_map] at hmapM
    exact (forall₂_of_mapM hmapM).imp fun _ _ => isClause_of_clause
  obtain ⟨name, others, rfl⟩ := List.exists_cons_of_ne_nil hvars
  refine ⟨form.joined name clauses, synthesize_eq_joined htable hclauses, clauses, hrows, ?_⟩
  cases clauses with
  | nil => exact absurd (List.forall₂_nil_right_iff.mp hrows) (selectedRows_ne_nil hselected)
  | cons clause rest => exact IsChain.of_chain _ _ _

/-- **The conjunctive normal form is the dual of the disjunctive one.** Let a table over some
distinct valid names, in any order, have at least one false entry. The conjunctive form for the
table is what becomes of the disjunctive form for the table with all entries negated if `&` and `|`
are exchanged, and every literal is replaced by the opposite one. Both are chains, nested to the
left and in the order of the models, of one clause for each entry that calls for one, and each
clause is a chain, nested to the left, of the literals of all names in their order. -/
theorem conjunctive_eq_dual {vars : List String} {values : List Bool} (hvars : vars ≠ [])
    (hvalid : ∀ name ∈ vars, isVariable name = true) (hnodup : vars.Nodup)
    (hlimit : vars.length < 64) (hlength : values.length = 2 ^ vars.length)
    (hfalse : false ∈ values) :
    ∃ f, disjunctive.synthesize vars (values.map (!·)) = .ok f ∧
      conjunctive.synthesize vars values = .ok f.dual ∧
      disjunctive.IsNormalForm vars (values.map (!·)) f ∧
      conjunctive.IsNormalForm vars values f.dual := by
  have hnegated : (values.map (!·)).length = 2 ^ vars.length := by rw [List.length_map, hlength]
  obtain ⟨f, hf, hshape⟩ := disjunctive.exists_isNormalForm hvars hvalid hnodup hlimit hnegated
    (List.mem_map.mpr ⟨false, hfalse, rfl⟩)
  obtain ⟨g, hg, hshape'⟩ := conjunctive.exists_isNormalForm hvars hvalid hnodup hlimit hlength
    hfalse
  obtain rfl : g = f.dual := hshape'.unique hshape.dual
  exact ⟨f, hf, hg, hshape, hshape'⟩

/-- For the table of `(q7->p)` over `q7` and `p` the conjunctive form has one clause, the dual of
the only clause of the disjunctive form for the negated table. -/
theorem conjunctive_eq_dual_implication :
    ∃ f, disjunctive.synthesize ["q7", "p"] [false, false, true, false] = .ok f ∧
      conjunctive.synthesize ["q7", "p"] [true, true, false, true] = .ok f.dual ∧
      f = .binary .and (.var "q7") (.not (.var "p")) := by
  obtain ⟨f, hf, hg, hshape, -⟩ := @conjunctive_eq_dual ["q7", "p"] [true, true, false, true]
    (by decide) (by decide) (by decide) (by decide) rfl (by decide)
  refine ⟨f, hf, hg, hshape.unique ⟨[.binary .and (.var "q7") (.not (.var "p"))], ?_, .single _⟩⟩
  exact .cons (.snoc (.single (.var "q7")) (.not (.var "p"))) .nil

end NormalForm

end Propositional

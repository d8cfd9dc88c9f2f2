import Propositional.Proofs.Semantics.Equivalence
import Propositional.Proofs.Semantics.Synthesis

/-!
# Normal Forms Are Canonical

The normal form of a formula is synthesized over its own variables from its own truth
table (`NormalForm.ofFormula`). It depends on nothing else, so formulas with the same
variables and the same values have the same normal form, and since it has the values of
the formula, only these do.

The normal form mentions all variables of the formula as long as there is a clause. Then
it has the same variables and the same table, and is its own normal form. If there is no
clause, it is the first variable joined to its own negation. Its table is one over this
variable only, but still without an entry that calls for a clause, and so it is its own
normal form again.

## Main results

* `NormalForm.exists_ofFormula`: the values and the variables of the normal form.
* `NormalForm.ofFormula_congr`: the normal form depends on variables and values only.
* `NormalForm.ofFormula_idem`: a normal form is its own normal form.
* `NormalForm.ofFormula_canonical`: formulas over the same variables have the same normal
  form iff they are equivalent.
-/

namespace Propositional

namespace NormalForm

/-- The formula in the normal form with the truth table of `f`, over the variables of
`f`. -/
def ofFormula (form : NormalForm) (f : Formula) (config : PoolConfig) :
    Except SemanticsError Formula := do
  form.synthesize f.vars (← f.truthTable config)

/-! ### The clauses of a normal form -/

/-- The formula for a table over variables that can be enumerated is made of clauses that
mention all of these, and there are none iff no entry calls for one. In the model with
the number `i` it has the value of the entry `i`. -/
theorem exists_clauses_of_values (form : NormalForm) {name : String} {others : List String}
    (hvalid : ∀ x ∈ name :: others, isVariable x = true) (hnodup : (name :: others).Nodup)
    (hlimit : (name :: others).length < variableLimit) (values : List Bool)
    (hlength : values.length = 2 ^ (name :: others).length) :
    ∃ clauses, form.synthesize (name :: others) values = .ok (form.joined name clauses) ∧
      (∀ i (hi : i < values.length),
        (form.joined name clauses).value (Enumeration.modelOf (name :: others) i).valuation =
          values[i]) ∧
      (∀ g ∈ clauses, ∀ x, g.Mentions x ↔ x ∈ name :: others) ∧
      (clauses = [] ↔ ∀ value ∈ values, value ≠ form.selected) := by
  have hvars : name :: others ≠ [] := List.cons_ne_nil name others
  have htable := tableModels_eq_ok hvars (Enumeration.ofVariables_eq_ok hvalid hnodup hlimit)
    hlength
  have hrows : ∀ row ∈ (Enumeration.start (name :: others)).rest.zip values,
      row.1.vars = name :: others := by
    intro row hrow
    obtain ⟨i, hi, -⟩ := (mem_rows_iff hlength).mp hrow
    rw [hi, Enumeration.vars_modelOf]
  obtain ⟨f, hf, hvalue, -, -⟩ := form.exists_synthesize hvars htable hrows
  obtain ⟨clauses, hclauses, hmem⟩ := form.exists_synthesize_joined htable hrows
  obtain rfl : f = form.joined name clauses := Except.ok.inj (hf.symm.trans hclauses)
  refine ⟨clauses, hf, fun i hi => ?_, fun g hg x => ?_, ?_, ?_⟩
  · exact eq_of_eq_selected_iff ((hvalue _).trans (exists_row_iff hnodup hlength hi))
  · obtain ⟨row, hrow, -, hclause⟩ := (hmem g).mp hg
    rw [(singlesOut_of_clause hclause).mentions_iff, hrows row hrow]
  · rintro rfl value hvalue hselected
    obtain ⟨i, hi⟩ := List.mem_iff_getElem?.mp hvalue
    have hrow : (Enumeration.modelOf (name :: others) i, value) ∈
        (Enumeration.start (name :: others)).rest.zip values :=
      (mem_rows_iff hlength).mpr ⟨i, rfl, hi⟩
    obtain ⟨g, hg⟩ := form.exists_clause (by rw [hrows _ hrow]; exact hvars)
    exact List.not_mem_nil ((hmem g).mpr ⟨_, hrow, hselected, hg⟩)
  · intro hnone
    rw [List.eq_nil_iff_forall_not_mem]
    intro g hg
    obtain ⟨row, hrow, hselected, -⟩ := (hmem g).mp hg
    obtain ⟨i, -, hi⟩ := (mem_rows_iff hlength).mp hrow
    exact hnone row.2 (List.mem_of_getElem? hi) hselected

/-! ### The normal form of a formula -/

variable {form : NormalForm} {f g n : Formula}

/-- The formula that a table without clauses has, a variable joined to its own negation,
never has the value `selected`. -/
theorem value_joined_nil (form : NormalForm) (v : String → Bool) (name : String) :
    (form.joined name []).value v ≠ form.selected := by
  rw [ne_eq, value_joined]
  simp

/-- **The normal form of a formula has its values.** It has its variables too, unless the
formula never has the value `selected`: then the normal form is the first variable joined
to its own negation. -/
theorem exists_ofFormula (form : NormalForm) (config : PoolConfig) (hf : f.WellFormed)
    (hvars : f.vars ≠ []) (hlimit : f.vars.length < variableLimit) :
    ∃ n, form.ofFormula f config = .ok n ∧ (∀ v, n.value v = f.value v) ∧
      ((∃ v, f.value v = form.selected) → n.vars = f.vars) ∧
      ((∀ v, f.value v ≠ form.selected) →
        ∃ name, f.vars.head? = some name ∧ n = form.joined name []) := by
  obtain ⟨name, others, hcons⟩ := List.exists_cons_of_ne_nil hvars
  have htable := Formula.truthTable_eq_ok config hlimit
  have hvalid := hf.isVariable_of_mem_vars
  have hnodup := f.nodup_vars
  have hmem : ∀ x, f.Mentions x ↔ x ∈ name :: others := fun x => by
    rw [← hcons, Formula.mem_vars_iff]
  rw [hcons] at htable hvalid hnodup hlimit
  obtain ⟨clauses, hsynthesize, hentries, hmentions, hnone⟩ :=
    form.exists_clauses_of_values hvalid hnodup hlimit
      ((List.range (2 ^ (name :: others).length)).map fun number =>
        f.value (Enumeration.modelOf (name :: others) number).valuation) (by simp)
  have hjoined : ∀ x, (form.joined name clauses).Mentions x → x ∈ name :: others := by
    intro x hx
    rcases (form.mentions_joined x name clauses).mp hx with ⟨-, rfl⟩ | ⟨g, hg, hxg⟩
    · exact List.mem_cons_self
    · exact (hmentions g hg x).mp hxg
  have hvalue : ∀ v, (form.joined name clauses).value v = f.value v := by
    intro v
    obtain ⟨number, hlt, hagree⟩ := Enumeration.exists_modelOf_value hnodup v
    rw [← hagree _ hjoined, ← hagree f fun x => (hmem x).mp, hentries number (by simpa using hlt),
      List.getElem_map, List.getElem_range]
  refine ⟨form.joined name clauses, ?_, hvalue, ?_, ?_⟩
  · rw [ofFormula, htable, hcons]
    exact hsynthesize
  · rintro ⟨v, hv⟩
    rw [hcons]
    refine Formula.vars_eq_of_sorted (hcons ▸ f.sorted_vars) fun x => ⟨hjoined x, fun hx => ?_⟩
    obtain ⟨g, hg, -⟩ := (form.value_joined v name clauses).mp ((hvalue v).trans hv)
    exact (form.mentions_joined x name clauses).mpr (.inr ⟨g, hg, (hmentions g hg x).mpr hx⟩)
  · intro hnever
    have hempty : clauses = [] := by
      refine hnone.mpr fun value hmember => ?_
      obtain ⟨number, -, rfl⟩ := List.mem_map.mp hmember
      exact hnever _
    exact ⟨name, by rw [hcons, List.head?_cons], by rw [hempty]⟩

/-- The normal form depends on the variables and the values only. -/
theorem ofFormula_congr (config : PoolConfig) (hvars : f.vars = g.vars)
    (hlimit : f.vars.length < variableLimit) (hvalue : ∀ v, f.value v = g.value v) :
    form.ofFormula f config = form.ofFormula g config := by
  rw [ofFormula, ofFormula, Formula.truthTable_eq_ok config hlimit,
    Formula.truthTable_eq_ok config (hvars ▸ hlimit), hvars]
  simp only [hvalue]

/-- A variable joined to its own negation is its own normal form. -/
theorem ofFormula_joined_nil (form : NormalForm) (config : PoolConfig) {name : String}
    (hname : isVariable name = true) :
    form.ofFormula (form.joined name []) config = .ok (form.joined name []) := by
  have hvars : (form.joined name []).vars = [name] := by
    refine Formula.vars_eq_of_sorted (List.pairwise_singleton _ _) fun x => ?_
    rw [mentions_joined]
    simp
  obtain ⟨n, hn, -, -, hnone⟩ := form.exists_ofFormula config (f := form.joined name [])
    ⟨hname, hname⟩ (by simp [hvars]) (by simp [hvars, variableLimit])
  obtain ⟨name', hhead, rfl⟩ := hnone fun v => form.value_joined_nil v name
  rw [hvars] at hhead
  obtain rfl := Option.some.inj hhead
  exact hn

/-- **A normal form is its own normal form.** -/
theorem ofFormula_idem (config : PoolConfig) (hf : f.WellFormed) (hvars : f.vars ≠ [])
    (hlimit : f.vars.length < variableLimit) (hn : form.ofFormula f config = .ok n) :
    form.ofFormula n config = .ok n := by
  obtain ⟨n', hn', hvalue, hsome, hnone⟩ := form.exists_ofFormula config hf hvars hlimit
  obtain rfl : n = n' := Except.ok.inj (hn.symm.trans hn')
  by_cases hselected : ∃ v, f.value v = form.selected
  · have hsame := hsome hselected
    rw [ofFormula_congr config hsame (hsame ▸ hlimit) hvalue, hn]
  · obtain ⟨name, hhead, rfl⟩ := hnone fun v hv => hselected ⟨v, hv⟩
    exact form.ofFormula_joined_nil config
      (hf.isVariable_of_mem_vars name (List.mem_of_mem_head? hhead))

/-- A normal form mentions no other variables than the formula. -/
theorem mentions_of_ofFormula (config : PoolConfig) (hf : f.WellFormed) (hvars : f.vars ≠ [])
    (hlimit : f.vars.length < variableLimit) (hn : form.ofFormula f config = .ok n) {x : String}
    (hx : n.Mentions x) : f.Mentions x := by
  obtain ⟨n', hn', -, hsome, hnone⟩ := form.exists_ofFormula config hf hvars hlimit
  obtain rfl : n = n' := Except.ok.inj (hn.symm.trans hn')
  rw [← Formula.mem_vars_iff]
  by_cases hselected : ∃ v, f.value v = form.selected
  · rw [← hsome hselected, Formula.mem_vars_iff]
    exact hx
  · obtain ⟨name, hhead, rfl⟩ := hnone fun v hv => hselected ⟨v, hv⟩
    rw [mentions_joined] at hx
    obtain rfl : x = name := by simpa using hx
    exact List.mem_of_mem_head? hhead

/-- **Formulas over the same variables have the same normal form iff they have the same
values.** -/
theorem ofFormula_eq_iff (form : NormalForm) (config : PoolConfig) (hf : f.WellFormed)
    (hg : g.WellFormed) (hvars : f.vars ≠ []) (hlimit : f.vars.length < variableLimit)
    (hsame : f.vars = g.vars) :
    form.ofFormula f config = form.ofFormula g config ↔ ∀ v, f.value v = g.value v := by
  constructor
  · intro h v
    obtain ⟨n, hn, hvalue, -⟩ := form.exists_ofFormula config hf hvars hlimit
    obtain ⟨n', hn', hvalue', -⟩ :=
      form.exists_ofFormula config hg (hsame ▸ hvars) (hsame ▸ hlimit)
    obtain rfl : n = n' := Except.ok.inj (hn.symm.trans (h.trans hn'))
    rw [← hvalue, hvalue']
  · exact ofFormula_congr config hsame hlimit

end NormalForm

namespace Formula

variable {f g : Formula}

/-- The two implications between formulas that have the same values are found to be a
tautology, if the one formula has no more variables than the other. -/
theorem isTautology_biconditional (config : PoolConfig) (hlimit : f.vars.length < variableLimit)
    (hmentions : ∀ x, g.Mentions x → f.Mentions x) (hvalue : ∀ v, g.value v = f.value v) :
    (binary .and (binary .implies f g) (binary .implies g f)).isTautology config = .ok true := by
  have hvars : (binary .and (binary .implies f g) (binary .implies g f)).vars = f.vars := by
    refine vars_eq_of_sorted f.sorted_vars fun x => ?_
    rw [mem_vars_iff]
    have hx := hmentions x
    simp only [Mentions]
    tauto
  exact isTautology_implications config (hvars ▸ hlimit) hvalue

/-- Formulas over the same variables have the same values in the models that cover them
iff they have them under every assignment. -/
theorem forall_evaluate_eq_iff (hf : f.WellFormed) (hsame : f.vars = g.vars) :
    (∀ m : Model, m.WellFormed → m.covers f = true → m.covers g = true →
      f.evaluate m = g.evaluate m) ↔ ∀ v, f.value v = g.value v := by
  have hg : g.WellFormed := wellFormed_iff.mpr fun x hx => by
    rw [← mem_vars_iff, ← hsame] at hx
    exact hf.isVariable_of_mem_vars x hx
  exact equivalent_iff hf hg

end Formula

namespace NormalForm

/-- **Normal forms are canonical.** A formula with fewer than 64 variables, and at least
one, has a normal form of either kind. It is equivalent to the formula, which is checked
by the two implications between them, and is its own normal form, also if no entry of the
truth table calls for a clause, so that it mentions the first variable only. Two formulas
with the same variables have the same normal form iff they have the same value in every
model that covers them. -/
theorem ofFormula_canonical (form : NormalForm) (config : PoolConfig) :
    (∀ f : Formula, f.WellFormed → 1 ≤ f.vars.length → f.vars.length < 64 →
      ∃ n, form.ofFormula f config = .ok n ∧
        (Formula.binary .and (.binary .implies f n) (.binary .implies n f)).isTautology config =
          .ok true ∧
        form.ofFormula n config = .ok n ∧
        ((∀ m : Model, m.WellFormed → m.covers f = true → f.evaluate m = .ok (!form.selected)) →
          ∀ name, n.Mentions name ↔ f.vars.head? = some name)) ∧
      ∀ f g : Formula, f.WellFormed → g.WellFormed → f.vars = g.vars → 1 ≤ f.vars.length →
        f.vars.length < 64 → ∃ n n', form.ofFormula f config = .ok n ∧
          form.ofFormula g config = .ok n' ∧
          (n = n' ↔ ∀ m : Model, m.WellFormed → m.covers f = true → m.covers g = true →
            f.evaluate m = g.evaluate m) := by
  constructor
  · intro f hf hone hlimit
    have hvars : f.vars ≠ [] := List.ne_nil_of_length_pos hone
    obtain ⟨n, hn, hvalue, -, hnone⟩ := form.exists_ofFormula config hf hvars hlimit
    refine ⟨n, hn, ?_, ofFormula_idem config hf hvars hlimit hn, fun hconstant name => ?_⟩
    · exact Formula.isTautology_biconditional config hlimit
        (fun x => mentions_of_ofFormula config hf hvars hlimit hn) hvalue
    · rw [Formula.forall_covering_iff hf] at hconstant
      obtain ⟨first, hfirst, rfl⟩ := hnone fun v => by
        rw [hconstant v]
        exact Bool.not_ne_self _
      rw [mentions_joined, hfirst]
      simp [eq_comm]
  · intro f g hf hg hsame hone hlimit
    have hvars : f.vars ≠ [] := List.ne_nil_of_length_pos hone
    obtain ⟨n, hn, -⟩ := form.exists_ofFormula config hf hvars hlimit
    obtain ⟨n', hn', -⟩ := form.exists_ofFormula config hg (hsame ▸ hvars) (hsame ▸ hlimit)
    refine ⟨n, n', hn, hn', ?_⟩
    rw [Formula.forall_evaluate_eq_iff hf hsame,
      ← form.ofFormula_eq_iff config hf hg hvars hlimit hsame, hn, hn', Except.ok.injEq]

/-- The formulas `(p&~q7)` and `~(p->q7)` have the same disjunctive normal form, and that of
`(p&(q7&~q7))`, which is never true, mentions `p` only. -/
theorem ofFormula_canonical_two_variables :
    (∃ n, disjunctive.ofFormula (.binary .and (.var "p") (.not (.var "q7"))) ⟨4, 0⟩ = .ok n ∧
      disjunctive.ofFormula (.not (.binary .implies (.var "p") (.var "q7"))) ⟨4, 0⟩ = .ok n) ∧
    ∃ n, disjunctive.ofFormula
        (.binary .and (.var "p") (.binary .and (.var "q7") (.not (.var "q7")))) ⟨4, 0⟩ = .ok n ∧
      disjunctive.ofFormula n ⟨4, 0⟩ = .ok n ∧ ∀ name, n.Mentions name ↔ some "p" = some name := by
  have hp : isVariable "p" = true := by decide
  have hq : isVariable "q7" = true := by decide
  obtain ⟨hone, htwo⟩ := ofFormula_canonical disjunctive ⟨4, 0⟩
  constructor
  · have hwf : (Formula.binary .and (.var "p") (.not (.var "q7"))).WellFormed := ⟨hp, hq⟩
    have hwf' : (Formula.not (.binary .implies (.var "p") (.var "q7"))).WellFormed := ⟨hp, hq⟩
    obtain ⟨n, n', hn, hn', hiff⟩ := htwo _ _ hwf hwf' (by decide) (by decide) (by decide)
    rw [Formula.forall_evaluate_eq_iff hwf (by decide)] at hiff
    have hsame : n = n' := hiff.mpr fun v => by
      simp only [Formula.value, Connective.apply]
      cases v "p" <;> cases v "q7" <;> rfl
    exact ⟨n, hn, hsame ▸ hn'⟩
  · have hwf : (Formula.binary .and (.var "p")
        (.binary .and (.var "q7") (.not (.var "q7")))).WellFormed := ⟨hp, hq, hq⟩
    obtain ⟨n, hn, -, hidem, hconstant⟩ := hone _ hwf (by decide) (by decide)
    rw [Formula.forall_covering_iff hwf] at hconstant
    refine ⟨n, hn, hidem, hconstant fun v => ?_⟩
    simp only [Formula.value, Connective.apply]
    cases v "p" <;> cases v "q7" <;> rfl

end NormalForm

end Propositional

import Propositional.Proofs.Substitution.Templates

/-!
# Variables and Operators Replaced in Either Order

To replace variables and then operators comes to the same as to replace the operators first, in
the formula and in the replacements, and then the variables (`Formula.expandForm_substituteForm`).
A template is the one thing that both substitutions meet in: the operators are replaced by it, and
its variables `p` and `q` may be keys of the other substitution. That does no harm as long as they
stand for operands. A template variable that its operator does not bind stays in the expansion,
where the variables are replaced only if that is done last, so every template must be closed off
by the operands of its operator (`Templates.Bound`). For the binary operators this is what makes a
template acceptable at all; for negation and the constants it is not.

## Main results

* `Templates.bound_of_vars`: which acceptable templates are closed off.
* `Formula.expandForm_substituteForm`: the law for the recursions.
* `OperatorSubstitution.apply_interchange`: the law for what substitutions answer.
-/

namespace Propositional

/-- All variables of a template stand for operands of its operator. -/
def Templates.Bound (template : Templates) : Prop :=
  ∀ op t, template op = some t → ∀ x, t.Mentions x → x ∈ op.operandNames

/-- Acceptable templates are closed off if those of the constants have no variables, and that of
negation has none but `p`. -/
theorem Templates.bound_of_vars {template : Templates} (hclosed : template.Closed)
    (hconstant : ∀ value t, template (.constant value) = some t → t.vars = [])
    (hnegation : ∀ t, template .negation = some t → ∀ x ∈ t.vars, x = "p") : template.Bound := by
  intro op t ht x hx
  have hmem : x ∈ t.vars := (t.mem_vars_iff x).mpr hx
  cases op with
  | constant value =>
      rw [hconstant value t ht] at hmem
      cases hmem
  | negation => exact List.mem_singleton.mpr (hnegation t ht x hmem)
  | binary c =>
      rcases hclosed _ t ht x hx with rfl | rfl
      · exact List.mem_cons_self
      · exact List.mem_cons_of_mem _ List.mem_cons_self

/-- **Variables and operators may be replaced in either order**, if the operators are replaced in
the replacements too. -/
theorem Formula.expandForm_substituteForm {template : Templates} (hbound : template.Bound)
    (f : Formula) (r : String → Option Formula) :
    (f.substituteForm r).expandForm template =
      (f.expandForm template).substituteForm fun x => (r x).map (expandForm template) := by
  induction f using induction_on_operands with
  | var name =>
      rw [expandForm, substituteForm, substituteForm]
      cases r name with
      | none => rfl
      | some g => rfl
  | operation f op hop ih =>
      obtain ⟨hreplaced, hoperands⟩ := substituteForm_operation (r := r) hop
      have hexpanded : (f.substituteForm r).operands.map (expandForm template) =
          (f.operands.map (expandForm template)).map
            (substituteForm fun x => (r x).map (expandForm template)) := by
        rw [hoperands, List.map_map, List.map_map]
        exact List.map_congr_left ih
      cases ht : template op with
      | none =>
          obtain ⟨hleft, hleftOperands⟩ := expandForm_of_none hreplaced ht
          obtain ⟨hkept, hkeptOperands⟩ := expandForm_of_none hop ht
          obtain ⟨hright, hrightOperands⟩ := substituteForm_operation hkept
          rw [eq_iff_operands_eq hleft hright, hleftOperands, hrightOperands, hkeptOperands,
            hexpanded]
      | some t =>
          rw [expandForm_of_some hreplaced ht, expandForm_of_some hop ht, hexpanded]
          refine (substituteForm_bindings fun x hx => ?_).symm
          rw [ne_eq, get?_bindings_operands_eq_none_iff hop, not_not]
          exact hbound op t ht x hx

/-- The order shows if a template has a variable that is not bound, such as `q` for `~`: with `T`
for the variable `q` the formula `~x` becomes `q` or `T`. -/
example :
    let template : Templates := fun op => if op = .negation then some (.var "q") else none
    let r : String → Option Formula := fun x => if x = "q" then some (.const true) else none
    ((Formula.not (.var "x")).substituteForm r).expandForm template = .var "q" ∧
      ((Formula.not (.var "x")).expandForm template).substituteForm
        (fun x => (r x).map (Formula.expandForm template)) = .const true :=
  ⟨rfl, rfl⟩

/-- **Substitutions of variables and of operators commute up to the replacements.** Let the current
map of a substitution of operators, after any history, have for the constants only templates
without variables, and for negation only one without variables other than `p`. What it answers for
the answer of a substitution of variables is the answer, for the formula as it expands it, of every
substitution that maps the same names to their formulas as it expands these. A new substitution
with such entries is accepted, and gives that formula. -/
theorem OperatorSubstitution.apply_interchange (expanding : List (SubstitutionCall Operator))
    (replacing : List (SubstitutionCall String)) (f : Formula)
    (hconstant : ∀ value t,
      (kind.after expanding).map.get? (.constant value) = some t → t.vars = [])
    (hnegation : ∀ t,
      (kind.after expanding).map.get? .negation = some t → ∀ x ∈ t.vars, x = "p") :
    (∀ expanded : List (SubstitutionCall String),
      (∀ x, (VariableSubstitution.kind.after expanded).map.get? x =
        ((VariableSubstitution.kind.after replacing).map.get? x).map
          fun g => ((kind.after expanding).apply g).1) →
      ((kind.after expanding).apply ((VariableSubstitution.kind.after replacing).apply f).1).1 =
        ((VariableSubstitution.kind.after expanded).apply
          ((kind.after expanding).apply f).1).1) ∧
      ((kind.after expanding).apply f).1.substituteVariables
          ((VariableSubstitution.kind.after replacing).map.entries.map
            fun e => (e.1, ((kind.after expanding).apply e.2).1)) =
        .ok ((kind.after expanding).apply
          ((VariableSubstitution.kind.after replacing).apply f).1).1 := by
  have hbound := Templates.bound_of_vars (closed_after expanding) hconstant hnegation
  have hstands := VariableSubstitution.follows.invariant replacing
  simp only [apply_after, VariableSubstitution.apply_after,
    Formula.expandForm_substituteForm hbound]
  refine ⟨fun expanded hexpanded => ?_, ?_⟩
  · exact Formula.substituteForm_congr fun x _ => (hexpanded x).symm
  · have hvalid : ∀ e ∈ (VariableSubstitution.kind.after replacing).map.entries.map
        (fun e => (e.1, e.2.expandForm (kind.after expanding).map.get?)),
        isVariable e.1 = true :=
      List.forall_mem_map.mpr fun e he => hstands.valid e.1 (List.mem_map_of_mem he)
    have hnodup : (((VariableSubstitution.kind.after replacing).map.entries.map
        (fun e => (e.1, e.2.expandForm (kind.after expanding).map.get?))).map Prod.fst).Nodup := by
      rw [List.map_map]
      exact hstands.nodup
    rw [Formula.substituteVariables_eq _ hvalid,
      VariableSubstitution.assigned_entries hvalid hnodup]
    refine congrArg Except.ok (Formula.substituteForm_congr fun x _ => ?_)
    exact OrderedMap.lookup_map_snd x (Formula.expandForm _) _

/-- With `q` for `p` and `(p&x)` for `q`, and with `(p->F)` for `~` and `(q|p)` for `&`: it is all
the same whether in `(p&~q)` the variables are replaced first, or the operators first and then the
variables by `q` and `(x|p)`. -/
theorem OperatorSubstitution.apply_interchange_circle :
    ((kind.after [.insert .negation (.binary .implies (.var "p") (.const false)),
        .insert (.binary .and) (.binary .or (.var "q") (.var "p"))]).apply
      ((VariableSubstitution.kind.after [.insert "p" (.var "q"),
        .insert "q" (.binary .and (.var "p") (.var "x"))]).apply
          (.binary .and (.var "p") (.not (.var "q")))).1).1 =
      ((VariableSubstitution.kind.after [.insert "p" (.var "q"),
        .insert "q" (.binary .or (.var "x") (.var "p"))]).apply
          ((kind.after [.insert .negation (.binary .implies (.var "p") (.const false)),
            .insert (.binary .and) (.binary .or (.var "q") (.var "p"))]).apply
              (.binary .and (.var "p") (.not (.var "q")))).1).1 := by
  have hmap : (kind.after [.insert .negation (.binary .implies (.var "p") (.const false)),
      .insert (.binary .and) (.binary .or (.var "q") (.var "p"))]).map =
        ⟨[(.negation, .binary .implies (.var "p") (.const false)),
          (.binary .and, .binary .or (.var "q") (.var "p"))]⟩ := rfl
  have hreplacing : (VariableSubstitution.kind.after [.insert "p" (.var "q"),
      .insert "q" (.binary .and (.var "p") (.var "x"))]).map =
        ⟨[("p", .var "q"), ("q", .binary .and (.var "p") (.var "x"))]⟩ := rfl
  have hexpanded : (VariableSubstitution.kind.after [.insert "p" (.var "q"),
      .insert "q" (.binary .or (.var "x") (.var "p"))]).map =
        ⟨[("p", .var "q"), ("q", .binary .or (.var "x") (.var "p"))]⟩ := rfl
  refine (apply_interchange _ _ _ (fun value t ht => ?_) (fun t ht x hx => ?_)).1 _ fun x => ?_
  · rw [hmap] at ht
    cases ht
  · rw [hmap] at ht
    obtain rfl := Option.some.inj ht
    simpa [Formula.mem_vars_iff, Formula.Mentions, eq_comm] using hx
  · simp only [apply_after, hmap, hreplacing, hexpanded, OrderedMap.get?, OrderedMap.lookup]
    split
    · rfl
    · split <;> rfl

end Propositional

import Propositional.Proofs.Substitution.Templates

/-!
# What a Substitution Brings In and What It Leaves

The footprint of a formula is the set of its variables and the set of its operators. That of a
formula in which variables have been replaced can be read off: a variable that is replaced goes,
what it is replaced by comes, and nothing else changes (`Formula.uses_substituteForm_iff`,
`Formula.mentions_substituteForm_iff_replaced`). A replacement may well bring back the variable.

For operators only one direction holds, because a template may drop its operands. What an
expansion contains is what the formula contained, without the operators that have a template, and
what the templates of its operators bring in: their operators, and those of their variables that
stand for no operand. The induction has one case for all operators. If no template uses an
operator that has a template itself, all of these are gone after one expansion, and a second
expansion has nothing to do.

## Main definitions

* `Formula.ReplacementFootprint`, `Formula.ExpansionFootprint`: what a formula has of another one
  in which variables or operators have been replaced.
* `Templates.Independent`: no template uses an operator that has one.

## Main results

* `Formula.replacementFootprint_substituteForm`, `Formula.expansionFootprint_expandForm`: the
  footprints of what the recursions return.
* `Formula.expandForm_eq_self`: without a template for any of its operators a formula stays.
* `VariableSubstitution.exact_footprint`, `OperatorSubstitution.eliminates_operators`: the same for
  what substitutions answer.
-/

namespace Propositional

namespace Formula

variable {r : String → Option Formula} {template : Templates} {f : Formula}

/-! ### Replaced variables -/

/-- The variables of the result are those of the formulas that stand for the variables of
the formula. -/
theorem mentions_substituteForm_iff {x : String} :
    (f.substituteForm r).Mentions x ↔ ∃ y, f.Mentions y ∧ ((r y).getD (var y)).Mentions x := by
  induction f with
  | var name => simp [substituteForm, Mentions]
  | const value => simp [substituteForm, Mentions]
  | not f ih => exact ih
  | binary c f g ihf ihg =>
      simp only [substituteForm, Mentions, ihf, ihg, or_and_right, exists_or]

/-- So they are the variables that are not replaced, and those of the replacements. -/
theorem mentions_substituteForm_iff_replaced {x : String} :
    (f.substituteForm r).Mentions x ↔
      (f.Mentions x ∧ r x = none) ∨ ∃ y t, f.Mentions y ∧ r y = some t ∧ t.Mentions x := by
  rw [mentions_substituteForm_iff]
  constructor
  · rintro ⟨y, hy, hx⟩
    cases hr : r y with
    | none =>
        rw [hr, Option.getD_none] at hx
        obtain rfl : y = x := hx
        exact .inl ⟨hy, hr⟩
    | some t =>
        rw [hr, Option.getD_some] at hx
        exact .inr ⟨y, t, hy, hr, hx⟩
  · rintro (⟨hx, hr⟩ | ⟨y, t, hy, hr, hx⟩)
    · exact ⟨x, hx, by rw [hr]; rfl⟩
    · exact ⟨y, hy, by rw [hr]; exact hx⟩

/-- The operators of the result are those of the formula and those of the replacements. -/
theorem uses_substituteForm_iff {op : Operator} :
    (f.substituteForm r).Uses op ↔
      f.Uses op ∨ ∃ y t, f.Mentions y ∧ r y = some t ∧ t.Uses op := by
  induction f with
  | var name => cases hr : r name <;> simp [substituteForm, Uses, Mentions, hr]
  | const value => simp [substituteForm, Uses, Mentions]
  | not f ih => simp only [substituteForm, Uses, Mentions, ih, or_assoc]
  | binary c f g ihf ihg =>
      simp only [substituteForm, Uses, Mentions, ihf, ihg, or_and_right, exists_or]
      rw [or_or_or_comm, or_assoc (a := op = .binary c)]

/-- A formula none of whose variables is replaced stays as it is. -/
theorem substituteForm_eq_self (h : ∀ x, f.Mentions x → r x = none) : f.substituteForm r = f := by
  rw [substituteForm_congr h, substituteForm_none]

/-- The formula `g` has the variables and the operators that are left of those of `f`, or brought
in, when variables of `f` are replaced; and it lists them in ascending order, each of them once. -/
structure ReplacementFootprint (r : String → Option Formula) (f g : Formula) : Prop where
  mem_vars_iff : ∀ x, x ∈ g.vars ↔
    (x ∈ f.vars ∧ r x = none) ∨ ∃ y ∈ f.vars, ∃ t, r y = some t ∧ x ∈ t.vars
  vars_ascend : g.vars.Pairwise fun x y => bytes x < bytes y
  mem_operators_iff : ∀ op, op ∈ g.operators ↔
    op ∈ f.operators ∨ ∃ y ∈ f.vars, ∃ t, r y = some t ∧ op ∈ t.operators
  operators_ascend : g.operators.Pairwise (· < ·)

/-- **The footprint of a formula with its variables replaced.** -/
theorem replacementFootprint_substituteForm (r : String → Option Formula) (f : Formula) :
    f.ReplacementFootprint r (f.substituteForm r) where
  mem_vars_iff x := by
    simp only [mem_vars_iff, mentions_substituteForm_iff_replaced, exists_and_left]
  vars_ascend := (sorted_vars _).imp lt_iff_bytes_lt.mp
  mem_operators_iff op := by
    simp only [mem_vars_iff, mem_operators_iff, uses_substituteForm_iff, exists_and_left]
  operators_ascend := sorted_operators _

/-! ### Replaced operators -/

/-- **An operator of an expansion** was there before and has no template, or it comes from the
template of an operator that was there. -/
theorem uses_of_expandForm {op : Operator} (h : (f.expandForm template).Uses op) :
    (f.Uses op ∧ template op = none) ∨
      ∃ key t, f.Uses key ∧ template key = some t ∧ t.Uses op := by
  induction f using induction_on_operands with
  | var name => cases h
  | operation f root hroot ih =>
      have hself : f.Uses root := (uses_iff_operands hroot).mpr (.inl rfl)
      -- what an expanded operand has from itself it has from the formula
      have hlift : ∀ g ∈ f.operands, (g.expandForm template).Uses op →
          (f.Uses op ∧ template op = none) ∨
            ∃ key t, f.Uses key ∧ template key = some t ∧ t.Uses op := by
        intro g hg hop
        rcases ih g hg hop with ⟨hop, hnone⟩ | ⟨key, t, hkey, ht, hop⟩
        · exact .inl ⟨hop.of_operand hg, hnone⟩
        · exact .inr ⟨key, t, hkey.of_operand hg, ht, hop⟩
      cases ht : template root with
      | none =>
          obtain ⟨hroot', hoperands⟩ := expandForm_of_none hroot ht
          rw [uses_iff_operands hroot', hoperands] at h
          simp only [List.mem_map, exists_exists_and_eq_and] at h
          rcases h with rfl | ⟨g, hg, hop⟩
          · exact .inl ⟨hself, ht⟩
          · exact hlift g hg hop
      | some t =>
          rw [expandForm_of_some hroot ht, uses_substituteForm_iff] at h
          rcases h with hop | ⟨y, g', -, hbound, hop⟩
          · exact .inr ⟨root, t, hself, ht, hop⟩
          · have hoperand := OperatorSubstitution.mem_of_get?_bindings hbound
            obtain ⟨g, hg, rfl⟩ := List.mem_map.mp hoperand
            exact hlift g hg hop

/-- **A variable of an expansion** was there before, or it comes from the template of an operator
that was there and stands for none of the operands. -/
theorem mentions_of_expandForm_unbound {x : String} (h : (f.expandForm template).Mentions x) :
    f.Mentions x ∨
      ∃ key t, f.Uses key ∧ template key = some t ∧ t.Mentions x ∧ x ∉ key.operandNames := by
  induction f using induction_on_operands with
  | var name => exact .inl h
  | operation f root hroot ih =>
      have hself : f.Uses root := (uses_iff_operands hroot).mpr (.inl rfl)
      have hlift : ∀ g ∈ f.operands, (g.expandForm template).Mentions x →
          f.Mentions x ∨ ∃ key t, f.Uses key ∧ template key = some t ∧ t.Mentions x ∧
            x ∉ key.operandNames := by
        intro g hg hx
        rcases ih g hg hx with hx | ⟨key, t, hkey, hunbound⟩
        · exact .inl (hx.of_operand hg)
        · exact .inr ⟨key, t, hkey.of_operand hg, hunbound⟩
      cases ht : template root with
      | none =>
          obtain ⟨hroot', hoperands⟩ := expandForm_of_none hroot ht
          rw [mentions_iff_operands hroot', hoperands] at h
          simp only [List.mem_map, exists_exists_and_eq_and] at h
          obtain ⟨g, hg, hx⟩ := h
          exact hlift g hg hx
      | some t =>
          rw [expandForm_of_some hroot ht, mentions_substituteForm_iff_replaced] at h
          rcases h with ⟨hx, hfree⟩ | ⟨y, g', -, hbound, hx⟩
          · exact .inr ⟨root, t, hself, ht, hx,
              (get?_bindings_operands_eq_none_iff hroot).mp hfree⟩
          · have hoperand := OperatorSubstitution.mem_of_get?_bindings hbound
            obtain ⟨g, hg, rfl⟩ := List.mem_map.mp hoperand
            exact hlift g hg hx

/-- **A formula none of whose operators has a template stays as it is.** -/
theorem expandForm_eq_self (h : ∀ op, f.Uses op → template op = none) :
    f.expandForm template = f := by
  induction f using induction_on_operands with
  | var name => rfl
  | operation f root hroot ih =>
      have hnone : template root = none := h root ((uses_iff_operands hroot).mpr (.inl rfl))
      obtain ⟨hroot', hoperands⟩ := expandForm_of_none hroot hnone
      have hkept : ∀ g ∈ f.operands, g.expandForm template = g := fun g hg =>
        ih g hg fun op hop => h op (hop.of_operand hg)
      rw [eq_iff_operands_eq hroot' hroot, hoperands, List.map_congr_left hkept, List.map_id']

/-- The variables and the operators of `g` come from `f`, or from the templates of operators of
`f`: from the templates all operators, and the variables that stand for no operand. No operator
with a template is left, unless another template brings it in. -/
structure ExpansionFootprint (template : Templates) (f g : Formula) : Prop where
  of_mem_operators : ∀ op ∈ g.operators, (op ∈ f.operators ∧ template op = none) ∨
    ∃ key ∈ f.operators, ∃ t, template key = some t ∧ op ∈ t.operators
  of_mem_vars : ∀ x ∈ g.vars, x ∈ f.vars ∨
    ∃ key ∈ f.operators, ∃ t, template key = some t ∧ x ∈ t.vars ∧ (x = "p" ∨ x = "q") ∧
      x ∉ key.operandNames

/-- **The footprint of an expansion.** -/
theorem expansionFootprint_expandForm (hclosed : template.Closed) (f : Formula) :
    f.ExpansionFootprint template (f.expandForm template) where
  of_mem_operators op hop := by
    simp only [mem_operators_iff] at hop ⊢
    rcases uses_of_expandForm hop with hkept | ⟨key, t, hkey, ht, hop⟩
    · exact .inl hkept
    · exact .inr ⟨key, hkey, t, ht, hop⟩
  of_mem_vars x hx := by
    simp only [mem_vars_iff, mem_operators_iff] at hx ⊢
    rcases mentions_of_expandForm_unbound hx with hx | ⟨key, t, hkey, ht, hx, hunbound⟩
    · exact .inl hx
    · exact .inr ⟨key, hkey, t, ht, hx, hclosed key t ht x hx, hunbound⟩

end Formula

/-- No template uses an operator that has a template. -/
def Templates.Independent (template : Templates) : Prop :=
  ∀ op t, template op = some t → ∀ key ∈ t.operators, template key = none

/-- If no template uses an operator that has a template, none of these operators is left. -/
theorem Formula.ExpansionFootprint.eliminates {template : Templates} {f g : Formula}
    (h : f.ExpansionFootprint template g) (hindependent : template.Independent) :
    ∀ op ∈ g.operators, template op = none := by
  intro op hop
  rcases h.of_mem_operators op hop with ⟨-, hnone⟩ | ⟨key, -, t, ht, hop⟩
  · exact hnone
  · exact hindependent key t ht op hop

/-- So a second expansion changes nothing. -/
theorem Formula.ExpansionFootprint.expandForm_eq {template : Templates} {f g : Formula}
    (h : f.ExpansionFootprint template g) (hindependent : template.Independent) :
    g.expandForm template = g :=
  expandForm_eq_self fun op hop => h.eliminates hindependent op ((mem_operators_iff op g).mpr hop)

/-- **The footprint of a formula with its variables replaced is exact.** After every history of
insertions and applications, the answer to an application has, in ascending order, the variables of
the formula that the current map has nothing for, and the variables of what it maps the other ones
to; and it has the operators of the formula and those of the formulas that its variables are mapped
to. What the map has for other names contributes nothing: every substitution that maps the
variables of the formula alike gives the same answer, which is the formula itself if they are
mapped to nothing. So it is for a new substitution by any entries with valid names, of which the
last for a name is in force. -/
theorem VariableSubstitution.exact_footprint (f : Formula) :
    (∀ before : List (SubstitutionCall String),
      f.ReplacementFootprint (kind.after before).map.get? ((kind.after before).apply f).1 ∧
        (∀ other : List (SubstitutionCall String),
          (∀ x ∈ f.vars, (kind.after other).map.get? x = (kind.after before).map.get? x) →
            ((kind.after other).apply f).1 = ((kind.after before).apply f).1) ∧
        ((∀ x ∈ f.vars, (kind.after before).map.get? x = none) →
          ((kind.after before).apply f).1 = f)) ∧
      ∀ entries : List (String × Formula), (∀ e ∈ entries, isVariable e.1 = true) →
        ∃ g, f.substituteVariables entries = .ok g ∧
          f.ReplacementFootprint (fun x => OrderedMap.lookup x entries.reverse) g ∧
          ((∀ x ∈ f.vars, x ∉ entries.map Prod.fst) → g = f) := by
  simp only [apply_after, Formula.mem_vars_iff]
  refine ⟨fun before => ⟨Formula.replacementFootprint_substituteForm _ f,
    fun other => Formula.substituteForm_congr, Formula.substituteForm_eq_self⟩, ?_⟩
  intro entries hvalid
  refine ⟨_, f.substituteVariables_eq_lookup hvalid,
    Formula.replacementFootprint_substituteForm _ f, fun habsent => ?_⟩
  refine Formula.substituteForm_eq_self fun x hx => ?_
  rw [OrderedMap.lookup_eq_none_iff, List.map_reverse, List.mem_reverse]
  exact habsent x hx

/-- With `(q&p)` for `p` and `T` for `x`, the formula `(p->~r)` has the variables `p`, `q`, `r`
afterwards, and no `T`; the formula `~r` stays as it is. -/
theorem VariableSubstitution.exact_footprint_reintroduced :
    (∃ g, (Formula.binary .implies (.var "p") (.not (.var "r"))).substituteVariables
        [("p", .binary .and (.var "q") (.var "p")), ("x", .const true)] = .ok g ∧
      "p" ∈ g.vars ∧ "x" ∉ g.vars ∧ .constant true ∉ g.operators) ∧
      (Formula.not (.var "r")).substituteVariables
          [("p", .binary .and (.var "q") (.var "p")), ("x", .const true)] =
        .ok (.not (.var "r")) := by
  constructor
  · obtain ⟨g, hg, hfootprint, -⟩ :=
      (exact_footprint (.binary .implies (.var "p") (.not (.var "r")))).2
        [("p", .binary .and (.var "q") (.var "p")), ("x", .const true)] (by decide)
    refine ⟨g, hg, ?_⟩
    rw [hfootprint.mem_vars_iff, hfootprint.mem_vars_iff, hfootprint.mem_operators_iff]
    simp [Formula.mem_vars_iff, Formula.mem_operators_iff, Formula.Mentions, Formula.Uses,
      OrderedMap.lookup]
  · obtain ⟨g, hg, -, hkept⟩ := (exact_footprint (.not (.var "r"))).2
      [("p", .binary .and (.var "q") (.var "p")), ("x", .const true)] (by decide)
    rw [hg, hkept fun x hx => ?_]
    obtain rfl : "r" = x := (Formula.mem_vars_iff x _).mp hx
    decide

/-- **A substitution of operators eliminates them.** After every history of insertions and
applications, what is in the answer to an application comes from the formula or from the templates
of its operators, as its footprint says. If no template in the current map uses an operator that
has a template, then no operator with a template is left, and every substitution with this map
keeps the answer as it is. So it is for a new substitution by any list of templates whose variables
all stand for operands, where the last template for an operator is in force. -/
theorem OperatorSubstitution.eliminates_operators (f : Formula) :
    (∀ before : List (SubstitutionCall Operator),
      f.ExpansionFootprint (kind.after before).map.get? ((kind.after before).apply f).1 ∧
        (Templates.Independent (kind.after before).map.get? →
          (∀ op ∈ ((kind.after before).apply f).1.operators,
            (kind.after before).map.get? op = none) ∧
          ∀ again : List (SubstitutionCall Operator),
            (kind.after again).map.get? = (kind.after before).map.get? →
              ((kind.after again).apply ((kind.after before).apply f).1).1 =
                ((kind.after before).apply f).1)) ∧
      ∀ entries : List (Operator × Formula),
        (∀ e ∈ entries, ∀ x ∈ e.2.vars, x = "p" ∨ x = "q") →
          ∃ g, f.substituteOperators entries = .ok g ∧
            f.ExpansionFootprint (fun op => OrderedMap.lookup op entries.reverse) g ∧
            (Templates.Independent (fun op => OrderedMap.lookup op entries.reverse) →
              (∀ op ∈ g.operators, op ∉ entries.map Prod.fst) ∧
              g.substituteOperators entries = .ok g) := by
  constructor
  · intro before
    have hfootprint := Formula.expansionFootprint_expandForm (closed_after before) f
    simp only [apply_after]
    refine ⟨hfootprint, fun hindependent => ⟨hfootprint.eliminates hindependent, ?_⟩⟩
    intro again hagain
    rw [hagain]
    exact hfootprint.expandForm_eq hindependent
  · intro entries hvars
    simp only [Formula.mem_vars_iff] at hvars
    have hclosed : Templates.Closed fun op => OrderedMap.lookup op entries.reverse :=
      fun op t ht => hvars (op, t) (List.mem_reverse.mp (OrderedMap.mem_of_lookup ht))
    have hfootprint := Formula.expansionFootprint_expandForm hclosed f
    refine ⟨_, f.substituteOperators_eq_lookup hvars, hfootprint, fun hindependent => ⟨?_, ?_⟩⟩
    · intro op hop
      have hnone := hfootprint.eliminates hindependent op hop
      rwa [OrderedMap.lookup_eq_none_iff, List.map_reverse, List.mem_reverse] at hnone
    · rw [Formula.substituteOperators_eq_lookup _ hvars, hfootprint.expandForm_eq hindependent]

/-- With `~(~p|~q)` for `&`, no `&` is left of `((x&q)&p)`, and to replace it once more changes
nothing. -/
theorem OperatorSubstitution.eliminates_operators_conjunction :
    ∃ g, (Formula.binary .and (.binary .and (.var "x") (.var "q")) (.var "p")).substituteOperators
        [(.binary .and, .not (.binary .or (.not (.var "p")) (.not (.var "q"))))] = .ok g ∧
      .binary .and ∉ g.operators ∧
      g.substituteOperators
        [(.binary .and, .not (.binary .or (.not (.var "p")) (.not (.var "q"))))] = .ok g := by
  obtain ⟨g, hg, -, heliminated⟩ := (eliminates_operators
    (Formula.binary .and (.binary .and (.var "x") (.var "q")) (.var "p"))).2
      [(.binary .and, .not (.binary .or (.not (.var "p")) (.not (.var "q"))))]
      (by simp [Formula.mem_vars_iff, Formula.Mentions, eq_comm])
  have hindependent : Templates.Independent fun op => OrderedMap.lookup op
      [(.binary .and, Formula.not (.binary .or (.not (.var "p")) (.not (.var "q"))))].reverse := by
    intro op t ht key hkey
    obtain ⟨rfl, rfl⟩ := Prod.mk.inj (List.mem_singleton.mp (OrderedMap.mem_of_lookup ht))
    simp only [Formula.mem_operators_iff, Formula.Uses, or_false] at hkey
    rcases hkey with rfl | rfl | rfl | rfl <;> rfl
  obtain ⟨hgone, hagain⟩ := heliminated hindependent
  exact ⟨g, hg, fun h => hgone _ h (by simp), hagain⟩

end Propositional

import Propositional.Proofs.Substitution.Variables
import Propositional.Proofs.Text.ByteOrder

/-!
# Substitutions of Operators Rewrite in One Pass

`Formula.expandForm` is the recursion that a substitution of operators stands for: a node
whose operator has a template becomes that template, with `p` and `q` standing for the
expanded operands, and every other node is kept over its expanded operands. What the
templates contain is not looked at again, and neither are variables `p` and `q` that come
from the operands, because the template is instantiated by a simultaneous substitution of
its own (`OperatorSubstitution.instantiate_eq`).

## Main results

* `OperatorSubstitution.strayVariable?_eq_some_iff`: a template is refused for its
  byte-smallest variable other than `p` and `q`.
* `OperatorSubstitution.follows`: every request is answered as the recursion says.
* `Formula.substituteOperators_eq_lookup`: the effect of a new substitution.
* `OperatorSubstitution.answers_one_pass`: the same for all histories, stated in full.
-/

namespace Propositional

namespace OperatorSubstitution

/-- A template is refused for the smallest of its variables that stand for no operand. -/
theorem strayVariable?_eq_some_iff {template : Formula} {v : String} :
    strayVariable? template = some v ↔
      (template.Mentions v ∧ v ≠ "p" ∧ v ≠ "q") ∧
        ∀ w, template.Mentions w → w ≠ "p" → w ≠ "q" → w ≠ v → bytes v < bytes w := by
  rw [strayVariable?, find?_eq_some_iff_of_sorted template.sorted_vars]
  simp only [Formula.mem_vars_iff, operandNames, Bool.not_eq_true', List.contains_eq_mem,
    decide_eq_false_iff_not, List.mem_cons, List.not_mem_nil, or_false, not_or, ne_eq]
  constructor
  · rintro ⟨hv, hstray, hleast⟩
    exact ⟨⟨hv, hstray⟩, fun w hw hp hq => hleast w hw ⟨hp, hq⟩⟩
  · rintro ⟨⟨hv, hstray⟩, hleast⟩
    exact ⟨hv, hstray, fun w hw hne => hleast w hw hne.1 hne.2⟩

/-- A template is accepted if all its variables stand for operands. -/
theorem strayVariable?_eq_none_iff {template : Formula} :
    strayVariable? template = none ↔ ∀ v, template.Mentions v → v = "p" ∨ v = "q" := by
  simp [strayVariable?, operandNames, Formula.mem_vars_iff, or_iff_not_imp_left]

/-- A new substitution of operators refuses the templates with a stray variable, and has
the effect of expansion in one pass. -/
def law : SubstitutionLaw Operator where
  fault? op template := (strayVariable? template).map (.invalidTemplate op template)
  effect := fun m f => f.expandForm m

/-- To instantiate a template is to replace its variables simultaneously. -/
theorem instantiate_eq (template : Formula) (operands : List Formula) :
    instantiate template operands = template.substituteForm (bindings operands).get? := by
  calc instantiate template operands
      = BottomUp.fold (VariableSubstitution.rule (bindings operands)) template :=
        BottomUp.apply_fst (BottomUp.faithful_empty _) template
    _ = template.substituteForm (bindings operands).get? :=
        VariableSubstitution.fold_rule (bindings operands) template

/-- Without operands no template variable is bound. -/
theorem get?_bindings_nil (x : String) : (bindings []).get? x = none := rfl

/-- A single operand is bound to `p`. -/
theorem get?_bindings_singleton (a : Formula) (x : String) :
    (bindings [a]).get? x = if x = "p" then some a else none := by
  change (OrderedMap.insert .empty "p" a).get? x = _
  simp only [OrderedMap.get?_insert, OrderedMap.get?_empty, eq_comm (a := "p")]

/-- Two operands are bound to `p` and `q`. -/
theorem get?_bindings_pair (a b : Formula) (x : String) :
    (bindings [a, b]).get? x = if x = "p" then some a else if x = "q" then some b else none := by
  change ((OrderedMap.insert .empty "p" a).insert "q" b).get? x = _
  simp only [OrderedMap.get?_insert, OrderedMap.get?_empty, eq_comm (a := "p"),
    eq_comm (a := "q")]
  by_cases hp : x = "p"
  · subst hp
    simp
  · simp [hp]

/-- Rewriting by the rule of a map is expansion in one pass. -/
theorem fold_rule (map : OrderedMap Operator Formula) (f : Formula) :
    BottomUp.fold (rule map) f = f.expandForm map.get? := by
  induction f with
  | var name => rfl
  | const value =>
      rw [BottomUp.fold, rule, Formula.expandForm, Formula.operator?, Option.bind_some]
      cases map.get? (.constant value) with
      | none => rfl
      | some t =>
          have hnone : (bindings []).get? = fun _ => none := funext get?_bindings_nil
          simp only [instantiate_eq, hnone, Formula.substituteForm_none]
  | not f ih =>
      rw [BottomUp.fold, rule, Formula.expandForm, Formula.operator?, Option.bind_some]
      cases map.get? .negation with
      | none => simp only [Formula.rebuild, Formula.keepShared_eq, ih]
      | some t => simp only [instantiate_eq, funext (get?_bindings_singleton _), ih]
  | binary c f g ihf ihg =>
      rw [BottomUp.fold, rule, Formula.expandForm, Formula.operator?, Option.bind_some]
      cases map.get? (.binary c) with
      | none => simp only [Formula.rebuild, Formula.keepShared_eq, ihf, ihg]
      | some t => simp only [instantiate_eq, funext (get?_bindings_pair _ _), ihf, ihg]

/-- The substitution stands for the assignment `m` of templates: its map has them, and its
cache is faithful to that map. -/
structure Stands (s : OperatorSubstitution) (m : Operator → Option Formula) : Prop where
  get?_eq : s.map.get? = m
  faithful : BottomUp.Faithful (rule s.map) s.cache

/-- **A substitution of operators follows its law**, whatever is in its cache. -/
theorem follows : kind.Follows law Stands where
  start := ⟨rfl, BottomUp.faithful_empty _⟩
  insert := by
    intro s m op template hstands hfault
    have hstray : strayVariable? template = none := Option.map_eq_none_iff.mp hfault
    refine ⟨⟨s.map.insert op template, ∅⟩, ?_, ?_, BottomUp.faithful_empty _⟩
    · simp only [kind, OperatorSubstitution.insert, hstray]
    · funext op'
      rw [OrderedMap.get?_insert, hstands.get?_eq]
  refuse := by
    intro s m op template e _ hfault
    obtain ⟨v, hstray, rfl⟩ := Option.map_eq_some_iff.mp hfault
    simp only [kind, OperatorSubstitution.insert, hstray]
  apply := by
    intro s m f hstands
    refine ⟨?_, hstands.get?_eq, BottomUp.faithful_apply hstands.faithful f⟩
    calc (s.apply f).1 = BottomUp.fold (rule s.map) f := BottomUp.apply_fst hstands.faithful f
      _ = f.expandForm m := by rw [fold_rule, hstands.get?_eq]

/-- After every history an application expands the formula as the current map says. -/
theorem apply_after (before : List (SubstitutionCall Operator)) (f : Formula) :
    ((kind.after before).apply f).1 = f.expandForm (kind.after before).map.get? := by
  have hstands := follows.invariant before
  rw [hstands.get?_eq]
  exact (follows.apply f hstands).1

/-- **A substitution of operators rewrites in one pass, after any history.** An application
is answered with the expansion under the templates that were accepted last; a template
whose variables all stand for operands is accepted; any other template is refused for its
byte-smallest stray variable, and all other answers are those of the history without
it. -/
theorem answers_one_pass (before later : List (SubstitutionCall Operator)) :
    (kind.after before).map.get? = law.assigned before ∧
      (∀ f, (kind.answers (before ++ .apply f :: later))[before.length]? =
        some (.rewritten (f.expandForm (law.assigned before)))) ∧
      (∀ op template, (∀ v, template.Mentions v → v = "p" ∨ v = "q") →
        (kind.answers (before ++ .insert op template :: later))[before.length]? =
          some .inserted) ∧
      ∀ op template, (¬ ∀ v, template.Mentions v → v = "p" ∨ v = "q") →
        ∃ v, (template.Mentions v ∧ v ≠ "p" ∧ v ≠ "q") ∧
          (∀ w, template.Mentions w → w ≠ "p" → w ≠ "q" → w ≠ v → bytes v < bytes w) ∧
          kind.answers (before ++ .insert op template :: later) =
            kind.answers before ++ .refused (.invalidTemplate op template v) ::
              (kind.answers (before ++ later)).drop before.length := by
  refine ⟨(follows.invariant before).get?_eq,
    fun f => follows.answers_getElem? before later (.apply f), ?_, ?_⟩
  · intro op template hvars
    have hfault : law.fault? op template = none :=
      Option.map_eq_none_iff.mpr (strayVariable?_eq_none_iff.mpr hvars)
    rw [follows.answers_getElem? before later (.insert op template), SubstitutionLaw.answer,
      hfault]
  · intro op template hstray
    rw [← strayVariable?_eq_none_iff, ← ne_eq, Option.ne_none_iff_exists'] at hstray
    obtain ⟨v, hv⟩ := hstray
    have hfault : law.fault? op template = some (.invalidTemplate op template v) :=
      Option.map_eq_some_iff.mpr ⟨v, hv, rfl⟩
    obtain ⟨hstray, hleast⟩ := strayVariable?_eq_some_iff.mp hv
    exact ⟨v, hstray, hleast, follows.answers_refused before later hfault⟩

end OperatorSubstitution

open OperatorSubstitution in
/-- The effect of a new substitution whose templates have only variables that stand for operands:
the templates are found in the entries from the last to the first. -/
theorem Formula.substituteOperators_eq_lookup (f : Formula) {entries : List (Operator × Formula)}
    (hvars : ∀ e ∈ entries, ∀ x, e.2.Mentions x → x = "p" ∨ x = "q") :
    f.substituteOperators entries =
      .ok (f.expandForm fun op => OrderedMap.lookup op entries.reverse) := by
  have hfault : ∀ e ∈ entries, law.fault? e.1 e.2 = none := fun e he =>
    Option.map_eq_none_iff.mpr (strayVariable?_eq_none_iff.mpr (hvars e he))
  have hinsert : empty.insertAll entries =
      .ok (kind.after (SubstitutionCall.insertions entries)) := follows.foldlM_insert hfault
  rw [substituteOperators, hinsert, ← SubstitutionLaw.assigned_insertions hfault]
  exact congrArg Except.ok (follows.apply f (follows.invariant _)).1

end Propositional

import Propositional.Proofs.Substitution.BottomUp
import Propositional.Proofs.Substitution.History

/-!
# Substitutions of Variables Never Answer from a Stale Cache

An insertion purges the cache only in part: it drops the entries whose formula mentions
the variable and keeps the others. The entries that are kept stay true because the effect
of a substitution on a formula depends on the variables of that formula only
(`Formula.substituteForm_congr`). So the invariant of a history is that the cache is
faithful to the map as it is now (`VariableSubstitution.Stands`).

## Main results

* `VariableSubstitution.follows`: every request is answered as the recursion
  `Formula.substituteForm` says.
* `Formula.substituteVariables_eq`: the effect of a new substitution.
* `VariableSubstitution.answers_never_stale`: no history makes a cached answer wrong.
-/

namespace Propositional

namespace Formula

/-- Two substitutions that agree on the variables of a formula have the same effect on
it. -/
theorem substituteForm_congr {f : Formula} {r r' : String → Option Formula}
    (h : ∀ x, f.Mentions x → r x = r' x) : f.substituteForm r = f.substituteForm r' := by
  induction f with
  | var name => rw [substituteForm, substituteForm, h name rfl]
  | const value => rfl
  | not f ih => rw [substituteForm, substituteForm, ih h]
  | binary c f g ihf ihg =>
      rw [substituteForm, substituteForm, ihf fun x hx => h x (.inl hx),
        ihg fun x hx => h x (.inr hx)]

/-- A substitution without entries has no effect. -/
@[simp] theorem substituteForm_none (f : Formula) : f.substituteForm (fun _ => none) = f := by
  induction f with
  | var name => rfl
  | const value => rfl
  | not f ih => rw [substituteForm, ih]
  | binary c f g ihf ihg => rw [substituteForm, ihf, ihg]

/-- The set of names tells which variables are mentioned. -/
theorem contains_names_iff {f : Formula} {name : String} :
    f.names.contains name = true ↔ f.Mentions name := by
  rw [Std.TreeSet.contains_iff_mem, ← Std.TreeSet.mem_toList]
  exact f.mem_vars_iff name

end Formula

namespace VariableSubstitution

/-- A new substitution of variables refuses the keys that are no variable names, and has
the effect of simultaneous replacement. -/
def law : SubstitutionLaw String where
  fault? name _ := if isVariable name then none else some (.notAVariable name)
  effect := fun m f => f.substituteForm m

/-- Rewriting by the rule of a map is simultaneous replacement. -/
theorem fold_rule (map : OrderedMap String Formula) (f : Formula) :
    BottomUp.fold (rule map) f = f.substituteForm map.get? := by
  induction f with
  | var name => rfl
  | const value => rfl
  | not f ih => simp [BottomUp.fold, rule, Formula.rebuild, Formula.substituteForm, ih]
  | binary c f g ihf ihg =>
      simp [BottomUp.fold, rule, Formula.rebuild, Formula.substituteForm, ihf, ihg]

/-- The substitution stands for the assignment `m`: its map has the entries of `m`, each
of them once and with a valid name, and its cache is faithful to that map. -/
structure Stands (s : VariableSubstitution) (m : String → Option Formula) : Prop where
  get?_eq : s.map.get? = m
  nodup : s.map.keys.Nodup
  valid : ∀ name ∈ s.map.keys, isVariable name = true
  faithful : BottomUp.Faithful (rule s.map) s.cache

/-- The entries that an insertion leaves in the cache are true of the new map: their
formulas do not mention the variable. -/
theorem faithful_filter {map : OrderedMap String Formula} {cache : BottomUp.Cache}
    (h : BottomUp.Faithful (rule map) cache) (name : String) (f : Formula) :
    BottomUp.Faithful (rule (map.insert name f))
      (cache.filter fun g _ => !g.names.contains name) := by
  intro g result hresult
  rw [Std.HashMap.getElem?_filter', Option.filter_eq_some_iff] at hresult
  obtain ⟨hold, hkept⟩ := hresult
  have hunmentioned : ¬ g.Mentions name := by
    rw [Bool.not_eq_true'] at hkept
    rw [← Formula.contains_names_iff, hkept]
    exact Bool.false_ne_true
  rw [h g result hold, fold_rule, fold_rule]
  refine Formula.substituteForm_congr fun x hx => ?_
  rw [OrderedMap.get?_insert, if_neg]
  rintro rfl
  exact hunmentioned hx

/-- An insertion for a valid name puts the formula in force for that name. -/
theorem Stands.insert {s : VariableSubstitution} {m : String → Option Formula}
    (h : s.Stands m) {name : String} (f : Formula) (hname : isVariable name = true) :
    ∃ s', s.insert name f = .ok s' ∧
      s'.Stands fun name' => if name = name' then some f else m name' := by
  refine ⟨_, by rw [VariableSubstitution.insert, if_pos hname], ?_, ?_, ?_, ?_⟩
  · funext name'
    rw [OrderedMap.get?_insert, h.get?_eq]
  · exact OrderedMap.nodup_keys_insert h.nodup name f
  · intro x hx
    rw [OrderedMap.keys_insert] at hx
    split at hx
    · exact h.valid x hx
    · rcases List.mem_append.mp hx with hx | hx
      · exact h.valid x hx
      · exact List.mem_singleton.mp hx ▸ hname
  · exact faithful_filter h.faithful name f

/-- **A substitution of variables follows its law**, whatever is in its cache. -/
theorem follows : kind.Follows law Stands where
  start := ⟨rfl, List.nodup_nil, by simp [kind, empty, OrderedMap.keys, OrderedMap.empty],
    BottomUp.faithful_empty _⟩
  insert := by
    intro s m name f hstands hfault
    have hname : isVariable name = true := by
      by_contra hname
      simp [law, hname] at hfault
    exact hstands.insert f hname
  refuse := by
    intro s m name f e _ hfault
    simp only [law] at hfault
    split at hfault
    · exact absurd hfault (by simp)
    · rename_i hname
      obtain rfl := Option.some.inj hfault
      exact if_neg hname
  apply := by
    intro s m f hstands
    refine ⟨?_, hstands.get?_eq, hstands.nodup, hstands.valid,
      BottomUp.faithful_apply hstands.faithful f⟩
    calc (s.apply f).1 = BottomUp.fold (rule s.map) f := BottomUp.apply_fst hstands.faithful f
      _ = f.substituteForm m := by rw [fold_rule, hstands.get?_eq]

/-- After every history an application replaces the variables as the current map says. -/
theorem apply_after (before : List (SubstitutionCall String)) (f : Formula) :
    ((kind.after before).apply f).1 = f.substituteForm (kind.after before).map.get? := by
  have hstands := follows.invariant before
  rw [hstands.get?_eq]
  exact (follows.apply f hstands).1

/-- The entries of a map with distinct keys, inserted one after the other, assign what the
map assigns. -/
theorem assigned_entries {entries : List (String × Formula)}
    (hvalid : ∀ e ∈ entries, isVariable e.1 = true) (hnodup : (entries.map (·.1)).Nodup) :
    law.assigned (SubstitutionCall.insertions entries) =
      fun name => OrderedMap.lookup name entries := by
  induction entries using List.reverseRecOn with
  | nil => rfl
  | append_singleton entries e ih =>
      obtain ⟨name, f⟩ := e
      have hname : isVariable name = true := hvalid (name, f) (by simp)
      have hfault : law.fault? name f = none := if_pos hname
      rw [List.map_append, List.map_singleton, List.nodup_append] at hnodup
      have hnew : OrderedMap.lookup name entries = none := by
        rw [OrderedMap.lookup_eq_none_iff]
        intro hmem
        exact hnodup.2.2 name hmem name (List.mem_singleton_self name) rfl
      rw [SubstitutionCall.insertions_append_singleton,
        SubstitutionLaw.assigned_insert _ hfault,
        ih (fun e he => hvalid e (List.mem_append_left _ he)) hnodup.1]
      funext name'
      rw [OrderedMap.lookup_append]
      by_cases heq : name = name'
      · subst heq
        simp [hnew, OrderedMap.lookup]
      · simp [OrderedMap.lookup, heq]

end VariableSubstitution

/-- The effect of a new substitution with valid names: of the entries for one name the
last is in force. -/
theorem Formula.substituteVariables_eq (f : Formula) {entries : List (String × Formula)}
    (hvalid : ∀ e ∈ entries, isVariable e.1 = true) :
    f.substituteVariables entries = .ok (f.substituteForm
      (VariableSubstitution.law.assigned (SubstitutionCall.insertions entries))) := by
  have hinsert : VariableSubstitution.empty.insertAll entries =
      .ok (VariableSubstitution.kind.after (SubstitutionCall.insertions entries)) :=
    VariableSubstitution.follows.foldlM_insert fun e he => if_pos (hvalid e he)
  have hstands := VariableSubstitution.follows.invariant (SubstitutionCall.insertions entries)
  rw [substituteVariables, hinsert]
  exact congrArg Except.ok (VariableSubstitution.follows.apply f hstands).1

/-- So the names stand for the formulas that are found in the entries from the last to the
first. -/
theorem Formula.substituteVariables_eq_lookup (f : Formula) {entries : List (String × Formula)}
    (hvalid : ∀ e ∈ entries, isVariable e.1 = true) :
    f.substituteVariables entries =
      .ok (f.substituteForm fun x => OrderedMap.lookup x entries.reverse) := by
  rw [f.substituteVariables_eq hvalid,
    SubstitutionLaw.assigned_insertions fun e he => if_pos (hvalid e he)]

/-- **A substitution of variables never answers from a stale cache.** After every history
of insertions and applications: the current map assigns to each name the formula of the
last insertion with that valid name; an application is answered with the simultaneous
replacement under that assignment, which is what a new substitution with the current map
returns; a valid insertion is accepted; and an insertion for a text that is no variable
name is refused, and all other answers are those of the history without it. -/
theorem VariableSubstitution.answers_never_stale
    (before later : List (SubstitutionCall String)) :
    (kind.after before).map.get? = law.assigned before ∧
      (∀ f, (kind.answers (before ++ .apply f :: later))[before.length]? =
        some (.rewritten (f.substituteForm (law.assigned before)))) ∧
      (∀ f : Formula, f.substituteVariables (kind.after before).map.entries =
        .ok (f.substituteForm (law.assigned before))) ∧
      (∀ name f, isVariable name = true →
        (kind.answers (before ++ .insert name f :: later))[before.length]? = some .inserted) ∧
      ∀ name f, isVariable name = false →
        kind.answers (before ++ .insert name f :: later) =
          kind.answers before ++ .refused (.notAVariable name) ::
            (kind.answers (before ++ later)).drop before.length := by
  have hstands := follows.invariant before
  refine ⟨hstands.get?_eq, fun f => follows.answers_getElem? before later (.apply f), ?_, ?_,
    ?_⟩
  · intro f
    have hvalid : ∀ e ∈ (kind.after before).map.entries, isVariable e.1 = true :=
      fun e he => hstands.valid e.1 (List.mem_map_of_mem he)
    rw [f.substituteVariables_eq hvalid, assigned_entries hvalid hstands.nodup,
      ← hstands.get?_eq]
    rfl
  · intro name f hname
    have hfault : law.fault? name f = none := if_pos hname
    rw [follows.answers_getElem? before later (.insert name f), SubstitutionLaw.answer, hfault]
  · intro name f hname
    exact follows.answers_refused before later (if_neg (by simp [hname]))

end Propositional

import Propositional.Proofs.Substitution.Variables

/-!
# Substitutions Compose

To replace the variables of a formula and then those of the result is to replace them once,
by the replacements in which the second substitution has been made already
(`Formula.substituteForm_substituteForm`). A variable that the first substitution leaves
alone is left to the second one. This is so because both replace all variables at once: what
the first one brings in meets the second one only, even if both have the same keys.

The substitution that does both at once can be made from the two
(`VariableSubstitution.entriesThen`). Renamings are the case in which nothing but names
changes: if no two names become the same, the renaming can be undone.

## Main results

* `Formula.substituteForm_substituteForm`: the law for the recursion.
* `VariableSubstitution.lookup_entriesThen`: what the composed substitution maps a name to.
* `Formula.exists_renamed`: a renaming followed by its inverse.
* `VariableSubstitution.apply_composes`: the law for what substitutions answer.
-/

namespace Propositional

namespace Formula

/-- The replacement that does at once what `r` and then `r'` does. -/
def replaceThen (r r' : String → Option Formula) (x : String) : Option Formula :=
  match r x with
  | some g => some (g.substituteForm r')
  | none => r' x

/-- **To replace variables twice is to replace them once.** -/
theorem substituteForm_substituteForm (f : Formula) (r r' : String → Option Formula) :
    (f.substituteForm r).substituteForm r' = f.substituteForm (replaceThen r r') := by
  induction f with
  | var name =>
      rw [substituteForm, substituteForm, replaceThen]
      cases r name with
      | none => rfl
      | some g => rfl
  | const value => rfl
  | not f ih => rw [substituteForm, substituteForm, substituteForm, ih]
  | binary c f g ihf ihg => rw [substituteForm, substituteForm, substituteForm, ihf, ihg]

/-- To replace every variable by itself has no effect. -/
theorem substituteForm_some_var (f : Formula) : f.substituteForm (fun x => some (var x)) = f := by
  induction f with
  | var name => rfl
  | const value => rfl
  | not f ih => rw [substituteForm, ih]
  | binary c f g ihf ihg => rw [substituteForm, ihf, ihg]

/-! ### Renamings -/

/-- The entries that give each of the names its new one. -/
def renamingTo (rename : String → String) (names : List String) : List (String × Formula) :=
  names.map fun x => (x, var (rename x))

/-- The entries that give the old names back. -/
def renamingBack (rename : String → String) (names : List String) : List (String × Formula) :=
  names.map fun x => (rename x, var x)

/-- **An injective renaming can be undone.** The new names need not be outside the formula. -/
theorem exists_renamed {f : Formula} {names : List String} {rename : String → String}
    (hf : ∀ x, f.Mentions x → x ∈ names)
    (hvalid : ∀ x ∈ names, isVariable x = true ∧ isVariable (rename x) = true)
    (hinjective : ∀ x ∈ names, ∀ y ∈ names, rename x = rename y → x = y) :
    ∃ g, f.substituteVariables (renamingTo rename names) = .ok g ∧
      g.substituteVariables (renamingBack rename names) = .ok f := by
  have hto : ∀ e ∈ renamingTo rename names, isVariable e.1 = true :=
    List.forall_mem_map.mpr fun x hx => (hvalid x hx).1
  have hback : ∀ e ∈ renamingBack rename names, isVariable e.1 = true :=
    List.forall_mem_map.mpr fun x hx => (hvalid x hx).2
  refine ⟨_, f.substituteVariables_eq_lookup hto, ?_⟩
  rw [substituteVariables_eq_lookup _ hback, substituteForm_substituteForm]
  refine congrArg Except.ok (Eq.trans (substituteForm_congr fun x hx => ?_)
    f.substituteForm_some_var)
  have hmem : x ∈ names.reverse := List.mem_reverse.mpr (hf x hx)
  have hnew : OrderedMap.lookup x (renamingTo rename names).reverse = some (var (rename x)) := by
    rw [renamingTo, ← List.map_reverse]
    exact OrderedMap.lookup_map_of_mem id (fun y => var (rename y)) hmem fun y _ hyx => by
      rw [show y = x from hyx]
  have hold : OrderedMap.lookup (rename x) (renamingBack rename names).reverse =
      some (var x) := by
    rw [renamingBack, ← List.map_reverse]
    refine OrderedMap.lookup_map_of_mem rename var hmem fun y hy hyx => ?_
    rw [hinjective y (List.mem_reverse.mp hy) x (hf x hx) hyx]
  rw [replaceThen, hnew]
  simp only [substituteForm, hold, Option.getD_some]

end Formula

namespace VariableSubstitution

/-- The entries of the substitution that does at once what `s` and then `t` does: the keys of
`s`, with their formulas rewritten by `t`, and those keys of `t` that `s` does not have. -/
def entriesThen (s t : VariableSubstitution) : List (String × Formula) :=
  s.map.entries.map (fun e => (e.1, (t.apply e.2).1)) ++
    t.map.entries.filter fun e => !s.map.contains e.1

/-- What the entries map a name to. -/
theorem lookup_entriesThen (s t : VariableSubstitution) (x : String) :
    OrderedMap.lookup x (s.entriesThen t) =
      match s.map.get? x with
      | some g => some (t.apply g).1
      | none => t.map.get? x := by
  rw [entriesThen, OrderedMap.lookup_append,
    OrderedMap.lookup_map_snd x (fun g => (t.apply g).1),
    OrderedMap.lookup_filter_fst x (fun k => !s.map.contains k), OrderedMap.contains]
  change ((s.map.get? x).map _).or (if _ then t.map.get? x else none) = _
  cases s.map.get? x with
  | some g => rfl
  | none => rfl

/-- The keys are distinct if those of both substitutions are. -/
theorem nodup_entriesThen {s t : VariableSubstitution} (hs : s.map.keys.Nodup)
    (ht : t.map.keys.Nodup) : ((s.entriesThen t).map Prod.fst).Nodup := by
  rw [entriesThen, List.map_append, List.map_map, List.nodup_append]
  refine ⟨hs, (List.filter_sublist.map Prod.fst).nodup ht, ?_⟩
  rintro x hx y hy rfl
  obtain ⟨e, he, rfl⟩ := List.mem_map.mp hy
  have habsent : s.map.contains e.1 = false := by simpa using (List.mem_filter.mp he).2
  have hnone : s.map.get? e.1 = none :=
    Option.not_isSome_iff_eq_none.mp (Bool.eq_false_iff.mp habsent)
  exact OrderedMap.lookup_eq_none_iff.mp hnone hx

/-- They are valid names if those of both substitutions are. -/
theorem isVariable_of_mem_entriesThen {s t : VariableSubstitution}
    (hs : ∀ x ∈ s.map.keys, isVariable x = true) (ht : ∀ x ∈ t.map.keys, isVariable x = true) :
    ∀ e ∈ s.entriesThen t, isVariable e.1 = true := by
  intro e he
  rcases List.mem_append.mp he with he | he
  · obtain ⟨e', he', rfl⟩ := List.mem_map.mp he
    exact hs e'.1 (List.mem_map_of_mem he')
  · exact ht e.1 (List.mem_map_of_mem (List.mem_filter.mp he).1)

/-- **Substitutions compose.** For all substitutions, with any histories of insertions and
applications: what the second one answers for the answer of the first one is the answer for the
formula itself of every substitution that maps the keys of the first one to their formulas as
the second one rewrites them, and all other names to what the second one maps them to. A new
substitution with these entries is accepted, and gives that formula. So a renaming that keeps
distinct names distinct, and after it the inverse one, give back the formula. -/
theorem apply_composes (first second : List (SubstitutionCall String)) (f : Formula) :
    (∀ joined : List (SubstitutionCall String),
      (∀ x g, (kind.after first).map.get? x = some g →
        (kind.after joined).map.get? x = some ((kind.after second).apply g).1) →
      (∀ x, (kind.after first).map.get? x = none →
        (kind.after joined).map.get? x = (kind.after second).map.get? x) →
      ((kind.after joined).apply f).1 =
        ((kind.after second).apply ((kind.after first).apply f).1).1) ∧
      f.substituteVariables ((kind.after first).entriesThen (kind.after second)) =
        .ok ((kind.after second).apply ((kind.after first).apply f).1).1 ∧
      ∀ (names : List String) (rename : String → String), (∀ x, f.Mentions x → x ∈ names) →
        (∀ x ∈ names, isVariable x = true ∧ isVariable (rename x) = true) →
        (∀ x ∈ names, ∀ y ∈ names, rename x = rename y → x = y) →
        ∃ g, f.substituteVariables (Formula.renamingTo rename names) = .ok g ∧
          g.substituteVariables (Formula.renamingBack rename names) = .ok f := by
  have hfirst := follows.invariant first
  have hsecond := follows.invariant second
  simp only [apply_after, Formula.substituteForm_substituteForm]
  refine ⟨fun joined hkeys hother => ?_, ?_, fun names rename => Formula.exists_renamed⟩
  · refine Formula.substituteForm_congr fun x _ => ?_
    rw [Formula.replaceThen]
    cases hx : (kind.after first).map.get? x with
    | some g => exact hkeys x g hx
    | none => exact hother x hx
  · have hvalid := isVariable_of_mem_entriesThen hfirst.valid hsecond.valid
    rw [f.substituteVariables_eq hvalid,
      assigned_entries hvalid (nodup_entriesThen hfirst.nodup hsecond.nodup)]
    refine congrArg Except.ok (Formula.substituteForm_congr fun x _ => ?_)
    rw [lookup_entriesThen, Formula.replaceThen]
    cases (kind.after first).map.get? x with
    | some g => exact congrArg some (apply_after second g)
    | none => rfl

/-- With `q` for `p` and then `~p` for `q` the formula `(p->q)` becomes `(~p->~p)`, as it does at
once with `~p` for both. With `q` for `p` and `p` for `q`, and then the other way round, it stays
what it is. -/
theorem apply_composes_overlapping :
    ((kind.after [.insert "q" (.not (.var "p"))]).apply
        ((kind.after [.insert "p" (.var "q")]).apply
          (.binary .implies (.var "p") (.var "q"))).1).1 =
        .binary .implies (.not (.var "p")) (.not (.var "p")) ∧
      ∃ g, (Formula.binary .implies (.var "p") (.var "q")).substituteVariables
          [("p", .var "q"), ("q", .var "p")] = .ok g ∧
        g.substituteVariables [("q", .var "p"), ("p", .var "q")] =
          .ok (.binary .implies (.var "p") (.var "q")) := by
  obtain ⟨hjoined, -, hrenaming⟩ := apply_composes [.insert "p" (.var "q")]
    [.insert "q" (.not (.var "p"))] (.binary .implies (.var "p") (.var "q"))
  constructor
  · have hfirst : (kind.after [.insert "p" (.var "q")]).map = ⟨[("p", .var "q")]⟩ := rfl
    rw [← hjoined [.insert "p" (.not (.var "p")), .insert "q" (.not (.var "p"))], apply_after]
    · rfl
    · intro x g hg
      rw [hfirst] at hg
      obtain ⟨rfl, hg⟩ := Option.ite_none_right_eq_some.mp hg
      obtain rfl := Option.some.inj hg
      rw [apply_after]
      rfl
    · intro x hx
      have hp : "p" ≠ x := by
        rintro rfl
        cases hx
      exact if_neg hp
  · refine hrenaming ["p", "q"] (fun x => if x = "p" then "q" else "p") ?_ (by decide) (by decide)
    rintro x (rfl | rfl) <;> decide

end VariableSubstitution

end Propositional

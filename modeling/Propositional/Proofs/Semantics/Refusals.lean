import Propositional.Proofs.Semantics.Clauses

/-!
# What Enumeration and Synthesis Refuse

A list of variables can be wrong in three ways, and a table over it in two more. Any of these may
come together, at different places, but only one is reported, and which one is fixed: faults are
looked for kind by kind, and within a kind from the front of the list (`Enumeration.Refusal`,
`NormalForm.Refusal`).

Once a table has passed, nothing is refused any more. In particular the variables of the formula may
as well be built by the checked builder, one by one (`NormalForm.checkedSynthesize_eq`). So both
normal forms accept the same tables, and refuse all others alike.

## Main definitions

* `Enumeration.Refusal`, `NormalForm.Refusal`: what is to be reported, of all that is wrong.
* `NormalForm.checkedSynthesize`: synthesis in which every variable is checked once more.

## Main results

* `Enumeration.ofVariables_eq_error_iff`: what a list of variables is refused for.
* `NormalForm.synthesize_eq_error_iff`: what a table is refused for.
* `NormalForm.refuses_in_order`: what is accepted, and what all else is refused for.
-/

namespace Propositional

/-! ### Variables -/

/-- What is found is the first name that has been seen before, or stands earlier in the list. -/
theorem firstRepeated?_eq_some_iff {seen : OrderedSet String} {names : List String} {x : String} :
    firstRepeated? seen names = some x ↔
      ∃ before after, names = before ++ x :: after ∧ before.Nodup ∧ (∀ y ∈ before, y ∉ seen) ∧
        (x ∈ seen ∨ x ∈ before) := by
  induction names generalizing seen with
  | nil => simp [firstRepeated?]
  | cons y names ih =>
      rw [firstRepeated?]
      split
      · rename_i hy
        constructor
        · rintro ⟨⟩
          exact ⟨[], names, rfl, List.nodup_nil, by simp, .inl hy⟩
        · rintro ⟨_ | ⟨z, before⟩, after, hnames, -, hnew, -⟩
          · rw [(List.cons.inj hnames).1]
          · obtain ⟨rfl, -⟩ := List.cons.inj hnames
            exact absurd hy (hnew y List.mem_cons_self)
      · rename_i hy
        -- `y` has been seen by the later names, which here have it among those before them
        rw [ih]
        constructor
        · rintro ⟨before, after, rfl, hnodup, hnew, hx⟩
          rw [forall_notMem_insert_iff] at hnew
          refine ⟨y :: before, after, rfl, List.nodup_cons.mpr ⟨hnew.1, hnodup⟩,
            List.forall_mem_cons.mpr ⟨hy, hnew.2⟩, ?_⟩
          rw [Std.TreeSet.mem_insert, Std.LawfulEqCmp.compare_eq_iff_eq] at hx
          rw [List.mem_cons]
          tauto
        · rintro ⟨_ | ⟨z, before⟩, after, hnames, hnodup, hnew, hx⟩
          · obtain ⟨rfl, -⟩ := List.cons.inj hnames
            exact absurd hx (by simp [hy])
          · obtain ⟨rfl, rfl⟩ := List.cons.inj hnames
            obtain ⟨hybefore, hnodup⟩ := List.nodup_cons.mp hnodup
            refine ⟨before, after, rfl, hnodup,
              forall_notMem_insert_iff.mpr ⟨hybefore, (List.forall_mem_cons.mp hnew).2⟩, ?_⟩
            rw [Std.TreeSet.mem_insert, Std.LawfulEqCmp.compare_eq_iff_eq]
            rw [List.mem_cons] at hx
            tauto

namespace Enumeration

/-- What is reported of a list of variables whose models cannot be enumerated. -/
inductive Refusal (vars : List String) : SemanticsError → Prop
  /-- The first invalid name, if there is one. -/
  | invalid {before after : List String} {x : String} (hvars : vars = before ++ x :: after)
      (hbefore : ∀ y ∈ before, isVariable y = true) (hx : isVariable x = false) :
      Refusal vars (.invalidVariable x)
  /-- Else the name at the earliest place at which an earlier one is repeated, if there is one. -/
  | repeated (hvalid : ∀ y ∈ vars, isVariable y = true) {before after : List String} {x : String}
      (hvars : vars = before ++ x :: after) (hbefore : before.Nodup) (hx : x ∈ before) :
      Refusal vars (.duplicateVariable x)
  /-- Else the number of variables, if it is too large. -/
  | tooMany (hvalid : ∀ y ∈ vars, isVariable y = true) (hnodup : vars.Nodup)
      (hmany : 64 ≤ vars.length) : Refusal vars (.tooManyVariables vars.length)

/-- A list of variables is refused for what is wrong with it. -/
theorem Refusal.ofVariables_eq_error {vars : List String} {fault : SemanticsError}
    (h : Refusal vars fault) : ofVariables vars = .error fault := by
  cases h with
  | @invalid before after x hvars hbefore hx =>
      have hfind : vars.find? (fun name => !isVariable name) = some x :=
        List.find?_eq_some_iff_append.mpr
          ⟨by simp [hx], before, after, hvars, by simpa using hbefore⟩
      rw [ofVariables, hfind]
  | @repeated hvalid before after x hvars hbefore hx =>
      have hrepeated : firstRepeated? ∅ vars = some x :=
        firstRepeated?_eq_some_iff.mpr ⟨before, after, hvars, hbefore, by simp, .inr hx⟩
      rw [ofVariables, find?_invalid_eq_none_iff.mpr hvalid, hrepeated]
  | tooMany hvalid hnodup hmany =>
      rw [ofVariables, find?_invalid_eq_none_iff.mpr hvalid,
        firstRepeated?_empty_eq_none_iff.mpr hnodup, numModels_eq_error hmany]
      rfl

/-- **What a list of variables is refused for.** -/
theorem ofVariables_eq_error_iff {vars : List String} {fault : SemanticsError} :
    ofVariables vars = .error fault ↔ Refusal vars fault := by
  refine ⟨fun h => ?_, Refusal.ofVariables_eq_error⟩
  rw [ofVariables] at h
  split at h
  · rename_i x hfind
    obtain rfl := Except.error.inj h
    obtain ⟨hx, before, after, hvars, hbefore⟩ := List.find?_eq_some_iff_append.mp hfind
    exact .invalid hvars (by simpa using hbefore) (by simpa using hx)
  · rename_i hfind
    have hvalid := find?_invalid_eq_none_iff.mp hfind
    split at h
    · rename_i x hrepeated
      obtain rfl := Except.error.inj h
      obtain ⟨before, after, hvars, hbefore, -, hx⟩ := firstRepeated?_eq_some_iff.mp hrepeated
      exact .repeated hvalid hvars hbefore (by simpa using hx)
    · rename_i hrepeated
      have hnodup := firstRepeated?_empty_eq_none_iff.mp hrepeated
      rcases Nat.lt_or_ge vars.length variableLimit with hfew | hmany
      · rw [numModels_eq_ok hfew] at h
        cases h
      · rw [numModels_eq_error hmany] at h
        obtain rfl := Except.error.inj h
        exact .tooMany hvalid hnodup hmany

end Enumeration

namespace NormalForm

variable {form : NormalForm} {vars : List String} {values : List Bool}

/-! ### Tables -/

/-- What is reported of a table that no formula is made for. -/
inductive Refusal (vars : List String) (values : List Bool) : SemanticsError → Prop
  /-- That there are no variables. -/
  | noVariables (hvars : vars = []) : Refusal vars values .emptyVariableList
  /-- Else what is reported of the variables, if their models cannot be enumerated. -/
  | badVariables (hvars : vars ≠ []) {fault : SemanticsError}
      (hfault : Enumeration.ofVariables vars = .error fault) : Refusal vars values fault
  /-- Else the number of models and the number of values, if they differ. -/
  | wrongLength (hvars : vars ≠ []) {models : Enumeration}
      (hmodels : Enumeration.ofVariables vars = .ok models)
      (hlength : values.length ≠ 2 ^ vars.length) :
      Refusal vars values (.wrongTableLength (2 ^ vars.length) values.length)

/-- **What a table is refused for.** -/
theorem tableModels_eq_error_iff {fault : SemanticsError} :
    tableModels vars values = .error fault ↔ Refusal vars values fault := by
  rw [tableModels_eq]
  constructor
  · intro h
    split at h
    · rename_i hvars
      obtain rfl := Except.error.inj h
      exact .noVariables hvars
    · rename_i hvars
      cases hmodels : Enumeration.ofVariables vars with
      | error fault' =>
          rw [hmodels] at h
          obtain rfl := Except.error.inj h
          exact .badVariables hvars hmodels
      | ok models =>
          simp only [hmodels, Except.bind] at h
          split at h
          · cases h
          · rename_i hlength
            obtain rfl := Except.error.inj h
            exact .wrongLength hvars hmodels hlength
  · intro h
    cases h with
    | noVariables hvars => rw [if_pos hvars]
    | badVariables hvars hfault =>
        rw [if_neg hvars, hfault]
        rfl
    | wrongLength hvars hmodels hlength =>
        rw [if_neg hvars, hmodels]
        exact if_neg hlength

/-- A table that has rows has a formula. -/
theorem exists_synthesize_of_tableModels (form : NormalForm) {table : List (Model × Bool)}
    (h : tableModels vars values = .ok table) : ∃ f, form.synthesize vars values = .ok f := by
  obtain ⟨hvars, -, hrows⟩ := of_tableModels h
  obtain ⟨f, hf, -⟩ := form.exists_synthesize hvars h hrows
  exact ⟨f, hf⟩

/-- **Synthesis refuses what the table is refused for**, and nothing else. -/
theorem synthesize_eq_error_iff {fault : SemanticsError} :
    form.synthesize vars values = .error fault ↔ Refusal vars values fault := by
  rw [← tableModels_eq_error_iff]
  cases htable : tableModels vars values with
  | error fault' =>
      have hrefused : form.synthesize vars values = .error fault' := by
        unfold synthesize
        rw [htable]
        rfl
      rw [hrefused, Except.error.injEq, Except.error.injEq]
  | ok table =>
      obtain ⟨f, hf⟩ := form.exists_synthesize_of_tableModels htable
      simp [hf]

/-- Synthesis accepts the tables that have rows. -/
theorem exists_synthesize_iff :
    (∃ f, form.synthesize vars values = .ok f) ↔
      vars ≠ [] ∧ (∃ models, Enumeration.ofVariables vars = .ok models) ∧
        values.length = 2 ^ vars.length := by
  constructor
  · rintro ⟨f, hf⟩
    cases htable : tableModels vars values with
    | error fault =>
        rw [tableModels_eq_error_iff, ← @synthesize_eq_error_iff form, hf] at htable
        cases htable
    | ok table =>
        obtain ⟨hvars, hmodels, hlength, -⟩ := tableModels_eq_ok_iff.mp htable
        exact ⟨hvars, ⟨_, hmodels⟩, hlength⟩
  · rintro ⟨hvars, ⟨models, hmodels⟩, hlength⟩
    obtain ⟨-, -, -, rfl⟩ := Enumeration.ofVariables_eq_ok_iff.mp hmodels
    exact form.exists_synthesize_of_tableModels (tableModels_eq_ok hvars hmodels hlength)

/-! ### Checked synthesis -/

/-- The formula for a table, every variable of which is built by the checked builder. -/
def checkedSynthesize (form : NormalForm) (vars : List String) (values : List Bool) :
    Except SemanticsError Formula := do
  let table ← tableModels vars values
  let selected := table.filter fun (_, value) => value == form.selected
  match ← selected.mapM fun (m, _) => form.checkedClause m with
  | clause :: rest => return chain form.outer clause rest
  | [] =>
    match vars with
    | [] => throw .emptyVariableList
    | name :: _ => do
      let x ← form.checkedLiteral (name, form.selected)
      return .binary form.inner x (.not x)

/-- Of what is done to the members of a list only what is done to these counts. -/
theorem mapM_congr_of_mem {ε α β : Type} {act act' : α → Except ε β} {xs : List α}
    (h : ∀ x ∈ xs, act x = act' x) : xs.mapM act = xs.mapM act' := by
  induction xs with
  | nil => rfl
  | cons x xs ih =>
      obtain ⟨hx, hxs⟩ := List.forall_mem_cons.mp h
      rw [List.mapM_cons, List.mapM_cons, hx, ih hxs]

/-- **The checked builder refuses no variable of a table**, so that the formula is the same. -/
theorem checkedSynthesize_eq (form : NormalForm) (vars : List String) (values : List Bool) :
    form.checkedSynthesize vars values = form.synthesize vars values := by
  unfold checkedSynthesize synthesize
  cases htable : tableModels vars values with
  | error fault => rfl
  | ok table =>
      obtain ⟨hvars, hvalid, hrows⟩ := of_tableModels htable
      have hclauses : (table.filter fun row => row.2 == form.selected).mapM
          (fun row => form.checkedClause row.1) = form.clauses table := by
        refine mapM_congr_of_mem fun row hrow => form.checkedClause_eq ?_
        rw [hrows row (List.mem_of_mem_filter hrow)]
        exact hvalid
      obtain ⟨name, others, rfl⟩ := List.exists_cons_of_ne_nil hvars
      have hfirst : form.checkedLiteral (name, form.selected) = .ok (.var name) := by
        rw [form.checkedLiteral_eq (hvalid name List.mem_cons_self), entryLiteral, beq_self_eq_true]
        rfl
      simp only [bind, Except.bind, hclauses]
      cases form.clauses table with
      | error fault => rfl
      | ok clauses =>
          cases clauses with
          | nil => simp only [hfirst]
          | cons clause rest => rfl

/-- **Only valid input is accepted, and faults are reported in a fixed order.** The models over a
list of variables can be enumerated iff all names are valid, no two of them are equal, and there are
fewer than 64; and what is reported else is the first invalid name, or if all are valid the name at
the earliest place at which an earlier one is repeated, or if all are distinct their number. There
is a formula in either normal form for a table iff there are variables, their models can be
enumerated, and there are as many values as models; and what is reported else is that there are no
variables, or what is reported of these, or the numbers of models and of values. Beyond that no
variable is ever refused. -/
theorem refuses_in_order (vars : List String) (values : List Bool) :
    ((∃ models, Enumeration.ofVariables vars = .ok models) ↔
        (∀ x ∈ vars, isVariable x = true) ∧ vars.Nodup ∧ vars.length < 64) ∧
      (∀ fault, Enumeration.ofVariables vars = .error fault ↔ Enumeration.Refusal vars fault) ∧
      ∀ form : NormalForm,
        ((∃ f, form.synthesize vars values = .ok f) ↔
          vars ≠ [] ∧ (∃ models, Enumeration.ofVariables vars = .ok models) ∧
            values.length = 2 ^ vars.length) ∧
        (∀ fault, form.synthesize vars values = .error fault ↔ Refusal vars values fault) ∧
        form.checkedSynthesize vars values = form.synthesize vars values := by
  refine ⟨?_, fun fault => Enumeration.ofVariables_eq_error_iff, fun form => ?_⟩
  · simp only [Enumeration.ofVariables_eq_ok_iff, exists_and_left, exists_eq', and_true]
    exact Iff.rfl
  · exact ⟨exists_synthesize_iff, fun fault => synthesize_eq_error_iff,
      form.checkedSynthesize_eq vars values⟩

/-- A name is repeated, a later one is invalid, and the table is too short: the invalid name is
reported. -/
example : disjunctive.synthesize ["p", "p", "a1"] [true] = .error (.invalidVariable "a1") := rfl

end NormalForm

end Propositional

import Mathlib.Data.List.Induction
import Mathlib.Data.List.Nodup
import Mathlib.Data.List.Perm.Subperm
import Propositional.Model.Basic

/-!
# The History of a Model

A model is made from pairs or from the entries of a map, and from then on it is given one
value after the other. Each of these calls may be refused, and a model that is made anew
takes the place of the current one. What remains of such a history is its ledger
(`ModelCall.ledger`): the assignments in force, from the first to the last. A refused call
leaves the ledger as it was, an insertion is added at its end, and a new model begins a
new one.

The current model reflects the ledger (`OrderedMap.Reflects`). Its variables are those of
the ledger, in the order of their first assignments, and the value of each is that of the
last one. One call keeps this (`Model.step_of_accepted`, `Model.step_of_refused`), hence so
does every history (`Model.reflects_after`).

## Main results

* `OrderedMap.reflects_ofList`: a map reflects the insertions that made it.
* `Model.ofPairs_eq_error_iff`: which pairs are refused, and on account of which of them.
* `Model.agrees_iff_get?`, `Model.agrees_iff_perm`: when two models are equal.
* `Model.history_reflected`: what a history makes of a model.
-/

namespace Propositional

namespace OrderedMap

variable {κ υ : Type} [DecidableEq κ]

/-- The map is what the pairs, assigned one after the other, make: its keys stand in the
order of their first assignments, each once and with the value of its last one. -/
structure Reflects (m : OrderedMap κ υ) (pairs : List (κ × υ)) : Prop where
  nodup : m.keys.Nodup
  keys_eq : m.keys = (pairs.map Prod.fst).eraseDups
  get?_eq : ∀ key, m.get? key = pairs.reverse.lookup key

/-- A map without entries reflects no assignment. -/
theorem reflects_empty : (empty : OrderedMap κ υ).Reflects [] :=
  ⟨List.nodup_nil, List.eraseDups_nil.symm, fun _ => rfl⟩

/-- An insertion is one more assignment. -/
theorem Reflects.insert {m : OrderedMap κ υ} {pairs : List (κ × υ)} (h : m.Reflects pairs)
    (key : κ) (value : υ) : (m.insert key value).Reflects (pairs ++ [(key, value)]) where
  nodup := nodup_keys_insert h.nodup key value
  keys_eq := by
    have hmem : key ∈ m.keys ↔ key ∈ pairs.map Prod.fst := by rw [h.keys_eq, List.mem_eraseDups]
    rw [keys_insert, List.map_append, List.eraseDups_append, ← h.keys_eq]
    by_cases hkey : key ∈ m.keys
    · simp [hkey, List.removeAll, hmem.mp hkey]
    · simp [hkey, List.removeAll, mt hmem.mpr hkey, List.eraseDups_cons]
  get?_eq k := by
    rw [get?_insert, h.get?_eq, List.reverse_append]
    by_cases hkey : key = k
    · simp [hkey]
    · simp [hkey, List.lookup_cons, beq_false_of_ne (Ne.symm hkey)]

/-- **A map reflects the insertions that made it.** -/
theorem reflects_ofList (pairs : List (κ × υ)) : (ofList pairs).Reflects pairs := by
  induction pairs using List.reverseRecOn with
  | nil => exact reflects_empty
  | append_singleton pairs p ih =>
      rw [ofList, List.foldl_append]
      exact ih.insert p.1 p.2

/-- A key that is new gets the last place. -/
theorem place_of_notMem {key : κ} (value : υ) {entries : List (κ × υ)}
    (h : key ∉ entries.map Prod.fst) : place key value entries = entries ++ [(key, value)] := by
  induction entries with
  | nil => rfl
  | cons e rest ih =>
      obtain ⟨hne, hrest⟩ := List.ne_and_not_mem_of_not_mem_cons h
      rw [place, if_neg (Ne.symm hne), ih hrest, List.cons_append]

/-- Pairs with distinct keys are the entries of the map that they make. -/
theorem ofList_of_nodup {pairs : List (κ × υ)} (h : (pairs.map Prod.fst).Nodup) :
    ofList pairs = ⟨pairs⟩ := by
  induction pairs using List.reverseRecOn with
  | nil => rfl
  | append_singleton pairs p ih =>
      rw [List.map_append, List.nodup_append] at h
      have hnew : p.1 ∉ pairs.map Prod.fst := fun hmem => h.2.2 _ hmem _ (by simp) rfl
      have hfirst : pairs.foldl (fun m p => m.insert p.1 p.2) empty = ⟨pairs⟩ := ih h.1
      rw [ofList, List.foldl_append, hfirst]
      exact congrArg mk (place_of_notMem p.2 hnew)

end OrderedMap

namespace Model

/-! ### Pairs that name a variable twice -/

/-- What is wrong with pairs is wrong with them whatever comes after them, and if nothing is
wrong with them they count as seen. -/
theorem firstFault?_append {seen : OrderedSet String} {before : List (String × Bool)}
    (h : firstFault? seen before = none) (after : List (String × Bool)) :
    firstFault? seen (before ++ after) =
      firstFault? (before.foldl (fun seen p => seen.insert p.1) seen) after := by
  induction before generalizing seen with
  | nil => rfl
  | cons p before ih =>
      obtain ⟨name, value⟩ := p
      rw [firstFault?] at h
      split at h
      · cases h
      · rename_i hseen
        split at h
        · rename_i hvalid
          rw [List.cons_append, firstFault?, if_neg hseen, if_pos hvalid, ih h]
          rfl
        · cases h

/-- The names that count as seen are those that did before and those of the pairs. -/
theorem mem_foldl_insert {seen : OrderedSet String} {pairs : List (String × Bool)} {x : String} :
    x ∈ pairs.foldl (fun seen p => seen.insert p.1) seen ↔
      x ∈ seen ∨ x ∈ pairs.map Prod.fst := by
  induction pairs generalizing seen with
  | nil => simp
  | cons p pairs ih =>
      rw [List.foldl_cons, ih, Std.TreeSet.mem_insert, Std.LawfulEqCmp.compare_eq_iff_eq,
        List.map_cons, List.mem_cons, eq_comm (a := p.1)]
      tauto

/-- Nothing is wrong with pairs that name variables, each of them once and none of them
seen. -/
theorem firstFault?_eq_none_iff {seen : OrderedSet String} {pairs : List (String × Bool)} :
    firstFault? seen pairs = none ↔
      (∀ p ∈ pairs, isVariable p.1 = true) ∧ (pairs.map Prod.fst).Nodup ∧
        ∀ p ∈ pairs, p.1 ∉ seen := by
  induction pairs generalizing seen with
  | nil => simp [firstFault?]
  | cons p pairs ih =>
      obtain ⟨name, value⟩ := p
      have hnew : (∀ p ∈ pairs, p.1 ∉ seen.insert name) ↔
          name ∉ pairs.map Prod.fst ∧ ∀ p ∈ pairs, p.1 ∉ seen := by
        simp only [Std.TreeSet.mem_insert, Std.LawfulEqCmp.compare_eq_iff_eq, not_or, forall_and,
          List.mem_map, not_exists, not_and, eq_comm (a := name)]
      simp only [firstFault?, List.forall_mem_cons, List.map_cons, List.nodup_cons]
      by_cases hseen : name ∈ seen
      · simp [hseen]
      · by_cases hvalid : isVariable name = true
        · rw [if_neg hseen, if_pos hvalid, ih, hnew]
          tauto
        · simp [hseen, hvalid]

/-- The pairs make a model if they name variables, each of them once. -/
theorem ofPairs_eq_ok {pairs : List (String × Bool)} (hvalid : ∀ p ∈ pairs, isVariable p.1 = true)
    (hnodup : (pairs.map Prod.fst).Nodup) : ofPairs pairs = .ok ⟨.ofList pairs⟩ := by
  have hnone : firstFault? ∅ pairs = none :=
    firstFault?_eq_none_iff.mpr ⟨hvalid, hnodup, fun _ _ => Std.TreeSet.not_mem_emptyc⟩
  rw [ofPairs, hnone, OrderedMap.ofList_of_nodup hnodup]

/-- Nothing is wrong with the pairs before the one that a fault is found at. -/
theorem exists_of_firstFault? {seen : OrderedSet String} {pairs : List (String × Bool)}
    {e : SemanticsError} (h : firstFault? seen pairs = some e) :
    ∃ before name value after, pairs = before ++ (name, value) :: after ∧
      firstFault? seen before = none ∧
      ((isVariable name = false ∧ e = .invalidVariable name) ∨
        ((name ∈ seen ∨ name ∈ before.map Prod.fst) ∧ e = .duplicateVariable name)) := by
  induction pairs generalizing seen with
  | nil => cases h
  | cons p pairs ih =>
      obtain ⟨name, value⟩ := p
      rw [firstFault?] at h
      by_cases hseen : name ∈ seen
      · rw [if_pos hseen] at h
        exact ⟨[], name, value, pairs, rfl, rfl, .inr ⟨.inl hseen, (Option.some.inj h).symm⟩⟩
      · rw [if_neg hseen] at h
        by_cases hvalid : isVariable name = true
        · rw [if_pos hvalid] at h
          obtain ⟨before, name', value', after, rfl, hbefore, hfault⟩ := ih h
          refine ⟨(name, value) :: before, name', value', after, rfl, ?_, ?_⟩
          · rw [firstFault?, if_neg hseen, if_pos hvalid, hbefore]
          · rw [List.map_cons, List.mem_cons]
            rw [Std.TreeSet.mem_insert, Std.LawfulEqCmp.compare_eq_iff_eq,
              eq_comm (a := name)] at hfault
            tauto
        · rw [if_neg hvalid] at h
          exact ⟨[], name, value, pairs, rfl, rfl,
            .inl ⟨Bool.eq_false_iff.mpr hvalid, (Option.some.inj h).symm⟩⟩

/-- **The first pair that is at fault is reported.** Pairs are refused iff one of them is no
variable, or names one that is named before it, while nothing is wrong with the pairs before
it; and that is what they are refused for. -/
theorem ofPairs_eq_error_iff {pairs : List (String × Bool)} {e : SemanticsError} :
    ofPairs pairs = .error e ↔
      ∃ before name value after, pairs = before ++ (name, value) :: after ∧
        (∀ p ∈ before, isVariable p.1 = true) ∧ (before.map Prod.fst).Nodup ∧
        ((isVariable name = false ∧ e = .invalidVariable name) ∨
          (name ∈ before.map Prod.fst ∧ e = .duplicateVariable name)) := by
  have hfault : ofPairs pairs = .error e ↔ firstFault? ∅ pairs = some e := by
    rw [ofPairs]
    cases firstFault? ∅ pairs <;> simp
  have hempty : ∀ x, x ∉ (∅ : OrderedSet String) := fun _ => Std.TreeSet.not_mem_emptyc
  rw [hfault]
  constructor
  · intro h
    obtain ⟨before, name, value, after, rfl, hbefore, hname⟩ := exists_of_firstFault? h
    obtain ⟨hvalid, hnodup, -⟩ := firstFault?_eq_none_iff.mp hbefore
    simp only [hempty, false_or] at hname
    exact ⟨before, name, value, after, rfl, hvalid, hnodup, hname⟩
  · rintro ⟨before, name, value, after, rfl, hvalid, hnodup, hname⟩
    have hbefore : firstFault? ∅ before = none :=
      firstFault?_eq_none_iff.mpr ⟨hvalid, hnodup, fun _ _ => hempty _⟩
    rw [firstFault?_append hbefore, firstFault?]
    simp only [mem_foldl_insert, hempty, false_or]
    rcases hname with ⟨hname, rfl⟩ | ⟨hmem, rfl⟩
    · -- A name that is no variable is not among those of the pairs before it.
      have hnew : name ∉ before.map Prod.fst := fun hmem => by
        obtain ⟨p, hp, rfl⟩ := List.mem_map.mp hmem
        rw [hvalid p hp] at hname
        cases hname
      rw [if_neg hnew, hname]
      rfl
    · rw [if_pos hmem]

/-- Pairs are refused as soon as one of them is no variable or names one that is named before
it. -/
theorem exists_ofPairs_eq_error_iff {pairs : List (String × Bool)} :
    (∃ e, ofPairs pairs = .error e) ↔
      ∃ before name value after, pairs = before ++ (name, value) :: after ∧
        (isVariable name = false ∨ name ∈ before.map Prod.fst) := by
  constructor
  · rintro ⟨e, he⟩
    obtain ⟨before, name, value, after, hpairs, -, -, hname⟩ := ofPairs_eq_error_iff.mp he
    exact ⟨before, name, value, after, hpairs, hname.imp And.left And.left⟩
  · rintro ⟨before, name, value, after, rfl, hname⟩
    cases hfault : firstFault? ∅ (before ++ (name, value) :: after) with
    | some e => exact ⟨e, by rw [ofPairs, hfault]⟩
    | none =>
        obtain ⟨hvalid, hnodup, -⟩ := firstFault?_eq_none_iff.mp hfault
        rcases hname with hname | hmem
        · rw [hvalid (name, value) (by simp)] at hname
          cases hname
        · rw [List.map_append, List.nodup_append] at hnodup
          exact absurd rfl (hnodup.2.2 name hmem name (by simp))

/-! ### Equal models -/

variable {m m' : Model}

/-- Models that name each variable once are equal iff they have the same entries, in any
order. -/
theorem agrees_iff_perm (h : m.vars.Nodup) (h' : m'.vars.Nodup) :
    (m == m') = true ↔ m.entries.Perm m'.entries := by
  have hentries : m.entries.Nodup := List.Nodup.of_map Prod.fst h
  have hfound : ∀ e : String × Bool, m'.get? e.1 = some e.2 ↔ e ∈ m'.entries := fun e =>
    OrderedMap.lookup_eq_some_iff h'
  change agrees m m' = true ↔ _
  simp only [agrees, Bool.and_eq_true, beq_iff_eq, List.all_eq_true, hfound]
  constructor
  · rintro ⟨hsize, hsubset⟩
    exact (List.subperm_of_subset hentries hsubset).perm_of_length_le (Nat.le_of_eq hsize.symm)
  · intro hperm
    exact ⟨hperm.length_eq, fun e he => hperm.mem_iff.mp he⟩

/-- **Models that name each variable once are equal iff they give the same values to the same
variables.** -/
theorem agrees_iff_get? (h : m.vars.Nodup) (h' : m'.vars.Nodup) :
    (m == m') = true ↔ ∀ x, m.get? x = m'.get? x := by
  have hentries : m.entries.Nodup := List.Nodup.of_map Prod.fst h
  have hentries' : m'.entries.Nodup := List.Nodup.of_map Prod.fst h'
  rw [agrees_iff_perm h h', List.perm_ext_iff_of_nodup hentries hentries']
  have hfound : ∀ e : String × Bool, e ∈ m.entries ↔ m.get? e.1 = some e.2 := fun e =>
    (OrderedMap.lookup_eq_some_iff h).symm
  have hfound' : ∀ e : String × Bool, e ∈ m'.entries ↔ m'.get? e.1 = some e.2 := fun e =>
    (OrderedMap.lookup_eq_some_iff h').symm
  simp only [hfound, hfound']
  constructor
  · exact fun hsame x => Option.ext fun value => hsame (x, value)
  · exact fun hsame e => by rw [hsame]

end Model

/-! ### Calls and their ledger -/

/-- A call that makes the current model anew or changes it. -/
inductive ModelCall
  /-- Take the model with the pairs. -/
  | ofPairs (pairs : List (String × Bool))
  /-- Take the model with the entries of the map that the pairs, inserted one after the other,
  make. -/
  | ofMap (pairs : List (String × Bool))
  /-- Give a variable a value. -/
  | insert (name : String) (value : Bool)

namespace ModelCall

/-- The call names variables only, and each of them once if it is to take pairs. -/
def Accepted : ModelCall → Prop
  | ofPairs pairs => (∀ p ∈ pairs, isVariable p.1 = true) ∧ (pairs.map Prod.fst).Nodup
  | ofMap pairs => ∀ p ∈ pairs, isVariable p.1 = true
  | insert name _ => isVariable name = true

instance : DecidablePred Accepted
  | ofPairs pairs =>
      inferInstanceAs
        (Decidable ((∀ p ∈ pairs, isVariable p.1 = true) ∧ (pairs.map Prod.fst).Nodup))
  | ofMap pairs => inferInstanceAs (Decidable (∀ p ∈ pairs, isVariable p.1 = true))
  | insert name _ => inferInstanceAs (Decidable (isVariable name = true))

/-- The assignments in force after an accepted call, where those of `ledger` are in force
before it. -/
def record (ledger : List (String × Bool)) : ModelCall → List (String × Bool)
  | ofPairs pairs | ofMap pairs => pairs
  | insert name value => ledger ++ [(name, value)]

/-- What an accepted call returns, where the assignments of `ledger` are in force before it: an
insertion the value that was last assigned to the variable, if there is one. -/
def returned (ledger : List (String × Bool)) : ModelCall → Option Bool
  | ofPairs _ | ofMap _ => none
  | insert name _ => ledger.reverse.lookup name

/-- The assignments in force after the calls, from the first to the last. -/
def ledger (calls : List ModelCall) : List (String × Bool) :=
  calls.foldl (fun ledger call => if call.Accepted then call.record ledger else ledger) []

/-- One more call counts if it is accepted. -/
theorem ledger_append_singleton (calls : List ModelCall) (call : ModelCall) :
    ledger (calls ++ [call]) =
      if call.Accepted then call.record (ledger calls) else ledger calls := by
  rw [ledger, List.foldl_append]
  rfl

/-- Only variables are assigned values. -/
theorem isVariable_of_mem_ledger (calls : List ModelCall) :
    ∀ p ∈ ledger calls, isVariable p.1 = true := by
  induction calls using List.reverseRecOn with
  | nil => exact fun p hp => absurd hp List.not_mem_nil
  | append_singleton calls call ih =>
      rw [ledger_append_singleton]
      split
      · rename_i hcall
        cases call with
        | ofPairs pairs => exact hcall.1
        | ofMap pairs => exact hcall
        | insert name value =>
            refine List.forall_mem_append.mpr ⟨ih, fun p hp => ?_⟩
            obtain rfl := List.mem_singleton.mp hp
            exact hcall
      · exact ih

end ModelCall

namespace Model

/-- What the call returns and the model that it makes, unless it is refused. -/
def perform (m : Model) : ModelCall → Except SemanticsError (Option Bool × Model)
  | .ofPairs pairs => (ofPairs pairs).map (none, ·)
  | .ofMap pairs => (ofMap (.ofList pairs)).map (none, ·)
  | .insert name value => m.insert name value

/-- What the call returns, and the current model after it. -/
def step (m : Model) (call : ModelCall) : Except SemanticsError (Option Bool) × Model :=
  match m.perform call with
  | .ok (old, m') => (.ok old, m')
  | .error e => (.error e, m)

/-- The current model after the calls, which begin with the empty one. -/
def after (calls : List ModelCall) : Model :=
  calls.foldl (fun m call => (m.step call).2) empty

/-! ### What one call does -/

variable {m : Model} {ledger : List (String × Bool)} {call : ModelCall}

/-- **An accepted call is one more assignment, or the first ones of a new model.** An insertion
returns the value that was last assigned. -/
theorem step_of_accepted (hm : m.values.Reflects ledger) (h : call.Accepted) :
    ∃ m', m.step call = (.ok (call.returned ledger), m') ∧
      m'.values.Reflects (call.record ledger) := by
  cases call with
  | ofPairs pairs =>
      refine ⟨⟨.ofList pairs⟩, ?_, OrderedMap.reflects_ofList pairs⟩
      rw [step, perform, ofPairs_eq_ok h.1 h.2]
      rfl
  | ofMap pairs =>
      have hkeys : ∀ x ∈ (OrderedMap.ofList pairs).keys, isVariable x = true := by
        intro x hx
        rw [(OrderedMap.reflects_ofList pairs).keys_eq, List.mem_eraseDups] at hx
        obtain ⟨p, hp, rfl⟩ := List.mem_map.mp hx
        exact h p hp
      have hfind : (OrderedMap.ofList pairs).keys.find? (fun name => !isVariable name) = none :=
        List.find?_eq_none.mpr fun x hx => by simp [hkeys x hx]
      refine ⟨⟨.ofList pairs⟩, ?_, OrderedMap.reflects_ofList pairs⟩
      rw [step, perform, ofMap, hfind]
      rfl
  | insert name value =>
      refine ⟨⟨m.values.insert name value⟩, ?_, hm.insert name value⟩
      have hname : isVariable name = true := h
      rw [step, perform, Model.insert, if_pos hname, ModelCall.returned, ← hm.get?_eq]
      rfl

/-- **Any other call is refused**, and leaves the model as it was. -/
theorem step_of_refused (m : Model) (h : ¬ call.Accepted) : ∃ e, m.step call = (.error e, m) := by
  have hrefused : ∃ e, m.perform call = .error e := by
    cases call with
    | ofPairs pairs =>
        cases hfault : firstFault? ∅ pairs with
        | some e => exact ⟨e, by rw [perform, ofPairs, hfault]; rfl⟩
        | none =>
            obtain ⟨hvalid, hnodup, -⟩ := firstFault?_eq_none_iff.mp hfault
            exact absurd ⟨hvalid, hnodup⟩ h
    | ofMap pairs =>
        cases hfind : (OrderedMap.ofList pairs).keys.find? fun name => !isVariable name with
        | some x => exact ⟨.invalidVariable x, by rw [perform, ofMap, hfind]; rfl⟩
        | none =>
            refine absurd (fun p hp => ?_) h
            have hmem : p.1 ∈ (OrderedMap.ofList pairs).keys := by
              rw [(OrderedMap.reflects_ofList pairs).keys_eq, List.mem_eraseDups]
              exact List.mem_map_of_mem hp
            simpa using List.find?_eq_none.mp hfind p.1 hmem
    | insert name value => exact ⟨.invalidVariable name, if_neg h⟩
  obtain ⟨e, he⟩ := hrefused
  exact ⟨e, by rw [step, he]⟩

/-! ### What a history does -/

/-- One more call leads on from the model after the calls. -/
theorem after_append_singleton (calls : List ModelCall) (call : ModelCall) :
    after (calls ++ [call]) = ((after calls).step call).2 := by
  rw [after, List.foldl_append]
  rfl

/-- **The current model reflects the ledger**, whatever the calls and however many of them were
refused. -/
theorem reflects_after (calls : List ModelCall) :
    (after calls).values.Reflects (ModelCall.ledger calls) := by
  induction calls using List.reverseRecOn with
  | nil => exact OrderedMap.reflects_empty
  | append_singleton calls call ih =>
      rw [after_append_singleton, ModelCall.ledger_append_singleton]
      by_cases hcall : call.Accepted
      · obtain ⟨m', hstep, hm'⟩ := step_of_accepted ih hcall
        rw [hstep, if_pos hcall]
        exact hm'
      · obtain ⟨e, hstep⟩ := step_of_refused (after calls) hcall
        rw [hstep, if_neg hcall]
        exact ih

/-- The current model is well-formed. -/
theorem wellFormed_after (calls : List ModelCall) : (after calls).WellFormed := by
  have hreflects := reflects_after calls
  refine ⟨hreflects.nodup, fun x hx => ?_⟩
  rw [vars, hreflects.keys_eq, List.mem_eraseDups] at hx
  obtain ⟨p, hp, rfl⟩ := List.mem_map.mp hx
  exact ModelCall.isVariable_of_mem_ledger calls p hp

/-- **A model keeps its invariant through every history.** After any calls, successful or
refused, its variables are distinct valid names in the order in which those of the ledger were
first assigned, and each has the value that it was last assigned. The next call returns the
value last assigned to its variable if it is an accepted insertion, and leaves the model as it
was if it is refused. Pairs are refused iff one of them is no variable or names one that is
named before it, on account of the first of these. The current models of two histories are
equal iff they give the same values to the same variables, so iff they have the same entries
in any order. -/
theorem history_reflected (calls : List ModelCall) :
    (after calls).WellFormed ∧
      (after calls).vars = ((ModelCall.ledger calls).map Prod.fst).eraseDups ∧
      (∀ x, (after calls).get? x = (ModelCall.ledger calls).reverse.lookup x) ∧
      (∀ call : ModelCall, call.Accepted →
        ((after calls).step call).1 = .ok (call.returned (ModelCall.ledger calls))) ∧
      (∀ call : ModelCall, ¬ call.Accepted →
        ∃ e, (after calls).step call = (.error e, after calls)) ∧
      (∀ pairs : List (String × Bool), (∃ e, ofPairs pairs = .error e) ↔
        ∃ before name value after, pairs = before ++ (name, value) :: after ∧
          (isVariable name = false ∨ name ∈ before.map Prod.fst)) ∧
      (∀ (pairs : List (String × Bool)) (e : SemanticsError), ofPairs pairs = .error e ↔
        ∃ before name value after, pairs = before ++ (name, value) :: after ∧
          (∀ p ∈ before, isVariable p.1 = true) ∧ (before.map Prod.fst).Nodup ∧
          ((isVariable name = false ∧ e = .invalidVariable name) ∨
            (name ∈ before.map Prod.fst ∧ e = .duplicateVariable name))) ∧
      ∀ calls' : List ModelCall,
        ((after calls == after calls') = true ↔
          ∀ x, (after calls).get? x = (after calls').get? x) ∧
        ((after calls == after calls') = true ↔
          (after calls).entries.Perm (after calls').entries) := by
  have hreflects := reflects_after calls
  refine ⟨wellFormed_after calls, hreflects.keys_eq, hreflects.get?_eq, fun call hcall => ?_,
    fun call => step_of_refused (after calls), fun _ => exists_ofPairs_eq_error_iff,
    fun _ _ => ofPairs_eq_error_iff, fun calls' => ⟨?_, ?_⟩⟩
  · obtain ⟨m', hstep, -⟩ := step_of_accepted hreflects hcall
    rw [hstep]
  · exact agrees_iff_get? hreflects.nodup (reflects_after calls').nodup
  · exact agrees_iff_perm hreflects.nodup (reflects_after calls').nodup

end Model

end Propositional

import Mathlib.Algebra.Ring.Nat
import Mathlib.Data.List.Nodup
import Mathlib.Data.Nat.Init
import Propositional.Model.Enumeration
import Propositional.Proofs.Semantics.Evaluation
import Propositional.TruthTable.Basic

/-!
# The Models of an Enumeration

Over distinct variables with valid names, fewer than `variableLimit` of them, the models
can be enumerated (`Enumeration.ofVariables_eq_ok_iff`). The model with the number `i` gives
to the variable at each place the digit of `i` at that place
(`Enumeration.get?_modelOf`), and no two numbers below `2 ^ n` agree in all `n` digits
(`eq_of_bit_eq`), so every number has a model of its own. All digits occur, so that
every assignment of values has one (`Enumeration.exists_modelOf`).

## Main results

* `Enumeration.ofVariables_eq_ok_iff`, `Enumeration.rest_start`: when there are models, and which.
* `Enumeration.agrees_modelOf_iff`: the entries of one model are the values of another one
  only if both have the same number.
* `Formula.truthValuesOver_eq_ok`: the values of a formula in all of these models.
-/

namespace Propositional

/-- A number below `2 ^ width` is determined by its digits. -/
theorem eq_of_bit_eq {width i j : Nat} (hi : i < 2 ^ width) (hj : j < 2 ^ width)
    (h : ∀ k < width, bit width i k = bit width j k) : i = j := by
  refine Nat.eq_of_testBit_eq fun t => ?_
  rcases Nat.lt_or_ge t width with ht | ht
  · have hplace := h (width - 1 - t) (by omega)
    have hback : width - 1 - (width - 1 - t) = t := by omega
    rwa [bit, bit, hback] at hplace
  · have hpow : 2 ^ width ≤ 2 ^ t := Nat.pow_le_pow_right (by decide) ht
    rw [Nat.testBit_lt_two_pow (Nat.lt_of_lt_of_le hi hpow),
      Nat.testBit_lt_two_pow (Nat.lt_of_lt_of_le hj hpow)]

/-- There is a number below `2 ^ width` with any digits. -/
theorem exists_bit_eq (width : Nat) (digit : Nat → Bool) :
    ∃ number < 2 ^ width, ∀ k < width, bit width number k = digit k := by
  refine ⟨Nat.ofBits fun place : Fin width => digit (width - 1 - place),
    Nat.ofBits_lt_two_pow _, fun k hk => ?_⟩
  have hplace : width - 1 - k < width := by omega
  have hback : width - 1 - (width - 1 - k) = k := by omega
  rw [bit, Nat.testBit_ofBits_lt _ _ hplace]
  exact congrArg digit hback

/-- Models over too many variables are not counted. -/
theorem numModels_eq_error {count : Nat} (h : variableLimit ≤ count) :
    numModels count = .error (.tooManyVariables count) :=
  if_pos h

/-- Models over fewer variables are. -/
theorem numModels_eq_ok {count : Nat} (h : count < variableLimit) :
    numModels count = .ok (2 ^ count) :=
  if_neg (Nat.not_le.mpr h)

/-- A name that is new does not count as seen after another one that does not. -/
theorem forall_notMem_insert_iff {seen : OrderedSet String} {x : String} {names : List String} :
    (∀ y ∈ names, y ∉ seen.insert x) ↔ x ∉ names ∧ ∀ y ∈ names, y ∉ seen := by
  simp only [Std.TreeSet.mem_insert, Std.LawfulEqCmp.compare_eq_iff_eq, not_or]
  constructor
  · exact fun h => ⟨fun hx => (h x hx).1 rfl, fun y hy => (h y hy).2⟩
  · rintro ⟨hx, h⟩ y hy
    exact ⟨fun heq => hx (heq ▸ hy), h y hy⟩

/-- Nothing counts as repeated in a list of distinct names, none of which has been seen before. -/
theorem firstRepeated?_eq_none_iff {seen : OrderedSet String} {names : List String} :
    firstRepeated? seen names = none ↔ names.Nodup ∧ ∀ x ∈ names, x ∉ seen := by
  induction names generalizing seen with
  | nil => simp [firstRepeated?]
  | cons x names ih =>
      rw [firstRepeated?, List.nodup_cons, List.forall_mem_cons]
      split
      · rename_i hx
        simp [hx]
      · rename_i hx
        rw [ih, forall_notMem_insert_iff]
        tauto

/-- Nothing is repeated in a list of distinct names. -/
theorem firstRepeated?_empty_eq_none_iff {names : List String} :
    firstRepeated? ∅ names = none ↔ names.Nodup := by
  simp [firstRepeated?_eq_none_iff]

/-- No invalid name is found iff all names are valid. -/
theorem find?_invalid_eq_none_iff {names : List String} :
    names.find? (fun name => !isVariable name) = none ↔ ∀ x ∈ names, isVariable x = true := by
  simp [List.find?_eq_none]

namespace Enumeration

/-- All models over the variables, none of them passed yet. -/
def start (vars : List String) : Enumeration :=
  ⟨vars, 0, 2 ^ vars.length⟩

/-- The model over the variables with the given number. -/
def modelOf (vars : List String) (number : Nat) : Model :=
  ⟨⟨entriesAt vars.length number 0 vars⟩⟩

/-- The entry of each variable is its digit. -/
theorem getElem?_entriesAt (width number i : Nat) (vars : List String) (k : Nat) :
    (entriesAt width number i vars)[k]? =
      vars[k]?.map fun name => (name, bit width number (i + k)) := by
  induction vars generalizing i k with
  | nil => rfl
  | cons name vars ih =>
      cases k with
      | zero => rfl
      | succ k =>
          rw [entriesAt, List.getElem?_cons_succ, List.getElem?_cons_succ, ih,
            Nat.add_right_comm, Nat.add_assoc]

/-- The entries name the variables in order. -/
theorem map_fst_entriesAt (width number i : Nat) (vars : List String) :
    (entriesAt width number i vars).map (·.1) = vars := by
  induction vars generalizing i with
  | nil => rfl
  | cons name vars ih => rw [entriesAt, List.map_cons, ih]

/-- The variables of a model are those it is enumerated over. -/
theorem vars_modelOf (vars : List String) (number : Nat) : (modelOf vars number).vars = vars :=
  map_fst_entriesAt vars.length number 0 vars

/-- The entries of a model are the variables at all places with the digits there. -/
theorem mem_entries_modelOf_iff {vars : List String} {number : Nat} {e : String × Bool} :
    e ∈ (modelOf vars number).entries ↔
      ∃ k, vars[k]? = some e.1 ∧ bit vars.length number k = e.2 := by
  obtain ⟨name, value⟩ := e
  rw [List.mem_iff_getElem?]
  refine exists_congr fun k => ?_
  have hentry : (modelOf vars number).entries[k]? = _ :=
    getElem?_entriesAt vars.length number 0 vars k
  rw [hentry, Nat.zero_add, Option.map_eq_some_iff]
  constructor
  · rintro ⟨name', hname, heq⟩
    obtain ⟨rfl, hvalue⟩ := Prod.mk.inj heq
    exact ⟨hname, hvalue⟩
  · rintro ⟨hname, hvalue⟩
    exact ⟨name, hname, Prod.ext rfl hvalue⟩

/-- The value of the variable at a place is the digit at that place. -/
theorem get?_modelOf {vars : List String} (hnodup : vars.Nodup) (number : Nat) {k : Nat}
    {name : String} (hk : vars[k]? = some name) :
    (modelOf vars number).get? name = some (bit vars.length number k) := by
  have hkeys : (modelOf vars number).vars.Nodup := by rwa [vars_modelOf]
  exact (OrderedMap.lookup_eq_some_iff hkeys).mpr (mem_entries_modelOf_iff.mpr ⟨k, hk, rfl⟩)

/-- So it is for the valuation that the model gives. -/
theorem valuation_modelOf {vars : List String} (hnodup : vars.Nodup) (number : Nat) {k : Nat}
    {name : String} (hk : vars[k]? = some name) :
    (modelOf vars number).valuation name = bit vars.length number k := by
  rw [Model.valuation, get?_modelOf hnodup number hk, Option.getD_some]

/-- **Every assignment of values to the variables is that of some model.** -/
theorem exists_modelOf {vars : List String} (hnodup : vars.Nodup) (v : String → Bool) :
    ∃ number < 2 ^ vars.length, ∀ x ∈ vars, (modelOf vars number).valuation x = v x := by
  obtain ⟨number, hlt, hdigits⟩ := exists_bit_eq vars.length fun k => (vars[k]?.map v).getD false
  refine ⟨number, hlt, fun x hx => ?_⟩
  obtain ⟨k, hk⟩ := List.mem_iff_getElem?.mp hx
  have hlength : k < vars.length := (List.getElem?_eq_some_iff.mp hk).1
  rw [valuation_modelOf hnodup number hk, hdigits k hlength, hk]
  rfl

/-- So the values that formulas over these variables have under an assignment are those
that they have in some model. -/
theorem exists_modelOf_value {vars : List String} (hnodup : vars.Nodup) (v : String → Bool) :
    ∃ number < 2 ^ vars.length, ∀ f : Formula, (∀ x, f.Mentions x → x ∈ vars) →
      f.value (modelOf vars number).valuation = f.value v := by
  obtain ⟨number, hlt, hagree⟩ := exists_modelOf hnodup v
  exact ⟨number, hlt, fun f hf => Formula.value_congr fun x hx => hagree x (hf x hx)⟩

/-- The models over distinct valid names are well-formed. -/
theorem wellFormed_modelOf {vars : List String} (hvalid : ∀ x ∈ vars, isVariable x = true)
    (hnodup : vars.Nodup) (number : Nat) : (modelOf vars number).WellFormed := by
  rw [Model.WellFormed, vars_modelOf]
  exact ⟨hnodup, hvalid⟩

/-- **The models can be enumerated over distinct valid names, fewer than `variableLimit`**, and over
no other list, from the first model on. -/
theorem ofVariables_eq_ok_iff {vars : List String} {e : Enumeration} :
    ofVariables vars = .ok e ↔
      (∀ x ∈ vars, isVariable x = true) ∧ vars.Nodup ∧ vars.length < variableLimit ∧
        start vars = e := by
  rw [← find?_invalid_eq_none_iff, ← firstRepeated?_empty_eq_none_iff, ofVariables]
  cases vars.find? (fun name => !isVariable name) with
  | some name => simp
  | none =>
      cases firstRepeated? ∅ vars with
      | some name => simp
      | none =>
          rcases Nat.lt_or_ge vars.length variableLimit with hfew | hmany
          · simp [numModels_eq_ok hfew, hfew, Except.map, start]
          · simp [numModels_eq_error hmany, Nat.not_lt.mpr hmany, Except.map]

/-- Over distinct valid names, fewer than `variableLimit`, the models can be enumerated. -/
theorem ofVariables_eq_ok {vars : List String} (hvalid : ∀ x ∈ vars, isVariable x = true)
    (hnodup : vars.Nodup) (hlt : vars.length < variableLimit) :
    ofVariables vars = .ok (start vars) :=
  ofVariables_eq_ok_iff.mpr ⟨hvalid, hnodup, hlt, rfl⟩

/-- Only over valid names, fewer than `variableLimit`, the models can be enumerated, and from the
first one on. -/
theorem of_ofVariables {vars : List String} {e : Enumeration} (h : ofVariables vars = .ok e) :
    (∀ x ∈ vars, isVariable x = true) ∧ vars.length < variableLimit ∧ e = start vars := by
  obtain ⟨hvalid, -, hfew, he⟩ := ofVariables_eq_ok_iff.mp h
  exact ⟨hvalid, hfew, he.symm⟩

/-- Every number below the number of models has its model. -/
theorem modelAt?_start {vars : List String} {number : Nat} (h : number < 2 ^ vars.length) :
    (start vars).modelAt? number = some (modelOf vars number) :=
  if_pos h

/-- The models still to come are those with the numbers from the next one up to the last. -/
theorem rest_eq_map (e : Enumeration) :
    e.rest = (List.range' e.next e.remaining).map (modelOf e.vars) := by
  rw [rest, ← List.filterMap_eq_map]
  refine List.filterMap_congr fun number hnumber => if_pos ?_
  rw [List.mem_range'_1, remaining] at hnumber
  omega

/-- There are as many of them as are counted. -/
theorem length_rest (e : Enumeration) : e.rest.length = e.remaining := by
  rw [rest_eq_map, List.length_map, List.length_range']

/-- At the start all models are still to come, in the order of their numbers. -/
theorem rest_start (vars : List String) :
    (start vars).rest = (List.range (2 ^ vars.length)).map (modelOf vars) := by
  rw [rest_eq_map, List.range_eq_range']
  rfl

/-- So these are the models with the numbers below the number of models. -/
theorem mem_rest_start_iff {vars : List String} {m : Model} :
    m ∈ (start vars).rest ↔ ∃ number < 2 ^ vars.length, modelOf vars number = m := by
  simp only [rest_start, List.mem_map, List.mem_range]

/-- A model covers the formulas over its variables. -/
theorem covers_modelOf {vars : List String} (hnodup : vars.Nodup) (number : Nat) {f : Formula}
    (hf : ∀ x, f.Mentions x → x ∈ vars) : (modelOf vars number).covers f = true := by
  rw [Model.covers_iff]
  intro x hx
  obtain ⟨k, hk⟩ := List.mem_iff_getElem?.mp (hf x hx)
  rw [valuation_modelOf hnodup number hk, get?_modelOf hnodup number hk]

/-- **Every number has a model of its own**: one model has the values of another one only
if both have the same number. -/
theorem agrees_modelOf_iff {vars : List String} (hnodup : vars.Nodup) {i j : Nat}
    (hi : i < 2 ^ vars.length) (hj : j < 2 ^ vars.length) :
    (∀ e ∈ (modelOf vars i).entries, (modelOf vars j).valuation e.1 = e.2) ↔ i = j := by
  constructor
  · intro h
    refine eq_of_bit_eq hi hj fun k hk => ?_
    have hname : vars[k]? = some vars[k] := List.getElem?_eq_getElem hk
    have hvalue := h (vars[k], bit vars.length i k) (mem_entries_modelOf_iff.mpr ⟨k, hname, rfl⟩)
    exact hvalue.symm.trans (valuation_modelOf hnodup j hname)
  · rintro rfl e he
    obtain ⟨k, hname, hvalue⟩ := mem_entries_modelOf_iff.mp he
    exact (valuation_modelOf hnodup i hname).trans hvalue

end Enumeration

namespace Formula

/-- If no model of an enumeration misses a variable, the values in all of them are had at
once. -/
theorem truthValuesOver_eq_ok {f : Formula} {vars : List String} {models : Enumeration}
    {values : List Bool} (hmodels : Enumeration.ofVariables vars = .ok models)
    (h : f.truthValues models.rest = values.map .ok) : f.truthValuesOver vars = .ok values := by
  have htraverse : f.truthValuesOver vars = models.traverse f.evaluate := by
    rw [truthValuesOver, hmodels]
    rfl
  have hpure : values.mapM (.ok : Bool → Except SemanticsError Bool) = .ok values := by
    change values.mapM (fun b => pure b) = _
    rw [List.mapM_pure, List.map_id']
    rfl
  calc f.truthValuesOver vars
      = (f.truthValues models.rest).mapM id := by
        rw [htraverse, Enumeration.traverse_eq, truthValues, List.mapM_map]
        rfl
    _ = values.mapM .ok := by
        rw [h, List.mapM_map]
        rfl
    _ = .ok values := hpure

end Formula

end Propositional

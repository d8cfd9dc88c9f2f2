import Mathlib.Data.List.Perm.Subperm
import Propositional.Proofs.Semantics.ModelOrder
import Propositional.Proofs.Semantics.TruthTables

/-!
# Truth Tables over Other Variables

The values of a formula in all models over a list of variables can be had over any list, in any
order, that holds the variables of the formula. Its truth table is the case where the list holds
nothing else, in ascending order. Both lists of values are the same up to a change of numbers: the
model with the number `i` over the longer list gives the variables of the formula the values which
they have in the model over these alone with the number `Enumeration.projection`, whose digits are
picked from those of `i` (`Enumeration.valuation_projection`).

Over a list that misses some variable of the formula there is no value in any of the models, and the
same variable is reported in all of them (`Enumeration.firstMissing?_modelOf`).

## Main definitions

* `Enumeration.projection`: the number of a model, seen through some of its variables.

## Main results

* `Enumeration.bit_projection`: the digits of this number.
* `Formula.truthValues_projected`: the values over a list of variables in terms of the truth table.
-/

namespace Propositional

/-- A variable has no value iff it is none of those of the model. -/
theorem Model.contains_eq_false_iff {m : Model} {x : String} :
    m.contains x = false ↔ x ∉ m.vars := by
  rw [contains, OrderedMap.contains, Option.isSome_eq_false_iff, Option.isNone_iff_eq_none]
  exact OrderedMap.lookup_eq_none_iff

namespace Enumeration

/-- The number whose digits are, for the names in order, those that `number` has at the places of
these names among the variables. -/
def projection (vars names : List String) (number : Nat) : Nat :=
  readBinary (names.map fun name => bit vars.length number (vars.idxOf name))

/-- It is the number of a model over the names. -/
theorem projection_lt (vars names : List String) (number : Nat) :
    projection vars names number < 2 ^ names.length := by
  have hlt := readBinary_lt (names.map fun name => bit vars.length number (vars.idxOf name))
  rwa [List.length_map] at hlt

/-- **The digit of a name is that at its place among the variables.** -/
theorem bit_projection {vars names : List String} {number k : Nat} {name : String}
    (hk : names[k]? = some name) :
    bit names.length (projection vars names number) k =
      bit vars.length number (vars.idxOf name) := by
  have hdigit : (names.map fun name => bit vars.length number (vars.idxOf name))[k]? =
      some (bit vars.length number (vars.idxOf name)) := by
    rw [List.getElem?_map, hk, Option.map_some]
  have hbit := bit_readBinary hdigit
  rwa [List.length_map] at hbit

/-- So a name has the same value in the models with either number. -/
theorem valuation_projection {vars names : List String} (hvars : vars.Nodup)
    (hnames : names.Nodup) (number : Nat) {x : String} (hx : x ∈ names) (hmem : x ∈ vars) :
    (modelOf names (projection vars names number)).valuation x =
      (modelOf vars number).valuation x := by
  obtain ⟨k, hk⟩ := List.mem_iff_getElem?.mp hx
  have hplace : vars[vars.idxOf x]? = some x := List.getElem?_idxOf hmem
  rw [valuation_modelOf hnames _ hk, valuation_modelOf hvars _ hplace, bit_projection hk]

/-- The variable that is missing in a model depends on the list of variables only. -/
theorem firstMissing?_modelOf {vars : List String} {number : Nat} {f : Formula} {v : String} :
    (modelOf vars number).firstMissing? f = some v ↔
      f.Mentions v ∧ v ∉ vars ∧ ∀ w, f.Mentions w → w ∉ vars → w ≠ v → bytes v < bytes w := by
  rw [Model.firstMissing?_eq_some_iff]
  simp only [Model.contains_eq_false_iff, vars_modelOf]

end Enumeration

open Enumeration (modelOf projection)

namespace Formula

/-- The values in all models over a list of variables, in the order of the numbers. -/
theorem truthValues_rest_start (f : Formula) (vars : List String) :
    f.truthValues (Enumeration.start vars).rest =
      (List.range (2 ^ vars.length)).map fun number => f.evaluate (modelOf vars number) := by
  rw [truthValues, Enumeration.rest_start, List.map_map]
  rfl

/-- The value over a list that holds the variables of the formula is the entry of the truth table
with the projected number. -/
theorem exists_getElem?_truthTable {f : Formula} {vars : List String} (hnodup : vars.Nodup)
    (hf : ∀ x, f.Mentions x → x ∈ vars) (config : PoolConfig)
    (hfew : f.vars.length < variableLimit) :
    ∃ table, f.truthTable config = .ok table ∧ ∀ number,
      ∃ b, table[projection vars f.vars number]? = some b ∧
        f.evaluate (modelOf vars number) = .ok b := by
  refine ⟨_, truthTable_eq_ok config hfew, fun number =>
    ⟨f.value (modelOf f.vars (projection vars f.vars number)).valuation, ?_, ?_⟩⟩
  · rw [List.getElem?_map, List.getElem?_range (Enumeration.projection_lt ..), Option.map_some]
  · rw [evaluate_of_covers (Enumeration.covers_modelOf hnodup number hf), Except.ok.injEq]
    refine value_congr fun x hx => Eq.symm ?_
    exact Enumeration.valuation_projection hnodup f.nodup_vars number
      ((mem_vars_iff x f).mpr hx) (hf x hx)

/-- **The values over any list of variables are the truth table seen through a projection.** Let the
list hold fewer than 64 distinct valid names in any order. If all variables of the formula are among
them, it has a value in each of the models over the list, and that in the model with the number `i`
is the entry of the truth table whose number has, for the variables of the formula in ascending
order, the digits of `i` at their places in the list. If some variable of the formula is not among
them, it has no value in any of the models, and what is reported is always the smallest such
variable, in the order of bytes. -/
theorem truthValues_projected {vars : List String} (hvalid : ∀ x ∈ vars, isVariable x = true)
    (hnodup : vars.Nodup) (hfew : vars.length < 64) (f : Formula) (config : PoolConfig) :
    ∃ models, Enumeration.ofVariables vars = .ok models ∧
      ((∀ x, f.Mentions x → x ∈ vars) →
        ∃ table, f.truthTable config = .ok table ∧
          (f.truthValues models.rest).length = 2 ^ vars.length ∧
          ∀ i < 2 ^ vars.length,
            (∀ k x, f.vars[k]? = some x →
              bit f.vars.length (projection vars f.vars i) k = bit vars.length i (vars.idxOf x)) ∧
            ∃ b, table[projection vars f.vars i]? = some b ∧
              (f.truthValues models.rest)[i]? = some (.ok b)) ∧
      ((∃ x, f.Mentions x ∧ x ∉ vars) →
        ∃ v, f.truthValues models.rest =
            List.replicate (2 ^ vars.length) (.error (.missingVariable v)) ∧
          f.Mentions v ∧ v ∉ vars ∧
          ∀ w, f.Mentions w → w ∉ vars → w ≠ v → bytes v < bytes w) := by
  refine ⟨_, Enumeration.ofVariables_eq_ok hvalid hnodup hfew, fun hf => ?_, ?_⟩
  · have hsubset : f.vars ⊆ vars := fun x hx => hf x ((mem_vars_iff x f).mp hx)
    have hlength := (List.subperm_of_subset f.nodup_vars hsubset).length_le
    obtain ⟨table, htable, hvalues⟩ :=
      exists_getElem?_truthTable hnodup hf config (Nat.lt_of_le_of_lt hlength hfew)
    rw [truthValues_rest_start]
    refine ⟨table, htable, by rw [List.length_map, List.length_range], fun i hi => ?_⟩
    obtain ⟨b, hb, hvalue⟩ := hvalues i
    refine ⟨fun k x hk => Enumeration.bit_projection hk, b, hb, ?_⟩
    rw [List.getElem?_map, List.getElem?_range hi, Option.map_some, hvalue]
  · rintro ⟨x, hx, hmissing⟩
    have hnone : (modelOf vars 0).contains x = false :=
      Model.contains_eq_false_iff.mpr (by rwa [Enumeration.vars_modelOf])
    obtain ⟨v, hv⟩ := Model.exists_firstMissing? ⟨x, hx, hnone⟩
    have hleast := Enumeration.firstMissing?_modelOf.mp hv
    refine ⟨v, ?_, hleast⟩
    rw [truthValues_rest_start, List.eq_replicate_iff]
    refine ⟨by rw [List.length_map, List.length_range], List.forall_mem_map.mpr fun i _ => ?_⟩
    exact evaluate_of_firstMissing? (Enumeration.firstMissing?_modelOf.mpr hleast)

/-- Over `x`, `q7`, `p` in this order, the value of `(p->q7)` in the model with the number 5 is the
entry of its truth table with the number 2: `p` is true there and `q7` is false. Over `x` alone the
formula is refused for `p` in both models. -/
theorem truthValues_projected_three_variables :
    (∃ models table, Enumeration.ofVariables ["x", "q7", "p"] = .ok models ∧
      (binary .implies (var "p") (var "q7")).truthTable ⟨4, 0⟩ = .ok table ∧
      table[2]? = some false ∧
      ((binary .implies (var "p") (var "q7")).truthValues models.rest)[5]? = some (.ok false)) ∧
    ∃ models, Enumeration.ofVariables ["x"] = .ok models ∧
      (binary .implies (var "p") (var "q7")).truthValues models.rest =
        [.error (.missingVariable "p"), .error (.missingVariable "p")] := by
  constructor
  · have hvalid : ∀ x ∈ ["x", "q7", "p"], isVariable x = true := by decide
    have hf : ∀ x, (binary .implies (var "p") (var "q7")).Mentions x → x ∈ ["x", "q7", "p"] := by
      rintro x (rfl | rfl) <;> decide
    obtain ⟨models, hmodels, hall, -⟩ := truthValues_projected hvalid (by decide) (by decide)
      (binary .implies (var "p") (var "q7")) ⟨4, 0⟩
    obtain ⟨table, htable, -, hvalues⟩ := hall hf
    obtain ⟨-, b, hb, hvalue⟩ := hvalues 5 (by decide)
    have hnumber :
        projection ["x", "q7", "p"] (binary .implies (var "p") (var "q7")).vars 5 = 2 := by decide
    rw [hnumber] at hb
    obtain rfl := Except.ok.inj (hmodels.symm.trans
      (Enumeration.ofVariables_eq_ok hvalid (by decide) (by decide)))
    have hfalse := hvalue
    rw [truthValues_rest_start, List.getElem?_map, List.getElem?_range (by decide),
      Option.map_some, evaluate_of_covers (Enumeration.covers_modelOf (by decide) 5 hf)] at hfalse
    obtain rfl : false = b := Except.ok.inj (Option.some.inj hfalse)
    exact ⟨_, table, hmodels, htable, hb, hvalue⟩
  · obtain ⟨models, hmodels, -, hmissing⟩ := @truthValues_projected ["x"] (by decide) (by decide)
      (by decide) (binary .implies (var "p") (var "q7")) ⟨4, 0⟩
    obtain ⟨v, hvalues, hv, -, hleast⟩ := hmissing ⟨"p", .inl rfl, by decide⟩
    obtain rfl | rfl := hv
    · exact ⟨models, hmodels, hvalues⟩
    · exact absurd (hleast "p" (.inl rfl) (by decide) (by decide)) (by decide)

end Formula

end Propositional

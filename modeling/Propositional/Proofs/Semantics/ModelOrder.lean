import Mathlib.Logic.Function.Iterate
import Propositional.Proofs.Semantics.Enumeration

/-!
# The Order of the Models

The values that a model gives to its variables, in the order of the variables, are the digits of a
binary number, the first one being the most significant (`Model.number`). For models over the same
number of variables the order of these numbers is the lexicographic order of the values, in which
`F` comes before `T` and earlier variables count first (`Model.precedes_iff_number_lt`).

The number of a model in an enumeration is the number that its values make
(`Enumeration.number_modelOf`). So an enumeration is ascending in both orders, and a model is found
in it at the place that can be read off its values. Every assignment of values is found there, and
only once. To step through an enumeration is to ask for its models one after the other; after the
last one there are no more.

## Main definitions

* `Model.number`, `Model.Precedes`: the binary number that the values make, and the lexicographic
  order.
* `Enumeration.stepped`: the enumeration after a step.
* `Enumeration.ListsModels`: what it is to enumerate all models over some variables in order.

## Main results

* `Enumeration.exists_unique_modelOf`: each assignment has exactly one number.
* `Enumeration.fst_next?_iterate`: what the steps through an enumeration yield.
* `Enumeration.lists_models`: the models over a list of variables are enumerated in order.
-/

namespace Propositional

/-- The number with the given binary digits, the first one being the most significant. -/
def readBinary : List Bool → Nat
  | [] => 0
  | digit :: rest => 2 ^ rest.length * digit.toNat + readBinary rest

/-- With `n` digits all numbers are below `2 ^ n`. -/
theorem readBinary_lt (digits : List Bool) : readBinary digits < 2 ^ digits.length := by
  induction digits with
  | nil => exact Nat.one_pos
  | cons digit rest ih =>
      rw [readBinary, List.length_cons, Nat.pow_succ]
      cases digit with
      | false => rw [Bool.toNat_false]; omega
      | true => rw [Bool.toNat_true]; omega

/-- The digits are found again in the number. -/
theorem bit_readBinary {digits : List Bool} {k : Nat} {digit : Bool}
    (hk : digits[k]? = some digit) : bit digits.length (readBinary digits) k = digit := by
  induction digits generalizing k with
  | nil => cases hk
  | cons first rest ih =>
      rw [bit, readBinary, List.length_cons, Nat.testBit_two_pow_mul_add _ (readBinary_lt rest)]
      cases k with
      | zero =>
          obtain rfl := Option.some.inj hk
          rw [if_neg (by omega)]
          cases first <;> simp
      | succ k =>
          rw [List.getElem?_cons_succ] at hk
          have hrest : k < rest.length := (List.getElem?_eq_some_iff.mp hk).1
          have hplace : rest.length + 1 - 1 - (k + 1) = rest.length - 1 - k := by omega
          rw [if_pos (by omega), hplace]
          exact ih hk

/-- **Of two numbers with equally many digits** that one is smaller which has the smaller digit at
the first place where they differ. -/
theorem readBinary_lt_iff {as bs : List Bool} (h : as.length = bs.length) :
    readBinary as < readBinary bs ↔ List.Lex (fun a b => a = false ∧ b = true) as bs := by
  induction as generalizing bs with
  | nil =>
      obtain rfl := List.eq_nil_of_length_eq_zero h.symm
      simp
  | cons a as ih =>
      cases bs with
      | nil => cases h
      | cons b bs =>
          have hlength : as.length = bs.length := Nat.succ.inj h
          have has := readBinary_lt as
          have hbs := readBinary_lt bs
          rw [List.cons_lex_cons_iff, ← ih hlength, readBinary, readBinary, hlength]
          rw [hlength] at has
          -- the later digits never make up for the first one
          cases a <;> cases b <;> simp <;> omega

namespace Model

/-- The values of the variables, in order. -/
def digits (m : Model) : List Bool :=
  m.entries.map Prod.snd

/-- The binary number that the values make. -/
def number (m : Model) : Nat :=
  readBinary m.digits

/-- The model comes before `m'` in the lexicographic order of the values, where `F` comes before
`T`. -/
def Precedes (m m' : Model) : Prop :=
  List.Lex (fun a b => a = false ∧ b = true) m.digits m'.digits

/-- The lexicographic order is that of the numbers. -/
theorem precedes_iff_number_lt {m m' : Model} (h : m.digits.length = m'.digits.length) :
    m.Precedes m' ↔ m.number < m'.number :=
  (readBinary_lt_iff h).symm

end Model

namespace Enumeration

/-! ### Numbers of models -/

/-- There is an entry for each variable. -/
theorem length_entriesAt (width number i : Nat) (vars : List String) :
    (entriesAt width number i vars).length = vars.length := by
  have hnames := congrArg List.length (map_fst_entriesAt width number i vars)
  rwa [List.length_map] at hnames

/-- So there is a digit for each variable. -/
theorem length_digits_modelOf (vars : List String) (number : Nat) :
    (modelOf vars number).digits.length = vars.length :=
  (List.length_map Prod.snd).trans (length_entriesAt vars.length number 0 vars)

/-- The values of the last variables make the number that is left of `number` if only as many
digits are kept. -/
theorem readBinary_entriesAt {width number i : Nat} {vars : List String}
    (h : i + vars.length = width) :
    readBinary ((entriesAt width number i vars).map Prod.snd) = number % 2 ^ vars.length := by
  induction vars generalizing i with
  | nil => exact (Nat.mod_one number).symm
  | cons name vars ih =>
      rw [List.length_cons] at h ⊢
      have hplace : width - 1 - i = vars.length := by omega
      rw [entriesAt, List.map_cons, readBinary, List.length_map, length_entriesAt, ih (by omega),
        bit, hplace, Nat.toNat_testBit, Nat.mod_pow_succ, Nat.add_comm]

/-- **The values of a model make its number.** -/
theorem number_modelOf {vars : List String} {number : Nat} (h : number < 2 ^ vars.length) :
    (modelOf vars number).number = number :=
  (readBinary_entriesAt (Nat.zero_add _)).trans (Nat.mod_eq_of_lt h)

/-- **The models with the smaller numbers come first.** -/
theorem precedes_modelOf_iff {vars : List String} {i j : Nat} (hi : i < 2 ^ vars.length)
    (hj : j < 2 ^ vars.length) : (modelOf vars i).Precedes (modelOf vars j) ↔ i < j := by
  have hlength : (modelOf vars i).digits.length = (modelOf vars j).digits.length := by
    rw [length_digits_modelOf, length_digits_modelOf]
  rw [Model.precedes_iff_number_lt hlength, number_modelOf hi, number_modelOf hj]

/-- A model assigns the values `v` if these are the digits of its number. -/
theorem forall_get?_modelOf_iff {vars : List String} (hnodup : vars.Nodup) {number : Nat}
    {v : String → Bool} :
    (∀ x ∈ vars, (modelOf vars number).get? x = some (v x)) ↔
      ∀ k (hk : k < vars.length), bit vars.length number k = v vars[k] := by
  have hget : ∀ k (hk : k < vars.length),
      (modelOf vars number).get? vars[k] = some (bit vars.length number k) :=
    fun k hk => get?_modelOf hnodup number (List.getElem?_eq_getElem hk)
  constructor
  · intro h k hk
    exact Option.some.inj ((hget k hk).symm.trans (h _ (List.getElem_mem hk)))
  · intro h x hx
    obtain ⟨k, hk, rfl⟩ := List.getElem_of_mem hx
    rw [hget k hk, h k hk]

/-- **Every assignment of values is that of exactly one number.** -/
theorem exists_unique_modelOf {vars : List String} (hnodup : vars.Nodup) (v : String → Bool) :
    ∃! number, number < 2 ^ vars.length ∧
      ∀ x ∈ vars, (modelOf vars number).get? x = some (v x) := by
  simp only [forall_get?_modelOf_iff hnodup]
  obtain ⟨number, hlt, hvalues⟩ := exists_modelOf hnodup v
  have hdigits : ∀ k (hk : k < vars.length), bit vars.length number k = v vars[k] := by
    intro k hk
    rw [← hvalues _ (List.getElem_mem hk),
      valuation_modelOf hnodup number (List.getElem?_eq_getElem hk)]
  refine ⟨number, ⟨hlt, hdigits⟩, ?_⟩
  rintro other ⟨hother, hotherDigits⟩
  exact eq_of_bit_eq hother hlt fun k hk => (hotherDigits k hk).trans (hdigits k hk).symm

/-! ### Steps -/

/-- The enumeration after a step. -/
def stepped (e : Enumeration) : Enumeration :=
  e.next?.2

/-- A step yields the next model. -/
theorem fst_next? (e : Enumeration) : e.next?.1 = e.modelAt? e.next := by
  rw [next?]
  cases e.modelAt? e.next with
  | none => rfl
  | some m => rfl

/-- After some steps as many models are passed, but never more than there are. -/
theorem stepped_iterate {e : Enumeration} (h : e.next ≤ e.stop) (steps : Nat) :
    stepped^[steps] e = { e with next := min (e.next + steps) e.stop } := by
  induction steps with
  | zero => rw [Function.iterate_zero_apply, Nat.add_zero, Nat.min_eq_left h]
  | succ steps ih =>
      rw [Function.iterate_succ_apply', ih]
      rcases Nat.lt_or_ge (e.next + steps) e.stop with hlt | hge
      · have hlater : e.next + (steps + 1) ≤ e.stop := hlt
        obtain ⟨m, -, hnext⟩ := next?_of_lt (e := { e with next := e.next + steps }) hlt
        rw [Nat.min_eq_left (Nat.le_of_lt hlt), Nat.min_eq_left hlater, stepped, hnext,
          Nat.add_assoc]
      · have hlater : e.stop ≤ e.next + (steps + 1) := Nat.le_succ_of_le hge
        rw [Nat.min_eq_right hge, Nat.min_eq_right hlater, stepped, next?_of_le (Nat.le_refl _)]

/-- So the steps yield the models one after the other, and nothing after the last one. -/
theorem fst_next?_iterate {e : Enumeration} (h : e.next ≤ e.stop) (steps : Nat) :
    (stepped^[steps] e).next?.1 = e.modelAt? (e.next + steps) := by
  rw [stepped_iterate h, fst_next?, modelAt?, modelAt?]
  rcases Nat.lt_or_ge (e.next + steps) e.stop with hlt | hge
  · rw [Nat.min_eq_left (Nat.le_of_lt hlt)]
  · rw [Nat.min_eq_right hge, if_neg (Nat.lt_irrefl _), if_neg (Nat.not_lt.mpr hge)]

/-! ### All models in order -/

/-- Below the number of models each number has the model with its digits. -/
theorem modelAt?_start_eq_some_iff {vars : List String} {number : Nat} {m : Model} :
    (start vars).modelAt? number = some m ↔
      number < 2 ^ vars.length ∧ modelOf vars number = m := by
  change (if number < 2 ^ vars.length then some (modelOf vars number) else none) = some m ↔ _
  rw [Option.ite_none_right_eq_some, Option.some.injEq]

/-- The models still to come are found by their numbers, from that of the next one on. -/
theorem getElem?_rest (e : Enumeration) (i : Nat) : e.rest[i]? = e.modelAt? (e.next + i) := by
  rw [rest_eq_map, List.getElem?_map, modelAt?]
  rcases Nat.lt_or_ge (e.next + i) e.stop with hlt | hge
  · rw [List.getElem?_range' (by rw [remaining]; omega), Nat.one_mul, if_pos hlt]
    rfl
  · rw [List.getElem?_eq_none (by rw [List.length_range', remaining]; omega),
      if_neg (Nat.not_lt.mpr hge)]
    rfl

/-- At the start they are found by their numbers. -/
theorem getElem?_rest_start (vars : List String) (number : Nat) :
    (start vars).rest[number]? = (start vars).modelAt? number := by
  rw [getElem?_rest, start, Nat.zero_add]

/-- The enumeration goes once through all models over the variables, in lexicographic order. -/
structure ListsModels (e : Enumeration) (vars : List String) : Prop where
  /-- The numbers of the models are those below `2 ^ n`. -/
  isSome_modelAt?_iff : ∀ number, (e.modelAt? number).isSome ↔ number < 2 ^ vars.length
  /-- A model has the variables as its keys, in order. -/
  vars_eq : ∀ number m, e.modelAt? number = some m → m.vars = vars
  /-- The number of a model can be read off its values. -/
  number_eq : ∀ number m, e.modelAt? number = some m → m.number = number
  /-- The models with the smaller numbers come first. -/
  precedes_iff : ∀ i j m m', e.modelAt? i = some m → e.modelAt? j = some m' →
    (m.Precedes m' ↔ i < j)
  /-- Every assignment of values to the variables is that of the model with just one number. -/
  exists_unique : ∀ v : String → Bool, ∃! number, ∃ m, e.modelAt? number = some m ∧
    ∀ x ∈ vars, m.get? x = some (v x)
  /-- The models are yielded one after the other, and then nothing. -/
  yields : ∀ steps, (stepped^[steps] e).next?.1 = e.modelAt? steps
  /-- These are the models still to come, and there are `2 ^ n` of them. -/
  getElem?_rest : ∀ number, e.rest[number]? = e.modelAt? number
  length_rest : e.rest.length = 2 ^ vars.length

/-- **The models over a list of variables are enumerated in order.** Over distinct valid names,
fewer than 64 and in any order, there is an enumeration of all models. With `n` names the numbers
of its models are those below `2 ^ n`, and it yields the models in this order, and then nothing
more. Each model has the names as keys, in the order given; its values make its number in binary,
with the first name as the most significant digit; the models with smaller numbers come before it
in the lexicographic order; and each assignment of values to the names has exactly one number. -/
theorem lists_models {vars : List String} (hvalid : ∀ x ∈ vars, isVariable x = true)
    (hnodup : vars.Nodup) (hfew : vars.length < 64) :
    ∃ e, ofVariables vars = .ok e ∧ e.ListsModels vars := by
  refine ⟨start vars, ofVariables_eq_ok hvalid hnodup hfew, ?_⟩
  constructor
  case isSome_modelAt?_iff =>
    intro number
    rw [Option.isSome_iff_exists]
    simp only [modelAt?_start_eq_some_iff, exists_and_left, exists_eq', and_true]
  case vars_eq =>
    intro number m hm
    obtain ⟨-, rfl⟩ := modelAt?_start_eq_some_iff.mp hm
    exact vars_modelOf vars number
  case number_eq =>
    intro number m hm
    obtain ⟨hlt, rfl⟩ := modelAt?_start_eq_some_iff.mp hm
    exact number_modelOf hlt
  case precedes_iff =>
    intro i j m m' hm hm'
    obtain ⟨hi, rfl⟩ := modelAt?_start_eq_some_iff.mp hm
    obtain ⟨hj, rfl⟩ := modelAt?_start_eq_some_iff.mp hm'
    exact precedes_modelOf_iff hi hj
  case exists_unique =>
    intro v
    simp only [modelAt?_start_eq_some_iff, and_assoc, exists_and_left, exists_eq_left']
    exact exists_unique_modelOf hnodup v
  case yields =>
    intro steps
    rw [fst_next?_iterate (Nat.zero_le _)]
    exact congrArg _ (Nat.zero_add steps)
  case getElem?_rest => exact getElem?_rest_start vars
  case length_rest => rw [rest_start, List.length_map, List.length_range]

/-- Over `q7` and `p`, in this order, there are four models, of which the one with the number 2
gives `T` to `q7` and `F` to `p`; over no variables there is one. -/
theorem lists_models_two_variables :
    (∃ e m, ofVariables ["q7", "p"] = .ok e ∧ e.rest.length = 4 ∧ e.modelAt? 4 = none ∧
      e.modelAt? 2 = some m ∧ m.vars = ["q7", "p"] ∧ m.number = 2 ∧ m.digits = [true, false]) ∧
      ∃ e, ofVariables [] = .ok e ∧ e.rest.length = 1 := by
  constructor
  · obtain ⟨e, he, hlists⟩ := @lists_models ["q7", "p"] (by decide) (by decide) (by decide)
    obtain ⟨m, hm⟩ := Option.isSome_iff_exists.mp ((hlists.isSome_modelAt?_iff 2).mpr (by decide))
    have hnone : e.modelAt? 4 = none := Option.not_isSome_iff_eq_none.mp fun h =>
      absurd ((hlists.isSome_modelAt?_iff 4).mp h) (by decide)
    obtain rfl := Except.ok.inj
      (he.symm.trans (ofVariables_eq_ok (by decide) (by decide) (by decide)))
    have hdigits : m.digits = [true, false] := by
      obtain ⟨-, rfl⟩ := modelAt?_start_eq_some_iff.mp hm
      rfl
    exact ⟨_, m, he, hlists.length_rest, hnone, hm, hlists.vars_eq 2 m hm,
      hlists.number_eq 2 m hm, hdigits⟩
  · obtain ⟨e, he, hlists⟩ := @lists_models [] (by decide) (by decide) (by decide)
    exact ⟨e, he, hlists.length_rest⟩

end Enumeration

end Propositional

import Propositional.Program
import Propositional.Proofs.Semantics.Enumeration

/-!
# Compiled Formulas Have the Value of the Formula

Over a list of variables that holds all those of a formula the compiler refuses nothing,
and what it emits, subformula by subformula, is the code that `Formula.code` defines by
recursion (`Compilation.exists_foldl_add`). Whatever is on the stack, the code leaves the
value of the formula on top of it (`Formula.foldlM_code`), where each variable has its
digit in the number of the model; and these are its values in the model with that number.

Over any other list the compiler stops at the first leaf, from left to right, whose name is
not on the list (`Compilation.foldl_add_eq_error`).

## Main results

* `Program.exists_compile`: a formula compiles over its variables, and the program has in
  the model with any number the value of the formula there.
* `Program.compile_eq_error`: what a formula is refused for.
* `Program.compiled_agrees`: the program and evaluation agree in every model over the list.
-/

namespace Propositional

namespace Formula

/-- The instructions that put the value of the formula on the stack. -/
def code (vars : List String) : Formula → List Instruction
  | var name => [.load (vars.idxOf name)]
  | const value => [.apply (.constant value)]
  | not f => f.code vars ++ [.apply .negation]
  | binary c f g => f.code vars ++ g.code vars ++ [.apply (.binary c)]

/-- The names at the leaves of the formula, from left to right. -/
def leafNames : Formula → List String
  | var name => [name]
  | const _ => []
  | not f => f.leafNames
  | binary _ f g => f.leafNames ++ g.leafNames

/-- The names at the leaves are those that the formula mentions. -/
theorem mem_leafNames_iff {f : Formula} {x : String} : x ∈ f.leafNames ↔ f.Mentions x := by
  induction f with
  | var name => rw [leafNames, List.mem_singleton, Mentions, eq_comm]
  | const value => simp [leafNames, Mentions]
  | not f ih => exact ih
  | binary c f g ihf ihg => rw [leafNames, List.mem_append, ihf, ihg, Mentions]

/-- Whatever is on the stack, the code puts the value of the formula on top of it. -/
theorem foldlM_code (vars : List String) (number : Nat) (f : Formula) (stack : List Bool) :
    (f.code vars).foldlM (Instruction.run? vars.length number) stack =
      some (f.value (fun x => bit vars.length number (vars.idxOf x)) :: stack) := by
  induction f generalizing stack with
  | var name => rfl
  | const value => rfl
  | not f ih =>
      rw [code, List.foldlM_append, ih]
      rfl
  | binary c f g ihf ihg =>
      rw [code, List.foldlM_append, List.foldlM_append, ihf, Option.bind_eq_bind, Option.bind_some,
        ihg]
      rfl

end Formula

/-- A name on the list is found at its place. -/
theorem idxOf?_of_mem {vars : List String} {name : String} (h : name ∈ vars) :
    vars.idxOf? name = some (vars.idxOf name) := by
  obtain ⟨place, hplace⟩ := Option.isSome_iff_exists.mp (List.isSome_idxOf?.mpr h)
  rw [List.idxOf_eq_getD_idxOf?, hplace, Option.getD_some]

/-- **The compiler emits the code of a formula whose variables are on the list**, after
what it has emitted before. -/
theorem Compilation.exists_foldl_add {vars : List String} {f : Formula}
    (hf : ∀ x, f.Mentions x → x ∈ vars) (c : Compilation) :
    ∃ c' : Compilation,
      f.postorderForm.foldl
          (fun (c : Except SemanticsError Compilation) g => c.bind (Compilation.add vars · g))
          (.ok c) = .ok c' ∧
        c'.code = (f.code vars).reverse ++ c.code := by
  induction f generalizing c with
  | var name =>
      have hplace := idxOf?_of_mem (hf name rfl)
      refine ⟨c.emit (.load (vars.idxOf name)) 0, ?_, rfl⟩
      simp only [Formula.postorderForm, List.foldl_cons, List.foldl_nil, Except.bind, add, hplace]
  | const value => exact ⟨_, rfl, rfl⟩
  | not f ih =>
      obtain ⟨c', hfold, hcode⟩ := ih hf c
      refine ⟨c'.emit (.apply .negation) 1, ?_, ?_⟩
      · rw [Formula.postorderForm, List.foldl_append, hfold]
        rfl
      · simp [emit, Formula.code, hcode]
  | binary connective f g ihf ihg =>
      obtain ⟨c', hfold, hcode⟩ := ihf (fun x hx => hf x (.inl hx)) c
      obtain ⟨c'', hfold', hcode'⟩ := ihg (fun x hx => hf x (.inr hx)) c'
      refine ⟨c''.emit (.apply (.binary connective)) 2, ?_, ?_⟩
      · rw [Formula.postorderForm, List.foldl_append, List.foldl_append, hfold, hfold']
        rfl
      · simp [emit, Formula.code, hcode, hcode']

/-- The compiler adds nothing to what it has refused. -/
theorem Compilation.foldl_add_of_error (vars : List String) (e : SemanticsError)
    (fs : List Formula) :
    fs.foldl (fun (c : Except SemanticsError Compilation) g => c.bind (Compilation.add vars · g))
      (.error e) = .error e := by
  induction fs with
  | nil => rfl
  | cons f fs ih => exact ih

/-- **The compiler stops at the first leaf whose name is not on the list**, whatever it has
emitted before. -/
theorem Compilation.foldl_add_eq_error {vars : List String} {f : Formula} {name : String}
    (h : f.leafNames.find? (fun x => decide (x ∉ vars)) = some name) (c : Compilation) :
    f.postorderForm.foldl
        (fun (c : Except SemanticsError Compilation) g => c.bind (Compilation.add vars · g))
        (.ok c) = .error (.missingVariable name) := by
  induction f generalizing c with
  | var x =>
      rw [Formula.leafNames, List.find?_singleton] at h
      obtain ⟨hx, hname⟩ := Option.ite_none_right_eq_some.mp h
      obtain rfl := Option.some.inj hname
      have hplace : vars.idxOf? x = none := List.idxOf?_eq_none_iff.mpr (of_decide_eq_true hx)
      simp only [Formula.postorderForm, List.foldl_cons, List.foldl_nil, Except.bind, add, hplace]
  | const value => cases h
  | not f ih =>
      rw [Formula.postorderForm, List.foldl_append, ih h, foldl_add_of_error]
  | binary connective f g ihf ihg =>
      rw [Formula.leafNames, List.find?_append] at h
      rw [Formula.postorderForm, List.foldl_append, List.foldl_append]
      cases hf : f.leafNames.find? fun x => decide (x ∉ vars) with
      | some x =>
          rw [hf, Option.some_or] at h
          obtain rfl := Option.some.inj h
          rw [ihf hf, foldl_add_of_error, foldl_add_of_error]
      | none =>
          -- All leaves of the first operand are on the list, so it is emitted in full.
          have hmem : ∀ x, f.Mentions x → x ∈ vars := fun x hx => by
            simpa using List.find?_eq_none.mp hf x (Formula.mem_leafNames_iff.mpr hx)
          obtain ⟨c', hfold, -⟩ := exists_foldl_add hmem c
          rw [hf, Option.none_or] at h
          rw [hfold, ihg h, foldl_add_of_error]

namespace Program

/-- The program is the code of the formula. -/
theorem exists_compile_eq {f : Formula} {vars : List String} (hf : ∀ x, f.Mentions x → x ∈ vars) :
    ∃ height, compile f vars = .ok ⟨f.code vars, vars.length, height⟩ := by
  obtain ⟨c, hfold, hcode⟩ := Compilation.exists_foldl_add hf .start
  refine ⟨c.maxHeight, ?_⟩
  rw [compile, Formula.foldl_postorderStart, hfold]
  simp [Except.map, Compilation.finish, hcode, Compilation.start]

/-- The code of a formula leaves one value on the stack: in the model with any number, the value
of the formula there. -/
theorem run?_code {f : Formula} {vars : List String} (hnodup : vars.Nodup)
    (hf : ∀ x, f.Mentions x → x ∈ vars) (height number : Nat) :
    run? ⟨f.code vars, vars.length, height⟩ number =
      some [f.value (Enumeration.modelOf vars number).valuation] := by
  have hvalue : f.value (fun x => bit vars.length number (vars.idxOf x)) =
      f.value (Enumeration.modelOf vars number).valuation := by
    refine Formula.value_congr fun x hx => ?_
    have hplace : vars[vars.idxOf x]? = some x := List.getElem?_idxOf (hf x hx)
    rw [Enumeration.valuation_modelOf hnodup number hplace]
  rw [run?, Formula.foldlM_code, hvalue]

/-- **A formula compiles over a list of distinct names that holds its variables, and the
program has in the model with any number the value of the formula there.** -/
theorem exists_compile {f : Formula} {vars : List String} (hnodup : vars.Nodup)
    (hf : ∀ x, f.Mentions x → x ∈ vars) :
    ∃ program, compile f vars = .ok program ∧
      ∀ number, program.eval number = f.value (Enumeration.modelOf vars number).valuation := by
  obtain ⟨height, hcompile⟩ := exists_compile_eq hf
  exact ⟨_, hcompile, fun number => by rw [eval, run?_code hnodup hf]⟩

/-- **A formula is refused for its leftmost leaf whose name is not on the list.** -/
theorem compile_eq_error {f : Formula} {vars : List String} {name : String}
    (h : f.leafNames.find? (fun x => decide (x ∉ vars)) = some name) :
    compile f vars = .error (.missingVariable name) := by
  rw [compile, Formula.foldl_postorderStart, Compilation.foldl_add_eq_error h]
  rfl

/-- **Compiled formulas agree with evaluation over any list of variables.** Let the names on the
list be valid and distinct, and fewer than 64. If they are in any order and with any others the
variables of the formula, the formula compiles, and in each of the models over the list the
program leaves exactly one value, the one that evaluation gives. If some variable of the formula
is not on the list, the formula is refused for the leftmost leaf whose name is not. -/
theorem compiled_agrees {vars : List String} (hvalid : ∀ x ∈ vars, isVariable x = true)
    (hnodup : vars.Nodup) (hfew : vars.length < 64) (f : Formula) :
    ((∀ x, f.Mentions x → x ∈ vars) →
      ∃ program models, compile f vars = .ok program ∧
        Enumeration.ofVariables vars = .ok models ∧
        ∀ i < 2 ^ vars.length, ∃ m, models.modelAt? i = some m ∧ m.covers f = true ∧
          ∀ b, (program.eval i = b ↔ f.evaluate m = .ok b) ∧
            (program.run? i = some [b] ↔ f.evaluate m = .ok b)) ∧
      ((∃ x, f.Mentions x ∧ x ∉ vars) →
        ∃ before name after, f.leafNames = before ++ name :: after ∧
          (∀ x ∈ before, x ∈ vars) ∧ name ∉ vars ∧
          compile f vars = .error (.missingVariable name)) := by
  constructor
  · intro hf
    obtain ⟨height, hcompile⟩ := exists_compile_eq hf
    refine ⟨_, _, hcompile, Enumeration.ofVariables_eq_ok hvalid hnodup hfew, fun i hi => ?_⟩
    have hcovers := Enumeration.covers_modelOf hnodup i hf
    refine ⟨_, Enumeration.modelAt?_start hi, hcovers, fun b => ?_⟩
    rw [eval, run?_code hnodup hf, Formula.evaluate_of_covers hcovers]
    simp only [Except.ok.injEq, Option.some.injEq, List.cons.injEq, and_true]
  · rintro ⟨x, hx, hmissing⟩
    have hfound : (f.leafNames.find? fun x => decide (x ∉ vars)).isSome := by
      rw [List.find?_isSome]
      exact ⟨x, Formula.mem_leafNames_iff.mpr hx, decide_eq_true hmissing⟩
    obtain ⟨name, hname⟩ := Option.isSome_iff_exists.mp hfound
    obtain ⟨hnot, before, after, hleaves, hbefore⟩ := List.find?_eq_some_iff_append.mp hname
    exact ⟨before, name, after, hleaves, fun x hx => by simpa using hbefore x hx,
      of_decide_eq_true hnot, compile_eq_error hname⟩

/-- Over `x`, `q`, `p7` in this order, the program of `(p7->(q&p7))` and evaluation both give
`false` in the model with the number 5, where only `q` is false; and `((q->y)&r)` is refused for
`y`, which stands to the left of `r`. -/
theorem compiled_agrees_three_variables :
    (∃ program models m,
      compile (.binary .implies (.var "p7") (.binary .and (.var "q") (.var "p7")))
        ["x", "q", "p7"] = .ok program ∧
      Enumeration.ofVariables ["x", "q", "p7"] = .ok models ∧ models.modelAt? 5 = some m ∧
      (Formula.binary .implies (.var "p7") (.binary .and (.var "q") (.var "p7"))).evaluate m =
        .ok false ∧
      program.eval 5 = false) ∧
      compile (.binary .and (.binary .implies (.var "q") (.var "y")) (.var "r"))
        ["x", "q", "p7"] = .error (.missingVariable "y") := by
  have hvalid : ∀ x ∈ ["x", "q", "p7"], isVariable x = true := by decide
  have hagrees := compiled_agrees hvalid (by decide) (by decide)
  constructor
  · obtain ⟨program, models, hcompile, hmodels, heach⟩ :=
      (hagrees (.binary .implies (.var "p7") (.binary .and (.var "q") (.var "p7")))).1
        (by rintro x (rfl | rfl | rfl) <;> decide)
    obtain ⟨m, hm, hcovers, hvalue⟩ := heach 5 (by decide)
    obtain rfl := Except.ok.inj
      (hmodels.symm.trans (Enumeration.ofVariables_eq_ok hvalid (by decide) (by decide)))
    obtain rfl := Option.some.inj (hm.symm.trans (Enumeration.modelAt?_start (by decide)))
    have hfalse := Formula.evaluate_of_covers hcovers
    exact ⟨program, _, _, hcompile, hmodels, hm, hfalse, (hvalue false).1.mpr hfalse⟩
  · obtain ⟨before, name, after, hleaves, hbefore, hname, hcompile⟩ :=
      (hagrees (.binary .and (.binary .implies (.var "q") (.var "y")) (.var "r"))).2
        ⟨"y", by simp [Formula.Mentions], by decide⟩
    simp only [Formula.leafNames, List.cons_append, List.nil_append] at hleaves
    rcases before with _ | ⟨x, _ | ⟨y, before⟩⟩
    · obtain ⟨rfl, -⟩ := List.cons.inj hleaves
      exact absurd hname (by decide)
    · obtain ⟨-, hleaves⟩ := List.cons.inj hleaves
      obtain ⟨rfl, -⟩ := List.cons.inj hleaves
      exact hcompile
    · obtain ⟨-, hleaves⟩ := List.cons.inj hleaves
      obtain ⟨rfl, -⟩ := List.cons.inj hleaves
      exact absurd (hbefore "y" (by simp)) (by decide)

end Program

end Propositional

import Propositional.Proofs.Semantics.Compilation
import Propositional.Proofs.Semantics.StackHeights
import Propositional.Substitution.BottomUp

/-!
# The Discipline of the Stack of Values

Compiled programs and evaluation keep a stack of truth values, and the compiler counts how high the
stack will be. The machines of this module do the same with every check that might fail:
differences that would be negative, digits that are shifted by more than a word is long, operands
that are cut off a stack too low, and operators with the wrong number of operands.

All three machines keep to the counted heights (`Compilation.keeps_checkedAdd?`,
`Instruction.keeps_checkedRun?`, `Evaluation.keeps_checkedStep?`), so no check fails, and the stack
of a program is after each instruction as high as the compiler counted (`Program.exists_inStep`).

## Main definitions

* `Formula.checkedCompilation?`, `Program.checkedStack?`, `Formula.checkedValues?`: what the three
  machines have after any number of steps, with all checks.
* `Program.InStep`: the program and its compiler after as many steps.

## Main results

* `Formula.exists_checkedCompilation?`: the compiler never counts below zero.
* `Program.exists_inStep`: a program and its compiler stay in step.
* `Formula.stack_discipline`: compiling, running and evaluating, step by step.
-/

namespace Propositional

/-! ### Machines with checks -/

/-- The value of the operator for the given operands, which must be as many as it takes. -/
def Operator.applyTo? : Operator → List Bool → Option Bool
  | constant value, [] => some value
  | negation, [a] => some (!a)
  | binary c, [a, b] => some (c.apply a b)
  | _, _ => none

/-- Cuts as many values off the stack as the operator takes, and puts its value for them there. -/
def Operator.checkedReduce? (op : Operator) (stack : List Bool) : Option (List Bool) :=
  match BottomUp.popOperands? op.arity [] stack with
  | none => none
  | some (operands, rest) => (op.applyTo? operands).map (· :: rest)

namespace Instruction

/-- The number of values that the instruction takes off the stack. -/
def arity : Instruction → Nat
  | load _ => 0
  | apply op => op.arity

/-- By how many digits the number of a model is shifted to bring up the digit at a place. -/
def shift? (width place : Nat) : Option Nat :=
  (subtract? width 1).bind (subtract? · place)

/-- The change that the instruction makes to the stack. A number has 64 digits. -/
def checkedRun? (width number : Nat) (stack : List Bool) : Instruction → Option (List Bool)
  | load place =>
    match shift? width place with
    | none => none
    | some shift => if shift < 64 then some (number.testBit shift :: stack) else none
  | apply op => op.checkedReduce? stack

end Instruction

/-- The stack after the first `k` instructions, in the model with the given number. -/
def Program.checkedStack? (p : Program) (number k : Nat) : Option (List Bool) :=
  (p.instructions.take k).foldlM (Instruction.checkedRun? p.width number) []

/-- The effect of a subformula on the stack of values: that of its operator, or the value of the
variable. -/
def Evaluation.checkedStep? (m : Model) (values : List Bool) (f : Formula) : Option (List Bool) :=
  match f.operator? with
  | none => (m.get? f.root).map (· :: values)
  | some op => op.checkedReduce? values

/-- The stack of values after the first `k` subformulas. -/
def Formula.checkedValues? (f : Formula) (m : Model) (k : Nat) : Option (List Bool) :=
  (f.postorder.take k).foldlM (Evaluation.checkedStep? m) []

namespace Compilation

/-- Adds an instruction that takes `arity` values off the stack, which must be that high, and
pushes one. -/
def checkedEmit? (c : Compilation) (instruction : Instruction) (arity : Nat) :
    Option Compilation :=
  (subtract? c.height arity).map fun rest =>
    ⟨instruction :: c.code, rest + 1, max c.maxHeight (rest + 1)⟩

/-- Adds the instruction of a subformula whose operands have been compiled. -/
def checkedAdd? (vars : List String) (c : Compilation) (f : Formula) : Option Compilation :=
  match f.operator? with
  | none => (vars.idxOf? f.root).bind fun place => c.checkedEmit? (.load place) 0
  | some op => c.checkedEmit? (.apply op) op.arity

end Compilation

/-- The program under construction after the first `k` subformulas. -/
def Formula.checkedCompilation? (f : Formula) (vars : List String) (k : Nat) :
    Option Compilation :=
  (f.postorder.take k).foldlM (Compilation.checkedAdd? vars) .start

/-- A program and its compiler after as many instructions as subformulas: these instructions have
been emitted, the counted height is within the greatest one and enough for the next instruction,
and the stack, in any model, is that high. -/
structure Program.InStep (program : Program) (k : Nat) (c : Compilation) : Prop where
  code_eq : c.code.reverse = program.instructions.take k
  height_le : c.height ≤ program.maxHeight
  arity_le : ∀ i, program.instructions[k]? = some i → i.arity ≤ c.height
  stack : ∀ number, ∃ stack, program.checkedStack? number k = some stack ∧
    stack.length = c.height

variable {vars : List String} {f g : Formula}

/-! ### Running a program -/

/-- Cutting the operands off the stack is what `reduce?` does by patterns. -/
theorem Operator.checkedReduce?_eq (op : Operator) (stack : List Bool) :
    op.checkedReduce? stack = op.reduce? stack := by
  cases op with
  | constant value => rfl
  | negation => cases stack <;> rfl
  | binary c => rcases stack with _ | ⟨b, _ | ⟨a, rest⟩⟩ <;> rfl

/-- An operator fails nowhere if its operands are on the stack. -/
theorem Operator.exists_checkedReduce? {op : Operator} {stack : List Bool}
    (h : op.arity ≤ stack.length) :
    ∃ stack', op.checkedReduce? stack = some stack' ∧
      stack'.length = stack.length - op.arity + 1 := by
  rw [checkedReduce?_eq]
  cases op with
  | constant value => exact ⟨_, rfl, rfl⟩
  | negation =>
      obtain ⟨a, rest, rfl⟩ := List.exists_cons_of_length_pos h
      exact ⟨_, rfl, rfl⟩
  | binary c =>
      match stack, h with
      | b :: a :: rest, _ => exact ⟨_, rfl, rfl⟩

namespace Instruction

/-- The instruction that is compiled for a subformula. -/
def ofFormula (vars : List String) (g : Formula) : Instruction :=
  match g.operator? with
  | none => load (vars.idxOf g.root)
  | some op => apply op

/-- It takes as many values off the stack as the subformula has operands. -/
theorem arity_ofFormula (vars : List String) (g : Formula) :
    (ofFormula vars g).arity = g.operands.length := by
  rw [ofFormula]
  split
  · rename_i hop
    obtain ⟨name, rfl⟩ := Formula.exists_eq_var hop
    rfl
  · rename_i op hop
    exact (Formula.length_operands hop).symm

/-- A place that is loaded is one on the list. -/
theorem place_lt_of_mem (hf : ∀ x, f.Mentions x → x ∈ vars) {place : Nat}
    (h : load place ∈ f.postorder.map (ofFormula vars)) : place < vars.length := by
  obtain ⟨g, hg, hload⟩ := List.mem_map.mp h
  cases hop : g.operator? with
  | some op => simp [ofFormula, hop] at hload
  | none =>
      obtain ⟨name, rfl⟩ := Formula.exists_eq_var hop
      obtain rfl : vars.idxOf name = place := load.inj hload
      have hname : (Formula.var name).Mentions name := rfl
      exact List.idxOf_lt_length_of_mem (hf name (hname.of_mem_postorder hg))

/-- The places before a place, itself, and those that the shift passes over make up the width. -/
theorem shift?_eq_some_iff {width place shift : Nat} :
    shift? width place = some shift ↔ place + shift + 1 = width := by
  simp only [shift?, Option.bind_eq_some_iff, subtract?_eq_some_iff]
  constructor
  · rintro ⟨last, hlast, hshift⟩
    omega
  · intro h
    exact ⟨width - 1, by omega, by omega⟩

/-- A place within the width is brought up by a shift by less than the width. -/
theorem exists_shift? {width place : Nat} (h : place < width) :
    ∃ shift < width, shift? width place = some shift :=
  ⟨width - 1 - place, by omega, shift?_eq_some_iff.mpr (by omega)⟩

/-- An instruction that does not fail makes the change that `run?` makes. -/
theorem run?_of_checkedRun? {width number : Nat} {stack stack' : List Bool} {i : Instruction}
    (h : i.checkedRun? width number stack = some stack') :
    i.run? width number stack = some stack' := by
  cases i with
  | apply op => rwa [checkedRun?, Operator.checkedReduce?_eq] at h
  | load place =>
      cases hshift : shift? width place with
      | none => simp [checkedRun?, hshift] at h
      | some shift =>
          have hplace : width - 1 - place = shift := by
            have := shift?_eq_some_iff.mp hshift
            omega
          simp only [checkedRun?, hshift, Option.ite_none_right_eq_some] at h
          rw [run?, bit, hplace]
          exact h.2

/-- **The instruction of a subformula keeps to the counted height**, if the variables of the
subformula are on the list. -/
theorem keeps_checkedRun? (hfew : vars.length < 64) (hg : ∀ x, g.Mentions x → x ∈ vars)
    (number : Nat) :
    Keeps List.length
      (fun stack g => (ofFormula vars g).checkedRun? vars.length number stack) g := by
  intro stack hstack
  cases hop : g.operator? with
  | none =>
      obtain ⟨name, rfl⟩ := Formula.exists_eq_var hop
      obtain ⟨shift, hlt, hshift⟩ := exists_shift? (List.idxOf_lt_length_of_mem (hg name rfl))
      refine ⟨number.testBit shift :: stack, ?_, rfl⟩
      simp only [ofFormula, Formula.operator?, Formula.root, checkedRun?, hshift]
      exact if_pos (Nat.lt_trans hlt hfew)
  | some op =>
      rw [Formula.length_operands hop] at hstack ⊢
      simp only [ofFormula, hop]
      exact Operator.exists_checkedReduce? hstack

end Instruction

/-- A program whose instructions do not fail leaves the stack that it leaves without checks. -/
theorem Program.run?_of_checkedStack? {p : Program} {number : Nat} {stack : List Bool}
    (h : p.checkedStack? number p.instructions.length = some stack) :
    p.run? number = some stack := by
  rw [checkedStack?, List.take_length] at h
  rw [run?]
  generalize ([] : List Bool) = start at h
  generalize p.instructions = code at h
  induction code generalizing start with
  | nil => exact h
  | cons i code ih =>
      rw [List.foldlM_cons] at h
      obtain ⟨stack', hstep, hrest⟩ := Option.bind_eq_some_iff.mp h
      rw [List.foldlM_cons, Instruction.run?_of_checkedRun? hstep]
      exact ih _ hrest

/-! ### Evaluating a formula -/

/-- The checks change nothing for the step that evaluation makes. -/
theorem Evaluation.checkedStep?_eq (m : Model) (values : List Bool) (g : Formula) :
    checkedStep? m values g = step? m values g := by
  cases g with
  | var name => rfl
  | const value => exact Operator.checkedReduce?_eq (.constant value) values
  | not g => exact Operator.checkedReduce?_eq .negation values
  | binary c g₁ g₂ => exact Operator.checkedReduce?_eq (.binary c) values

/-- **In a model that gives its variables values a subformula keeps to the counted height.** -/
theorem Evaluation.keeps_checkedStep? {m : Model}
    (hg : ∀ x, g.Mentions x → m.get? x = some (m.valuation x)) :
    Keeps List.length (checkedStep? m) g := by
  intro values hvalues
  cases hop : g.operator? with
  | none =>
      obtain ⟨name, rfl⟩ := Formula.exists_eq_var hop
      refine ⟨m.valuation name :: values, ?_, rfl⟩
      simp only [checkedStep?, Formula.operator?, Formula.root, hg name rfl, Option.map_some]
  | some op =>
      rw [Formula.length_operands hop] at hvalues ⊢
      simp only [checkedStep?, hop]
      exact Operator.exists_checkedReduce? hvalues

namespace Formula

/-- Nor do they change the value that evaluation leaves. -/
theorem evaluateCovered?_of_checkedValues? {m : Model} {value : Bool}
    (h : f.checkedValues? m f.postorder.length = some [value]) :
    f.evaluateCovered? m = some value := by
  have hstep : Evaluation.checkedStep? m = Evaluation.step? m :=
    funext₂ (Evaluation.checkedStep?_eq m)
  rw [checkedValues?, List.take_length, hstep, List.foldlM_eq_foldl] at h
  have hleft : f.postorder.foldl (fun values g => values.bind (Evaluation.step? m · g))
      (some []) = some [value] := h
  rw [evaluateCovered?, foldl_postorderStart, ← postorder_eq, hleft]

/-- **Evaluation finds the operands of every subformula on the stack**, in a model that gives the
variables values, and one value is left at the end. -/
theorem exists_checkedValues? {m : Model}
    (hvalues : ∀ x, f.Mentions x → m.get? x = some (m.valuation x)) (k : Nat) :
    ∃ values, f.checkedValues? m k = some values ∧
      (∀ g, f.postorder[k]? = some g → g.operands.length ≤ values.length) ∧
      (k = f.postorder.length → values.length = 1) := by
  have hkeeps : ∀ g ∈ f.postorder, Keeps List.length (Evaluation.checkedStep? m) g :=
    fun g hg => Evaluation.keeps_checkedStep? fun x hx => hvalues x (hx.of_mem_postorder hg)
  obtain ⟨n, hn, hnext⟩ := exists_heightAfter?_take f k
  obtain ⟨values, hstack, hlength⟩ := exists_take_of_keeps hkeeps (s := []) rfl hn
  refine ⟨values, hstack, fun g hg => hlength ▸ hnext g hg, ?_⟩
  rintro rfl
  rw [List.take_length, heightAfter?_postorder] at hn
  exact hlength.trans (Option.some.inj hn).symm

end Formula

/-! ### Compiling a formula -/

namespace Compilation

variable {c c' c'' : Compilation} {fs : List Formula}

/-- An instruction is added if the height does not fall below zero. -/
theorem checkedEmit?_eq_some_iff {i : Instruction} {arity : Nat} :
    c.checkedEmit? i arity = some c' ↔ arity ≤ c.height ∧ c.emit i arity = c' := by
  rw [checkedEmit?, subtract?]
  by_cases h : arity ≤ c.height <;> simp [h, emit]

/-- **What is added where nothing fails**: the instruction of the subformula, at the counted
height. -/
theorem checkedAdd?_eq_some_iff :
    checkedAdd? vars c g = some c' ↔
      (g.operator? = none → g.root ∈ vars) ∧ g.operands.length ≤ c.height ∧
        c.emit (.ofFormula vars g) g.operands.length = c' := by
  cases hop : g.operator? with
  | some op =>
      simp [checkedAdd?, hop, checkedEmit?_eq_some_iff, Instruction.ofFormula,
        Formula.length_operands hop]
  | none =>
      obtain ⟨name, rfl⟩ := Formula.exists_eq_var hop
      by_cases hmem : name ∈ vars
      · simp [checkedAdd?, Formula.operator?, Formula.root, Formula.operands, idxOf?_of_mem hmem,
          hmem, checkedEmit?_eq_some_iff, Instruction.ofFormula]
      · have hplace : vars.idxOf? name = none := List.idxOf?_eq_none_iff.mpr hmem
        simp [checkedAdd?, Formula.operator?, Formula.root, hplace, hmem]

/-- **The compiler keeps to the counted height** at a subformula whose variables are on the
list. -/
theorem keeps_checkedAdd? (hg : ∀ x, g.Mentions x → x ∈ vars) :
    Keeps Compilation.height (checkedAdd? vars) g := by
  intro c hc
  refine ⟨_, checkedAdd?_eq_some_iff.mpr ⟨fun hop => ?_, hc, rfl⟩, rfl⟩
  obtain ⟨name, rfl⟩ := Formula.exists_eq_var hop
  exact hg name rfl

/-- What is added where nothing fails is what the compiler adds. -/
theorem add_of_checkedAdd? (h : checkedAdd? vars c g = some c') : add vars c g = .ok c' := by
  obtain ⟨hvar, -, rfl⟩ := checkedAdd?_eq_some_iff.mp h
  cases g with
  | const | not | binary => rfl
  | var name =>
      have hplace : vars.idxOf? name = some (vars.idxOf name) := idxOf?_of_mem (hvar rfl)
      simp only [add, hplace]
      rfl

/-- What the compiler has after subformulas that it has added to what it had before. -/
structure Extends (vars : List String) (fs : List Formula) (c c' : Compilation) : Prop where
  foldlM_eq : fs.foldlM (add vars) c = .ok c'
  code_eq : c'.code.reverse = c.code.reverse ++ fs.map (.ofFormula vars)
  maxHeight_le : c.maxHeight ≤ c'.maxHeight
  height_le : c.height ≤ c.maxHeight → c'.height ≤ c'.maxHeight

/-- The greatest height takes the height after every subformula into account. -/
theorem maxHeight_of_checkedAdd? (h : checkedAdd? vars c g = some c') :
    c'.maxHeight = max c.maxHeight c'.height := by
  obtain ⟨-, -, rfl⟩ := checkedAdd?_eq_some_iff.mp h
  rfl

/-- A step adds one instruction and forgets no height. -/
theorem Extends.cons (hstep : checkedAdd? vars c g = some c') (h : Extends vars fs c' c'') :
    Extends vars (g :: fs) c c'' := by
  have hmax := maxHeight_of_checkedAdd? hstep
  refine ⟨?_, ?_, Nat.le_trans (by omega) h.maxHeight_le, fun _ => h.height_le (by omega)⟩
  · rw [List.foldlM_cons, add_of_checkedAdd? hstep]
    exact h.foldlM_eq
  · obtain ⟨-, -, hemit⟩ := checkedAdd?_eq_some_iff.mp hstep
    rw [h.code_eq, ← hemit, emit, List.reverse_cons, List.append_assoc]
    rfl

/-- **What the compiler has after subformulas**, if nothing fails. -/
theorem extends_of_foldlM (h : fs.foldlM (checkedAdd? vars) c = some c') :
    Extends vars fs c c' := by
  induction fs generalizing c with
  | nil =>
      obtain rfl := Option.some.inj h
      exact ⟨rfl, (List.append_nil _).symm, Nat.le_refl _, id⟩
  | cons g fs ih =>
      rw [List.foldlM_cons] at h
      obtain ⟨c₁, hstep, hrest⟩ := Option.bind_eq_some_iff.mp h
      exact (ih hrest).cons hstep

/-- The greatest height is the one before, or is reached after some of the subformulas. -/
theorem exists_take_height_eq (h : fs.foldlM (checkedAdd? vars) c = some c') :
    c'.maxHeight = c.maxHeight ∨
      ∃ k c₁, (fs.take k).foldlM (checkedAdd? vars) c = some c₁ ∧ c₁.height = c'.maxHeight := by
  induction fs generalizing c with
  | nil => exact .inl (congrArg maxHeight (Option.some.inj h).symm)
  | cons g fs ih =>
      rw [List.foldlM_cons] at h
      obtain ⟨c₁, hstep, hrest⟩ := Option.bind_eq_some_iff.mp h
      have htake : ∀ k, ((g :: fs).take (k + 1)).foldlM (checkedAdd? vars) c =
          (fs.take k).foldlM (checkedAdd? vars) c₁ := fun k => by
        rw [List.take_succ_cons, List.foldlM_cons, hstep]
        rfl
      have hmax := maxHeight_of_checkedAdd? hstep
      rcases ih hrest with heq | ⟨k, c₂, hk, hheight⟩
      · rcases Nat.le_total c₁.height c.maxHeight with hle | hle
        · exact .inl (by omega)
        · exact .inr ⟨1, c₁, htake 0, by omega⟩
      · exact .inr ⟨k + 1, c₂, (htake k).trans hk, hheight⟩

end Compilation

/-- **The compiler never counts below zero** over a list that holds the variables, and the program
is what it has at the end. -/
theorem Formula.exists_checkedCompilation? (hf : ∀ x, f.Mentions x → x ∈ vars) :
    ∃ c, f.checkedCompilation? vars f.postorder.length = some c ∧ c.height = 1 ∧
      (c.finish vars.length).instructions = f.postorder.map (.ofFormula vars) ∧
      Program.compile f vars = .ok (c.finish vars.length) := by
  have hkeeps : ∀ g ∈ f.postorder, Keeps Compilation.height (Compilation.checkedAdd? vars) g :=
    fun g hg => Compilation.keeps_checkedAdd? fun x hx => hf x (hx.of_mem_postorder hg)
  obtain ⟨c, hc, hheight⟩ := exists_foldlM_of_keeps hkeeps (s := .start) (heightAfter?_postorder f)
  have hextends := Compilation.extends_of_foldlM hc
  refine ⟨c, by rwa [checkedCompilation?, List.take_length], hheight, hextends.code_eq, ?_⟩
  have hfold := hextends.foldlM_eq
  rw [List.foldlM_eq_foldl, postorder_eq] at hfold
  rw [Program.compile, foldl_postorderStart]
  exact congrArg (Except.map (·.finish vars.length)) hfold

/-- **A program and its compiler stay in step.** -/
theorem Program.exists_inStep (hfew : vars.length < 64) (hf : ∀ x, f.Mentions x → x ∈ vars)
    {c : Compilation} (hc : f.checkedCompilation? vars f.postorder.length = some c)
    (hcode : (c.finish vars.length).instructions = f.postorder.map (.ofFormula vars)) (k : Nat) :
    ∃ c', f.checkedCompilation? vars k = some c' ∧ (c.finish vars.length).InStep k c' := by
  have hmentions : ∀ g ∈ f.postorder, ∀ x, g.Mentions x → x ∈ vars :=
    fun g hg x hx => hf x (hx.of_mem_postorder hg)
  obtain ⟨n, hn, hnext⟩ := exists_heightAfter?_take f k
  obtain ⟨c', hc', hheight⟩ := exists_take_of_keeps
    (fun g hg => Compilation.keeps_checkedAdd? (hmentions g hg)) (s := .start) rfl hn
  refine ⟨c', hc', ?_, ?_, fun i hi => ?_, fun number => ?_⟩
  · rw [hcode, ← List.map_take]
    exact (Compilation.extends_of_foldlM hc').code_eq
  · -- the compiler goes on from here to the end
    rw [Formula.checkedCompilation?, List.take_length, ← List.take_append_drop k f.postorder,
      List.foldlM_append, hc'] at hc
    exact Nat.le_trans ((Compilation.extends_of_foldlM hc').height_le (Nat.le_refl _))
      (Compilation.extends_of_foldlM hc).maxHeight_le
  · rw [hcode, List.getElem?_map, Option.map_eq_some_iff] at hi
    obtain ⟨g, hg, rfl⟩ := hi
    rw [Instruction.arity_ofFormula, hheight]
    exact hnext g hg
  · obtain ⟨stack, hstack, hlength⟩ := exists_take_of_keeps
      (fun g hg => Instruction.keeps_checkedRun? hfew (hmentions g hg) number) (s := []) rfl hn
    refine ⟨stack, ?_, hlength.trans hheight.symm⟩
    rw [checkedStack?, hcode, ← List.map_take, List.foldlM_map]
    exact hstack

namespace Formula

/-- **No stack of values is ever too low.** Let a list of fewer than 64 names hold the variables of
a formula. The compiler, if it counts with checks, never counts below zero, and comes to the program
that it comes to without. After any number of instructions, in a model with any number, the program
with checks has a stack, which is as high as the compiler counted, no higher than the greatest
height, and high enough for the next instruction; the greatest height is reached. Digits are brought
up by shifts by less than the length of the list. At the end there is one value on the stack, the
value of the program. Likewise evaluation with checks, in any model that gives the variables values,
has after any number of subformulas a stack that holds the operands of the next one, and at the end
one value, which is what evaluation gives. -/
theorem stack_discipline (hfew : vars.length < 64) (hf : ∀ x, f.Mentions x → x ∈ vars) :
    (∃ program, Program.compile f vars = .ok program ∧ program.width = vars.length ∧
      (f.checkedCompilation? vars f.postorder.length).map (·.finish vars.length) = some program ∧
      (∀ k ≤ program.instructions.length, ∃ c, f.checkedCompilation? vars k = some c ∧
        program.InStep k c) ∧
      (∃ k c, f.checkedCompilation? vars k = some c ∧ c.height = program.maxHeight) ∧
      (∀ place, .load place ∈ program.instructions →
        ∃ shift < vars.length, Instruction.shift? vars.length place = some shift) ∧
      ∀ number, program.checkedStack? number program.instructions.length =
        some [program.eval number]) ∧
    ∀ m : Model, (∀ x, f.Mentions x → m.contains x = true) →
      (∀ k ≤ f.postorder.length, ∃ values, f.checkedValues? m k = some values ∧
        ∀ g, f.postorder[k]? = some g → g.operands.length ≤ values.length) ∧
      ∃ value, f.checkedValues? m f.postorder.length = some [value] ∧
        f.evaluate m = .ok value := by
  constructor
  · obtain ⟨c, hc, hheight, hcode, hcompile⟩ := exists_checkedCompilation? hf
    have hlength : (c.finish vars.length).instructions.length = f.postorder.length := by
      rw [hcode, List.length_map]
    refine ⟨_, hcompile, rfl, by rw [hc, Option.map_some],
      fun k _ => Program.exists_inStep hfew hf hc hcode k, ?_, fun place hplace =>
      Instruction.exists_shift? (Instruction.place_lt_of_mem hf (hcode ▸ hplace)),
      fun number => ?_⟩
    · rw [checkedCompilation?, List.take_length] at hc
      rcases Compilation.exists_take_height_eq hc with hzero | hreached
      · exact ⟨0, .start, rfl, hzero.symm⟩
      · exact hreached
    · obtain ⟨c', hc', hstep⟩ := Program.exists_inStep hfew hf hc hcode f.postorder.length
      obtain rfl := Option.some.inj (hc.symm.trans hc')
      obtain ⟨stack, hstack, hone⟩ := hstep.stack number
      obtain ⟨value, rfl⟩ := List.length_eq_one_iff.mp (hone.trans hheight)
      rw [← hlength] at hstack
      rw [hstack, Program.eval, Program.run?_of_checkedStack? hstack]
  · intro m hm
    have hcovers : m.covers f = true := by
      simpa only [Model.covers, List.all_eq_true, mem_vars_iff] using hm
    have hvalues := Model.covers_iff.mp hcovers
    refine ⟨fun k _ => ?_, ?_⟩
    · obtain ⟨values, hstack, hnext, -⟩ := exists_checkedValues? hvalues k
      exact ⟨values, hstack, hnext⟩
    · obtain ⟨values, hstack, -, hone⟩ := exists_checkedValues? hvalues f.postorder.length
      obtain ⟨value, rfl⟩ := List.length_eq_one_iff.mp (hone rfl)
      refine ⟨value, hstack, ?_⟩
      rw [evaluate, Model.firstMissing?_eq_none_iff.mpr hcovers,
        evaluateCovered?_of_checkedValues? hstack, Option.getD_some]

/-- Over `x`, `q`, `p` the program of `(p->~(q&p))` has three values on the stack after its three
loads, which is as high as it gets. -/
theorem stack_discipline_three_variables :
    ∃ program, Program.compile (binary .implies (var "p") (not (binary .and (var "q") (var "p"))))
        ["x", "q", "p"] = .ok program ∧
      program.maxHeight = 3 ∧
      (∀ number, ∃ stack, program.checkedStack? number 3 = some stack ∧ stack.length = 3) ∧
      ∀ number, program.checkedStack? number 6 = some [program.eval number] := by
  obtain ⟨⟨program, hcompile, -, hprogram, hsteps, -, -, hend⟩, -⟩ :=
    @stack_discipline ["x", "q", "p"]
      (binary .implies (var "p") (not (binary .and (var "q") (var "p"))))
      (by decide) (by rintro x (rfl | rfl | rfl) <;> decide)
  simp only [checkedCompilation?, postorder_eq] at hprogram hsteps
  obtain rfl := Option.some.inj hprogram
  refine ⟨_, hcompile, rfl, fun number => ?_, hend⟩
  obtain ⟨c, hc, hstep⟩ := hsteps 3 (by decide)
  obtain rfl := Option.some.inj hc
  exact hstep.stack number

end Formula

end Propositional

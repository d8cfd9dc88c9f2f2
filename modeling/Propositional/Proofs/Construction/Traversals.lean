import Propositional.Proofs.Construction.Nodes

/-!
# Traversals by Recursion on the Operands

The two traversals keep what is still to visit on a stack of their own. A stack stands for the
traversals of its entries, one after the other, where an entry whose operands are on the stack
already stands for itself; so what a traversal lists from any stack on, and with it from the
formula alone, follows by recursion, and `next?` yields it one by one.

Read back in postorder, the symbols find the formulas for their operands on top of the stack of
finished formulas and leave one more there (`Formula.foldlM_buildStep?`).

## Main results

* `Preorder.toList_eq`, `Postorder.toList_eq`: what a traversal lists from any stack on.
* `Formula.preorder_eq_cons`, `Formula.postorder_eq_append`: the two recursions.
* `Preorder.toList_eq_next`, `Postorder.toList_eq_next`: what is listed is what `next?` yields.
* `Formula.ofPostorder?_map_root`: a formula is built again from its symbols in postorder.
-/

namespace Propositional

/-! ### From any stack on -/

namespace Formula

/-- **The preorder is the formula, then the preorders of its operands.** -/
theorem preorder_eq_cons (f : Formula) : f.preorder = f :: f.operands.flatMap preorder := by
  simp only [preorder_eq]
  cases f <;> simp [preorderForm, operands, preorder_eq]

/-- **The postorder is the postorders of the operands, then the formula.** -/
theorem postorder_eq_append (f : Formula) :
    f.postorder = f.operands.flatMap postorder ++ [f] := by
  simp only [postorder_eq]
  cases f <;> simp [postorderForm, operands, postorder_eq]

end Formula

namespace Preorder

/-- Going through a stack is going through the preorders of its formulas. -/
theorem foldl_eq {β : Type} (step : β → Formula → β) (b : β) (t : Preorder) :
    t.foldl step b = (t.pending.flatMap Formula.preorder).foldl step b := by
  obtain ⟨pending⟩ := t
  induction pending generalizing b with
  | nil => exact foldl_nil step b
  | cons f rest ih =>
      rw [Formula.foldl_preorder_cons, ih, List.flatMap_cons, List.foldl_append,
        Formula.preorder_eq]

/-- **From any stack on the preorders of its formulas are listed.** -/
theorem toList_eq (t : Preorder) : t.toList = t.pending.flatMap Formula.preorder := by
  rw [toList, foldl_eq]
  simp

/-- What is listed is what `next?` yields. -/
theorem toList_eq_next (t : Preorder) :
    t.toList = match t.next? with
      | none => []
      | some (f, t') => f :: t'.toList := by
  obtain ⟨_ | ⟨f, rest⟩⟩ := t
  · rw [toList_eq]
    rfl
  · rw [toList_eq, List.flatMap_cons, Formula.preorder_eq_cons]
    simp only [next?, toList_eq, List.flatMap_append, List.cons_append]

end Preorder

namespace Postorder

/-- What an entry of the stack stands for: a formula whose operands are on the stack already stands
for itself. -/
def entryList : Formula × Bool → List Formula
  | (f, true) => [f]
  | (f, false) => f.postorder

/-- Going through a stack is going through what its entries stand for. -/
theorem foldl_eq {β : Type} (step : β → Formula → β) (b : β) (t : Postorder) :
    t.foldl step b = (t.pending.flatMap entryList).foldl step b := by
  obtain ⟨pending⟩ := t
  induction pending generalizing b with
  | nil => exact foldl_nil step b
  | cons entry rest ih =>
      obtain ⟨f, _ | _⟩ := entry
      · rw [Formula.foldl_postorder_cons, ih, List.flatMap_cons, List.foldl_append, entryList,
          Formula.postorder_eq]
      · rw [foldl_of_advance step b (advance_marked f rest), ih]
        rfl

/-- **From any stack on what its entries stand for is listed.** -/
theorem toList_eq (t : Postorder) : t.toList = t.pending.flatMap entryList := by
  rw [toList, foldl_eq]
  simp

/-- A stack that is not empty yields a formula. -/
theorem eq_nil_of_advance {pending : List (Formula × Bool)} (h : advance pending = none) :
    pending = [] := by
  fun_induction advance pending with
  | case1 => rfl
  | case2 | case3 | case4 => cases h
  | case5 _ _ ih | case6 _ _ _ _ ih => cases ih h

/-- What is listed is what `next?` yields. -/
theorem toList_eq_next (t : Postorder) :
    t.toList = match t.next? with
      | none => []
      | some (f, t') => f :: t'.toList := by
  obtain ⟨pending⟩ := t
  rw [next?]
  cases h : advance pending with
  | none =>
      obtain rfl := eq_nil_of_advance h
      rw [toList_eq]
      rfl
  | some next =>
      obtain ⟨f, rest⟩ := next
      rw [toList, foldl_of_advance _ _ h, foldl_eq]
      simp [toList_eq]

end Postorder

namespace Formula

/-! ### Symbols in postorder -/

/-- **A symbol takes its operands off the stack** and leaves the formula that the checked builder
makes of them. -/
theorem buildStep?_of_ofRoot? {symbol : String} {operands : List Formula} {f : Formula}
    (h : ofRoot? symbol operands = .ok f) (finished : List Formula) :
    buildStep? (operands.reverse ++ finished) symbol = some (f :: finished) := by
  rcases symbol_cases symbol with hname | ⟨op, rfl⟩ | ⟨hname, hsymbol⟩
  · rw [ofRoot?_of_isVariable hname] at h
    split at h
    · rename_i hlength
      obtain rfl := Except.ok.inj h
      obtain rfl := List.eq_nil_of_length_eq_zero hlength
      exact if_pos hname
    · cases h
  · rw [ofRoot?_symbol] at h
    unfold ofOperator? at h
    split at h
    case h_4 => cases h
    all_goals
      obtain rfl := Except.ok.inj h
      simp [buildStep?, Operator.isVariable_symbol, Operator.ofSymbol?_symbol]
  · rw [ofRoot?_of_unknown hname hsymbol] at h
    cases h

/-- Formulas whose symbols leave them on the stack are left there one on top of the other. -/
theorem foldlM_buildStep?_flatMap {gs : List Formula}
    (h : ∀ g ∈ gs, ∀ finished,
      (g.postorder.map root).foldlM buildStep? finished = some (g :: finished))
    (finished : List Formula) :
    ((gs.flatMap postorder).map root).foldlM buildStep? finished =
      some (gs.reverse ++ finished) := by
  induction gs generalizing finished with
  | nil => rfl
  | cons g gs ih =>
      obtain ⟨hg, hgs⟩ := List.forall_mem_cons.mp h
      rw [List.flatMap_cons, List.map_append, List.foldlM_append, hg, Option.bind_eq_bind,
        Option.bind_some, ih hgs, List.reverse_cons, List.append_assoc]
      rfl

/-- So is a formula whose operands are, as its own symbol comes last. -/
theorem foldlM_buildStep?_of_operands {f : Formula} (hf : f.WellFormed)
    (h : ∀ g ∈ f.operands, ∀ finished,
      (g.postorder.map root).foldlM buildStep? finished = some (g :: finished))
    (finished : List Formula) :
    (f.postorder.map root).foldlM buildStep? finished = some (f :: finished) := by
  have hnode : f ∈ f.preorder := by
    rw [preorder_eq_cons]
    exact List.mem_cons_self
  have hbuilt := properNode_iff_ofRoot?.mp (wellFormed_iff_forall_properNode.mp hf f hnode)
  rw [postorder_eq_append, List.map_append, List.foldlM_append, foldlM_buildStep?_flatMap h,
    Option.bind_eq_bind, Option.bind_some, List.map_singleton, List.foldlM_cons,
    buildStep?_of_ofRoot? hbuilt]
  rfl

/-- **The symbols of a formula leave the formula on the stack**, whatever is there before. -/
theorem foldlM_buildStep? {f : Formula} (hf : f.WellFormed) (finished : List Formula) :
    (f.postorder.map root).foldlM buildStep? finished = some (f :: finished) := by
  induction f using induction_on_operands generalizing finished with
  | var name => exact foldlM_buildStep?_of_operands hf (by simp [operands]) finished
  | operation f op hop ih =>
      exact foldlM_buildStep?_of_operands hf (fun g hg => ih g hg (hf.of_operand hg)) finished

/-- **A formula is built again from its symbols in postorder.** -/
theorem ofPostorder?_map_root {f : Formula} (hf : f.WellFormed) :
    ofPostorder? (f.postorder.map root) = some f := by
  rw [ofPostorder?, foldlM_buildStep? hf]

end Formula

end Propositional

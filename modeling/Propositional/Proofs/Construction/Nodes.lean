import Mathlib.Data.List.Basic
import Propositional.Formula.Construction
import Propositional.Formula.Equality
import Propositional.Formula.Traversal
import Propositional.Text.Standard

/-!
# The Nodes of a Formula

A node of a formula ought to be a variable with a valid name or an operator with as many
operands as its arity (`Formula.ProperNode`). Formulas whose nodes are all like that are
the well-formed ones, so that the invariant of the library can be read off the nodes and
kept by looking at names only.

The checked builders return well-formed formulas if they are given such operands, and an
operator with the right number of operands is never refused. A printer that looks at the
operators and the lists of operands, and gives up at an operator with more than two,
never gives up.

What does not depend on which operator stands at a node is proved of all operators at once, by
induction over the lists of operands.

## Main results

* `Formula.induction_on_operands`: a formula is a variable or an operation.
* `Formula.wellFormed_iff_forall_properNode`: a formula is well-formed iff its nodes are
  what they ought to be.
* `Formula.properNode_iff_ofRoot?`: a node is what it ought to be iff the checked builder
  makes it.
* `Formula.wellFormed_of_ofRoot?`: what the checked builder makes of well-formed operands
  is well-formed.
* `Formula.ofOperator?_eq_rebuild`: a node that gets as many new operands as it had is
  built.
* `Formula.exists_ofRoot?_iff`, `Formula.ofRoot?_eq_unknown_iff`: from which symbols and how many
  operands a formula is built, and which symbols are unknown.
* `Standard.checkedWrite_eq`: the printer never gives up.
-/

namespace Propositional

/-- No operator is written like a variable. -/
theorem Operator.isVariable_symbol (op : Operator) : isVariable op.symbol = false := by
  rcases op with (_ | _) | _ | (_ | _ | _) <;> decide

/-- An operator is found by its symbol, and by no other text. -/
theorem Operator.ofSymbol?_eq_some_iff {s : String} {op : Operator} :
    ofSymbol? s = some op ↔ op.symbol = s := by
  constructor
  · intro h
    rw [ofSymbol?] at h
    have hsymbol := List.find?_some h
    exact beq_iff_eq.mp hsymbol
  · rintro rfl
    exact op.ofSymbol?_symbol

/-- A text is a variable name, the symbol of an operator, or neither. -/
theorem symbol_cases (s : String) :
    isVariable s = true ∨ (∃ op : Operator, op.symbol = s) ∨
      (¬ isVariable s = true ∧ ∀ op : Operator, op.symbol ≠ s) := by
  by_cases hname : isVariable s = true
  · exact .inl hname
  · by_cases hsymbol : ∃ op : Operator, op.symbol = s
    · exact .inr (.inl hsymbol)
    · exact .inr (.inr ⟨hname, fun op hop => hsymbol ⟨op, hop⟩⟩)

namespace Formula

/-- The root of the formula is a variable with a valid name or an operator with as many
operands as its arity. -/
def ProperNode (f : Formula) : Prop :=
  (∃ name, f.asVar? = some name ∧ isVariable name = true) ∨
    ∃ op, f.operator? = some op ∧ f.operands.length = op.arity

/-- The node of a variable is what it ought to be if the name is valid. -/
theorem properNode_var_iff {name : String} :
    (var name).ProperNode ↔ isVariable name = true := by
  simp [ProperNode, asVar?, operator?]

/-- An operator has as many operands as its arity. -/
theorem length_operands {f : Formula} {op : Operator} (h : f.operator? = some op) :
    f.operands.length = op.arity := by
  cases f with
  | var name => cases h
  | const value | not f | binary c f g =>
      obtain rfl := Option.some.inj h
      rfl

/-- The root of an operation is the symbol of its operator. -/
theorem root_of_operator? {f : Formula} {op : Operator} (h : f.operator? = some op) :
    f.root = op.symbol := by
  cases f with
  | var name => cases h
  | const | not | binary =>
      obtain rfl := Option.some.inj h
      rfl

/-- A formula is a variable or an operation on its operands: what holds of every variable, and of
every operation whose operands it holds of, holds of every formula. -/
@[elab_as_elim]
theorem induction_on_operands {motive : Formula → Prop} (var : ∀ name, motive (.var name))
    (operation : ∀ f op, f.operator? = some op → (∀ g ∈ f.operands, motive g) → motive f)
    (f : Formula) : motive f := by
  induction f with
  | var name => exact var name
  | const value => exact operation _ _ rfl (by simp [operands])
  | not f ih => exact operation _ _ rfl (by simpa [operands] using ih)
  | binary c f g ihf ihg => exact operation _ _ rfl (by simpa [operands] using ⟨ihf, ihg⟩)

/-- An operation mentions the variables that its operands mention. -/
theorem mentions_iff_operands {f : Formula} {op : Operator} (h : f.operator? = some op)
    {x : String} : f.Mentions x ↔ ∃ g ∈ f.operands, g.Mentions x := by
  cases f with
  | var name => cases h
  | const value | not f | binary c f g => simp [Mentions, operands]

/-- An operation uses its operator and those that its operands use. -/
theorem uses_iff_operands {f : Formula} {op : Operator} (h : f.operator? = some op)
    {op' : Operator} : f.Uses op' ↔ op' = op ∨ ∃ g ∈ f.operands, g.Uses op' := by
  cases f with
  | var name => cases h
  | const value | not f | binary c f g =>
      obtain rfl := Option.some.inj h
      simp [Uses, operands]

/-- An operand stands below an operator. -/
theorem exists_operator?_of_mem_operands {f g : Formula} (hg : g ∈ f.operands) :
    ∃ op, f.operator? = some op := by
  cases f with
  | var name => cases hg
  | const value | not f | binary c f h => exact ⟨_, rfl⟩

/-- A formula mentions what one of its operands mentions. -/
theorem Mentions.of_operand {f g : Formula} (hg : g ∈ f.operands) {x : String}
    (h : g.Mentions x) : f.Mentions x := by
  obtain ⟨op, hop⟩ := exists_operator?_of_mem_operands hg
  exact (mentions_iff_operands hop).mpr ⟨g, hg, h⟩

/-- The operands of a well-formed formula are well-formed. -/
theorem WellFormed.of_operand {f g : Formula} (h : f.WellFormed) (hg : g ∈ f.operands) :
    g.WellFormed :=
  wellFormed_iff.mpr fun name hname => wellFormed_iff.mp h name (hname.of_operand hg)

/-- A formula uses what one of its operands uses. -/
theorem Uses.of_operand {f g : Formula} (hg : g ∈ f.operands) {op : Operator} (h : g.Uses op) :
    f.Uses op := by
  obtain ⟨root, hroot⟩ := exists_operator?_of_mem_operands hg
  exact (uses_iff_operands hroot).mpr (.inr ⟨g, hg, h⟩)

/-- The node of an operator is what it ought to be. -/
theorem properNode_of_operator? {f : Formula} {op : Operator} (h : f.operator? = some op) :
    f.ProperNode :=
  .inr ⟨op, h, length_operands h⟩

/-- **A formula is well-formed iff all its nodes are what they ought to be.** -/
theorem wellFormed_iff_forall_properNode {f : Formula} :
    f.WellFormed ↔ ∀ g ∈ f.preorder, g.ProperNode := by
  rw [preorder_eq]
  induction f with
  | var name => simp [preorderForm, WellFormed, properNode_var_iff]
  | const value =>
      have hnode : (const value).ProperNode := properNode_of_operator? rfl
      simp [preorderForm, WellFormed, hnode]
  | not f ih =>
      have hnode : f.not.ProperNode := properNode_of_operator? rfl
      simp only [preorderForm, WellFormed, List.forall_mem_cons, hnode, ih, true_and]
  | binary c f g ihf ihg =>
      have hnode : (binary c f g).ProperNode := properNode_of_operator? rfl
      simp only [preorderForm, WellFormed, List.forall_mem_cons, List.forall_mem_append, hnode,
        ihf, ihg, true_and]

/-! ### Checked builders -/

/-- A formula with an operator at the root is well-formed if its operands are. -/
theorem wellFormed_of_operands {f : Formula} {op : Operator} (h : f.operator? = some op)
    (hoperands : ∀ g ∈ f.operands, g.WellFormed) : f.WellFormed := by
  cases f with
  | var name => cases h
  | const value => exact trivial
  | not f => exact hoperands f List.mem_cons_self
  | binary c f g => exact ⟨hoperands f (by simp [operands]), hoperands g (by simp [operands])⟩

/-- A variable that is built is well-formed. -/
theorem wellFormed_of_ofName? {name : String} {f : Formula} (h : ofName? name = .ok f) :
    f.WellFormed := by
  rw [ofName?] at h
  split at h
  · rename_i hname
    obtain rfl := Except.ok.inj h
    exact hname
  · cases h

/-- An operation that is built from well-formed operands is well-formed. -/
theorem wellFormed_of_ofOperator? {op : Operator} {operands : List Formula} {f : Formula}
    (h : ofOperator? op operands = .ok f) (hoperands : ∀ g ∈ operands, g.WellFormed) :
    f.WellFormed := by
  obtain ⟨hop, rfl⟩ := operands_of_ofOperator? h
  exact wellFormed_of_operands hop hoperands

/-- **What is built from a symbol and well-formed operands is well-formed.** -/
theorem wellFormed_of_ofRoot? {symbol : String} {operands : List Formula} {f : Formula}
    (h : ofRoot? symbol operands = .ok f) (hoperands : ∀ g ∈ operands, g.WellFormed) :
    f.WellFormed := by
  rw [ofRoot?] at h
  split at h
  · rename_i hname
    split at h
    · obtain rfl := Except.ok.inj h
      exact hname
    · cases h
  · split at h
    · exact wellFormed_of_ofOperator? h hoperands
    · cases h

/-- **A node that gets as many new operands as it had is built**, and is the node with the
new operands in place of the old ones. -/
theorem ofOperator?_eq_rebuild {f : Formula} {op : Operator} (h : f.operator? = some op)
    {operands : List Formula} (hlength : operands.length = f.operands.length) :
    ofOperator? op operands = .ok (f.rebuild operands) := by
  cases f with
  | var name => cases h
  | const value =>
      obtain rfl := Option.some.inj h
      obtain rfl := List.eq_nil_of_length_eq_zero hlength
      rfl
  | not a =>
      obtain rfl := Option.some.inj h
      obtain ⟨a', rfl⟩ := List.length_eq_one_iff.mp hlength
      rw [rebuild, keepShared_eq]
      rfl
  | binary c a b =>
      obtain rfl := Option.some.inj h
      obtain ⟨a', b', rfl⟩ := List.length_eq_two.mp hlength
      rw [rebuild, keepShared_eq]
      rfl

/-- An operator is applied to as many operands as it takes. -/
theorem exists_ofOperator?_iff {op : Operator} {operands : List Formula} :
    (∃ f, ofOperator? op operands = .ok f) ↔ operands.length = op.arity := by
  constructor
  · rintro ⟨f, hf⟩
    obtain ⟨hop, rfl⟩ := operands_of_ofOperator? hf
    exact length_operands hop
  · intro h
    cases op with
    | constant value =>
        obtain rfl := List.eq_nil_of_length_eq_zero h
        exact ⟨_, rfl⟩
    | negation =>
        obtain ⟨f, rfl⟩ := List.length_eq_one_iff.mp h
        exact ⟨_, rfl⟩
    | binary c =>
        obtain ⟨f, g, rfl⟩ := List.length_eq_two.mp h
        exact ⟨_, rfl⟩

/-- It refuses any other number of them. -/
theorem ofOperator?_of_length_ne {op : Operator} {operands : List Formula}
    (h : operands.length ≠ op.arity) :
    ofOperator? op operands = .error (.invalidArity op.symbol op.arity operands.length) := by
  rcases hbuilt : ofOperator? op operands with e | f
  · unfold ofOperator? at hbuilt
    split at hbuilt
    case h_4 => exact hbuilt.symm
    all_goals cases hbuilt
  · exact absurd (exists_ofOperator?_iff.mp ⟨f, hbuilt⟩) h

/-- A variable name is built without operands. -/
theorem ofRoot?_of_isVariable {s : String} (h : isVariable s = true) (operands : List Formula) :
    ofRoot? s operands =
      if operands.length = 0 then .ok (var s) else .error (.invalidArity s 0 operands.length) := by
  cases operands with
  | nil => simp [ofRoot?, h]
  | cons f fs => simp [ofRoot?, h]

/-- The symbol of an operator is built like the operator. -/
theorem ofRoot?_symbol (op : Operator) (operands : List Formula) :
    ofRoot? op.symbol operands = ofOperator? op operands := by
  simp only [ofRoot?, op.isVariable_symbol, op.ofSymbol?_symbol, if_false, Bool.false_eq_true]

/-- Any other text is unknown. -/
theorem ofRoot?_of_unknown {s : String} (hname : ¬ isVariable s = true)
    (hsymbol : ∀ op : Operator, op.symbol ≠ s) (operands : List Formula) :
    ofRoot? s operands = .error (.unknownSymbol s) := by
  have hnone : Operator.ofSymbol? s = none := by
    rw [Option.eq_none_iff_forall_ne_some]
    exact fun op hop => hsymbol op (Operator.ofSymbol?_eq_some_iff.mp hop)
  rw [ofRoot?, if_neg hname, hnone]

/-- **What is built has the symbol at its root**, and the operands that were given. -/
theorem of_ofRoot? {s : String} {operands : List Formula} {f : Formula}
    (h : ofRoot? s operands = .ok f) : f.root = s ∧ f.operands = operands := by
  rcases symbol_cases s with hname | ⟨op, rfl⟩ | ⟨hname, hsymbol⟩
  · rw [ofRoot?_of_isVariable hname] at h
    split at h
    · rename_i hlength
      obtain rfl := Except.ok.inj h
      exact ⟨rfl, (List.eq_nil_of_length_eq_zero hlength).symm⟩
    · cases h
  · rw [ofRoot?_symbol] at h
    obtain ⟨hop, hoperands⟩ := operands_of_ofOperator? h
    exact ⟨root_of_operator? hop, hoperands⟩
  · rw [ofRoot?_of_unknown hname hsymbol] at h
    cases h

/-- **A formula is built from a symbol iff it gets as many operands as the symbol takes.** -/
theorem exists_ofRoot?_iff {s : String} {operands : List Formula} :
    (∃ f, ofRoot? s operands = .ok f) ↔
      isVariable s = true ∧ operands.length = 0 ∨
        ∃ op : Operator, op.symbol = s ∧ operands.length = op.arity := by
  rcases symbol_cases s with hname | ⟨op, rfl⟩ | ⟨hname, hsymbol⟩
  · have hsymbol : ∀ op : Operator, op.symbol ≠ s := by
      rintro op rfl
      exact absurd hname (by rw [op.isVariable_symbol]; simp)
    rw [ofRoot?_of_isVariable hname]
    by_cases hlength : operands.length = 0 <;> simp [hname, hlength, hsymbol]
  · have hop : ∀ op' : Operator, op'.symbol = op.symbol ↔ op' = op := by
      intro op'
      rw [← Operator.ofSymbol?_eq_some_iff, op.ofSymbol?_symbol, Option.some.injEq, eq_comm]
    simp [ofRoot?_symbol, exists_ofOperator?_iff, op.isVariable_symbol, hop]
  · simp [ofRoot?_of_unknown hname hsymbol, hname, hsymbol]

/-- **A symbol is unknown iff it is neither a variable name nor the symbol of an operator.** -/
theorem ofRoot?_eq_unknown_iff {s : String} {operands : List Formula} :
    ofRoot? s operands = .error (.unknownSymbol s) ↔
      ¬ isVariable s = true ∧ ∀ op : Operator, op.symbol ≠ s := by
  constructor
  · intro h
    rcases symbol_cases s with hname | ⟨op, rfl⟩ | hneither
    · rw [ofRoot?_of_isVariable hname] at h
      split at h <;> cases h
    · rw [ofRoot?_symbol] at h
      by_cases hlength : operands.length = op.arity
      · obtain ⟨f, hf⟩ := exists_ofOperator?_iff.mpr hlength
        rw [hf] at h
        cases h
      · rw [ofOperator?_of_length_ne hlength] at h
        cases h
    · exact hneither
  · rintro ⟨hname, hsymbol⟩
    exact ofRoot?_of_unknown hname hsymbol operands

/-- Operations with the same operator are equal iff they have the same operands. -/
theorem eq_iff_operands_eq {f g : Formula} {op : Operator} (hf : f.operator? = some op)
    (hg : g.operator? = some op) : f = g ↔ f.operands = g.operands := by
  refine ⟨congrArg operands, fun h => ?_⟩
  have hbuilt := ofOperator?_eq_rebuild hf rfl
  rw [rebuild_operands, h, ofOperator?_eq_rebuild hg rfl, rebuild_operands] at hbuilt
  exact (Except.ok.inj hbuilt).symm

/-- **A node is what it ought to be iff the checked builder makes it** of the symbol at the
root and the operands. -/
theorem properNode_iff_ofRoot? {f : Formula} :
    f.ProperNode ↔ ofRoot? f.root f.operands = .ok f := by
  cases hop : f.operator? with
  | none =>
      cases f with
      | const | not | binary => cases hop
      | var name =>
          rw [properNode_var_iff, root, operands]
          rcases symbol_cases name with hname | ⟨op, rfl⟩ | ⟨hname, hsymbol⟩
          · simp [hname, ofRoot?_of_isVariable hname]
          · rw [op.isVariable_symbol, ofRoot?_symbol]
            refine iff_of_false Bool.false_ne_true fun h => ?_
            cases (operands_of_ofOperator? h).1
          · simp [hname, ofRoot?_of_unknown hname hsymbol]
  | some op =>
      have hbuilt : ofOperator? op f.operands = .ok f := by
        rw [ofOperator?_eq_rebuild hop rfl, rebuild_operands]
      rw [root_of_operator? hop, ofRoot?_symbol, hbuilt]
      exact iff_of_true (properNode_of_operator? hop) rfl

/-- A formula has one node more than its operands together. -/
theorem nodeCount_eq_operands (f : Formula) :
    f.nodeCount = 1 + totalWeight nodeCount f.operands := by
  cases f with
  | var name => rfl
  | const value => rfl
  | not f => rfl
  | binary c f g => rw [nodeCount, Nat.add_assoc]; rfl

end Formula

namespace Standard

/-- Writes the pieces after what has been written, as `write` does, by looking at the
operator and the list of operands of a formula. There is no way to write an operator with
more than two operands, and then the result is `none`. -/
def checkedWrite (written : String) (pieces : List Piece) : Option String :=
  match pieces with
  | [] => some written
  | .symbol s :: rest => checkedWrite (written ++ s) rest
  | .formula f :: rest =>
    match f.operator?, _operands : f.operands with
    | none, _ => checkedWrite (written ++ f.root) rest
    | some op, [] => checkedWrite (written ++ op.symbol) rest
    | some op, [a] => checkedWrite (written ++ op.symbol) (.formula a :: rest)
    | some op, [a, b] =>
      checkedWrite (written ++ "(")
        (.formula a :: .symbol op.symbol :: .formula b :: .symbol ")" :: rest)
    | some _, _ :: _ :: _ :: _ => none
termination_by totalWeight Piece.weight pieces
decreasing_by
  · simp [Piece.weight]
  all_goals
    have hcount := f.nodeCount_eq_operands
    simp only [_operands, totalWeight_cons, totalWeight_nil] at hcount
    simp only [totalWeight_cons, Piece.weight]
    omega

/-- **The printer never gives up**, and writes what it ought to. -/
theorem checkedWrite_eq (written : String) (pieces : List Piece) :
    checkedWrite written pieces = some (write written pieces) := by
  fun_induction write written pieces with
  | case1 written => rw [checkedWrite]
  | case2 written s rest ih => rw [checkedWrite, ih]
  | case3 written rest name ih => rw [checkedWrite]; exact ih
  | case4 written rest value ih => rw [checkedWrite]; exact ih
  | case5 written rest a ih => rw [checkedWrite]; exact ih
  | case6 written rest c a b ih => rw [checkedWrite]; exact ih

end Standard

end Propositional

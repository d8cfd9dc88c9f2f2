import Mathlib.Data.List.Forall2
import Propositional.Proofs.Construction.Nodes
import Propositional.Proofs.Text.PolishNotation
import Propositional.Proofs.Text.StandardNotation

/-!
# The Comparison of Stored Formulas

A formula in memory is a node that keeps its hash code and its size and refers to the nodes of its
operands, and one node may be an operand of many. Formulas are compared by a stack of pairs. A
pair at one place needs no look, different hash codes or sizes settle the matter at once, and only
otherwise are the symbols compared and the operands put on the stack.

The memory of this module holds whatever was built, from parts that were there before, and next to
every node the tree that it was built as. Nothing is assumed of the hash code but that it is found
from the tree. The size is cut off on the way, so that different trees may well agree in both. What
makes the shortcuts right is that a node tells the truth about its tree (`Memory.describes`) and
that one place holds one node (`Memory.eq_of_place`).

## Main definitions

* `Stored`: a formula as it is stored.
* `Stored.allEqual`: the comparison, with its three shortcuts.
* `Memory`: what is in memory after formulas were built one after the other.

## Main results

* `Memory.describes`: the nodes in memory tell the truth about their trees.
* `Memory.exists_built`: every well-formed formula can be built.
* `Memory.allEqual_iff`: the comparison of a stack of pairs decides whether all trees are equal.
* `Formula.eq_iff_text_eq`, `Formula.eq_iff_polish_eq`: formulas with the same text are equal.
* `Formula.comparison_exact`: comparing formulas in memory, trees and texts is all the same.
-/

namespace Propositional

/-! ### Stored formulas -/

/-- A formula as it is stored. Its node has a place of its own, keeps the hash code and the
size of the formula, and refers to the operands, which are stored formulas as well. -/
inductive Stored
  | var (place : Nat) (hash : UInt64) (size : Nat) (name : String)
  | op (place : Nat) (hash : UInt64) (size : Nat) (operator : Operator) (operands : List Stored)

namespace Stored

/-- The place of the node. -/
def place : Stored → Nat
  | var place .. | op place .. => place

/-- The hash code that the node keeps. -/
def hash : Stored → UInt64
  | var _ hash .. | op _ hash .. => hash

/-- The size that the node keeps. -/
def size : Stored → Nat
  | var _ _ size .. | op _ _ size .. => size

/-- The size of a node over the operands, added up from the left and cut off at
`Formula.maxSize` on the way. -/
def sizeOver (operands : List Stored) : Nat :=
  operands.foldl (fun n s => min Formula.maxSize (n + s.size)) 1

/-- The pairs of operands that are left to be compared are lighter than the first operator. -/
theorem totalWeight_zip_le (xs ys : List Stored) :
    totalWeight (fun p : Stored × Stored => sizeOf p.1) (xs.zip ys).reverse ≤ sizeOf xs := by
  induction xs generalizing ys with
  | nil => simp
  | cons x xs ih =>
      cases ys with
      | nil => simp
      | cons y ys =>
          have := ih ys
          simp only [List.zip_cons_cons, List.reverse_cons, totalWeight_append, totalWeight_cons,
            totalWeight_nil, List.cons.sizeOf_spec]
          omega

/-- Whether the formulas in each of the pairs are equal. The pairs stand on a stack, the next
one first. Nothing is left to be done for a pair that is stored at the same place. Otherwise
different hash codes or sizes decide, or else different symbols, and if there is still no
decision the operands are put on the stack in pairs. -/
def allEqual (pairs : List (Stored × Stored)) : Bool :=
  match pairs with
  | [] => true
  | (s, t) :: rest =>
    if s.place = t.place then allEqual rest
    else if s.hash ≠ t.hash ∨ s.size ≠ t.size then false
    else
      match s, t with
      | var _ _ _ x, var _ _ _ y => if x = y then allEqual rest else false
      | op _ _ _ a xs, op _ _ _ b ys =>
        if a = b then allEqual ((xs.zip ys).reverse ++ rest) else false
      | _, _ => false
termination_by totalWeight (fun p : Stored × Stored => sizeOf p.1) pairs
decreasing_by
  · cases s <;> simp only [totalWeight_cons, var.sizeOf_spec, op.sizeOf_spec] <;> omega
  · simp only [totalWeight_cons, var.sizeOf_spec]
    omega
  · have := totalWeight_zip_le xs ys
    simp only [totalWeight_cons, totalWeight_append, op.sizeOf_spec]
    omega

end Stored

/-! ### Formulas in memory -/

/-- What is in memory after formulas were built one after the other, each in a new place, from
a symbol and from operands that are in memory already. Next to every stored formula stands the
tree that it was built as. The hash code of a tree may be any function of it. -/
inductive Memory (code : Formula → UInt64) : List (Stored × Formula) → Prop
  | empty : Memory code []
  | var {memory : List (Stored × Formula)} {name : String} {f : Formula} :
      Memory code memory → Formula.ofName? name = .ok f →
      Memory code (memory ++ [(.var memory.length (code f) 1 name, f)])
  | op {memory entries : List (Stored × Formula)} {operator : Operator} {f : Formula} :
      Memory code memory → entries ⊆ memory →
      Formula.ofOperator? operator (entries.map Prod.snd) = .ok f →
      Memory code (memory ++ [(.op memory.length (code f)
        (Stored.sizeOver (entries.map Prod.fst)) operator (entries.map Prod.fst), f)])

/-- The node has the symbol and the operands of the tree, and these are in memory. -/
def Stored.Roots (memory : List (Stored × Formula)) : Stored → Formula → Prop
  | var _ _ _ name, f => f = .var name
  | op _ _ _ operator operands, f => f.operator? = some operator ∧
      ∃ entries, entries ⊆ memory ∧ entries.map Prod.fst = operands ∧
        entries.map Prod.snd = f.operands

/-- What the node of a stored formula tells about the tree that it was built as. -/
structure Stored.Describes (code : Formula → UInt64) (memory : List (Stored × Formula))
    (s : Stored) (f : Formula) : Prop where
  hash_eq : s.hash = code f
  size_eq : s.size = f.size
  roots : s.Roots memory f

namespace Formula

/-- The size of an operation is added up from those of its operands. -/
theorem size_eq_foldl {f : Formula} {op : Operator} (h : f.operator? = some op) :
    f.size = f.operands.foldl (fun n g => min maxSize (n + g.size)) 1 := by
  cases f with
  | var name => cases h
  | const value => rfl
  | not f => rfl
  | binary c f g =>
      simp only [size, operands, List.foldl_cons, List.foldl_nil]
      omega

/-- Two well-formed formulas with the same text are the same tree. -/
theorem eq_iff_text_eq {f g : Formula} (hf : f.WellFormed) (hg : g.WellFormed) :
    f = g ↔ f.text = g.text := by
  refine ⟨congrArg text, fun h => ?_⟩
  have hread : parse g.text = .ok f := parse_eq_ok_iff.mpr ⟨hf, h⟩
  rw [parse_eq_ok_iff.mpr ⟨hg, rfl⟩] at hread
  exact (Except.ok.inj hread).symm

/-- Two well-formed formulas with the same text in Polish notation are the same tree. -/
theorem eq_iff_polish_eq {f g : Formula} (hf : f.WellFormed) (hg : g.WellFormed) :
    f = g ↔ f.polish = g.polish := by
  refine ⟨congrArg polish, fun h => ?_⟩
  have hread : parsePolish g.polish = .ok f := parsePolish_eq_ok_iff.mpr ⟨hf, h⟩
  rw [parsePolish_eq_ok_iff.mpr ⟨hg, rfl⟩] at hread
  exact (Except.ok.inj hread).symm

end Formula

namespace Memory

variable {code : Formula → UInt64} {memory : List (Stored × Formula)} {p q : Stored × Formula}

/-- The place of what was built last is the number of formulas that were built before. -/
theorem place_of_getElem?_append {last : Stored × Formula} {i : Nat}
    (hmemory : memory[i]? = some p → p.1.place = i) (hlast : last.1.place = memory.length)
    (hi : (memory ++ [last])[i]? = some p) : p.1.place = i := by
  rw [List.getElem?_append] at hi
  split at hi
  · exact hmemory hi
  · obtain ⟨hlt, rfl⟩ := List.getElem?_eq_some_iff.mp hi
    rw [List.getElem_singleton, hlast]
    rw [List.length_singleton] at hlt
    omega

/-- Every formula is stored at the place where it was built. -/
theorem place_of_getElem? (h : Memory code memory) {i : Nat} (hi : memory[i]? = some p) :
    p.1.place = i := by
  induction h with
  | empty => cases hi
  | var _ _ ih => exact place_of_getElem?_append ih rfl hi
  | op _ _ _ ih => exact place_of_getElem?_append ih rfl hi

/-- There is one formula at a place. -/
theorem eq_of_place (h : Memory code memory) (hp : p ∈ memory) (hq : q ∈ memory)
    (hplace : p.1.place = q.1.place) : p = q := by
  obtain ⟨i, hi⟩ := List.getElem?_of_mem hp
  obtain ⟨j, hj⟩ := List.getElem?_of_mem hq
  obtain rfl : i = j := by rw [← h.place_of_getElem? hi, ← h.place_of_getElem? hj, hplace]
  exact Option.some.inj (hi.symm.trans hj)

end Memory

namespace Stored

variable {code : Formula → UInt64} {memory more : List (Stored × Formula)} {s : Stored}
  {f : Formula}

/-- What a node tells about its tree is still true when memory has grown. -/
theorem Describes.append (h : s.Describes code memory f) : s.Describes code (memory ++ more) f := by
  refine ⟨h.hash_eq, h.size_eq, ?_⟩
  cases s with
  | var => exact h.roots
  | op =>
      obtain ⟨hop, entries, hsub, heq⟩ := h.roots
      exact ⟨hop, entries, List.subset_append_of_subset_left more hsub, heq⟩

/-- The size of a node over operands that are in memory is the size of the tree. -/
theorem sizeOver_eq {entries : List (Stored × Formula)}
    (hentries : ∀ p ∈ entries, p.1.Describes code memory p.2) :
    sizeOver (entries.map Prod.fst)
      = (entries.map Prod.snd).foldl (fun n g => min Formula.maxSize (n + g.size)) 1 := by
  rw [sizeOver, List.foldl_map, List.foldl_map]
  refine List.foldl_ext _ _ _ fun n p hp => ?_
  rw [(hentries p hp).size_eq]

end Stored

namespace Memory

variable {code : Formula → UInt64} {memory : List (Stored × Formula)} {p q : Stored × Formula}

/-- **What the nodes in memory keep is true** of the trees that they were built as. -/
theorem describes (h : Memory code memory) (hp : p ∈ memory) :
    p.1.Describes code memory p.2 := by
  induction h generalizing p with
  | empty => cases hp
  | @var memory name f _ hbuilt ih =>
      rcases List.mem_append.mp hp with hp | hp
      · exact (ih hp).append
      · obtain rfl := List.mem_singleton.mp hp
        obtain rfl : f = .var name := by
          unfold Formula.ofName? at hbuilt
          split at hbuilt
          · exact (Except.ok.inj hbuilt).symm
          · cases hbuilt
        exact ⟨rfl, rfl, rfl⟩
  | @op memory entries operator f _ hsub hbuilt ih =>
      rcases List.mem_append.mp hp with hp | hp
      · exact (ih hp).append
      · obtain rfl := List.mem_singleton.mp hp
        obtain ⟨hop, hoperands⟩ := Formula.operands_of_ofOperator? hbuilt
        have hsize : Stored.sizeOver (entries.map Prod.fst) = f.size := by
          rw [Stored.sizeOver_eq fun p hp => ih (hsub hp), Formula.size_eq_foldl hop, hoperands]
        exact ⟨rfl, hsize, hop, entries, List.subset_append_of_subset_left _ hsub, rfl,
          hoperands.symm⟩

/-- An operation can be built over operands that are in memory. -/
theorem exists_op (h : Memory code memory) {f : Formula} {operator : Operator}
    (hf : f.operator? = some operator) {entries : List (Stored × Formula)}
    (hsub : entries ⊆ memory) (hoperands : entries.map Prod.snd = f.operands) :
    ∃ s, Memory code (memory ++ [(s, f)]) := by
  have hbuilt : Formula.ofOperator? operator (entries.map Prod.snd) = .ok f := by
    rw [hoperands, Formula.ofOperator?_eq_rebuild hf rfl, Formula.rebuild_operands]
  exact ⟨_, h.op hsub hbuilt⟩

/-- **Every well-formed formula can be built**, whatever is in memory already, and in a place of
its own. -/
theorem exists_built (h : Memory code memory) {f : Formula} (hf : f.WellFormed) :
    ∃ more s, Memory code (memory ++ more) ∧ (s, f) ∈ more := by
  induction f generalizing memory with
  | var name => exact ⟨_, _, h.var (if_pos hf), List.mem_singleton_self _⟩
  | const value =>
      obtain ⟨s, hs⟩ := h.exists_op (f := .const value) rfl (List.nil_subset memory) rfl
      exact ⟨_, s, hs, List.mem_singleton_self _⟩
  | not f ih =>
      obtain ⟨more, s, hmore, hs⟩ := ih h hf
      have hsub : [(s, f)] ⊆ memory ++ more := by simp [hs]
      obtain ⟨t, ht⟩ := hmore.exists_op (f := f.not) rfl hsub rfl
      rw [List.append_assoc] at ht
      exact ⟨_, t, ht, List.mem_append_right more (List.mem_singleton_self _)⟩
  | binary c f g ihf ihg =>
      obtain ⟨more, s, hmore, hs⟩ := ihf h hf.1
      obtain ⟨more', t, hmore', ht⟩ := ihg hmore hf.2
      have hsub : [(s, f), (t, g)] ⊆ memory ++ more ++ more' := by simp [hs, ht]
      obtain ⟨u, hu⟩ := hmore'.exists_op (f := .binary c f g) rfl hsub rfl
      rw [List.append_assoc, List.append_assoc] at hu
      exact ⟨_, u, hu, by simp⟩

/-- A formula that is built later is stored in another place. -/
theorem place_ne {more : List (Stored × Formula)} (h : Memory code (memory ++ more))
    (hp : p ∈ memory) (hq : q ∈ more) : p.1.place ≠ q.1.place := by
  obtain ⟨i, hi⟩ := List.getElem?_of_mem hp
  obtain ⟨j, hj⟩ := List.getElem?_of_mem hq
  obtain ⟨hlt, -⟩ := List.getElem?_eq_some_iff.mp hi
  have hpi := h.place_of_getElem? ((List.getElem?_append_left hlt).trans hi)
  have hqj : q.1.place = memory.length + j := by
    refine h.place_of_getElem? ?_
    rw [List.getElem?_append_right (Nat.le_add_right _ _), Nat.add_sub_cancel_left, hj]
  omega

end Memory

/-! ### The comparison -/

/-- Lists of equal length hold equal trees iff the trees in every pair are equal. -/
theorem Stored.forall_mem_zip_iff {xs ys : List (Stored × Formula)}
    (hlength : xs.length = ys.length) :
    (∀ w ∈ xs.zip ys, w.1.2 = w.2.2) ↔ xs.map Prod.snd = ys.map Prod.snd := by
  rw [← List.forall₂_eq_eq_eq, List.forall₂_map_left_iff, List.forall₂_map_right_iff,
    List.forall₂_iff_zip]
  simp [hlength]

namespace Memory

variable {code : Formula → UInt64} {memory : List (Stored × Formula)}

/-- A stack of pairs that is not empty is the first pair on top of the others. -/
theorem exists_of_map_eq_cons {work : List ((Stored × Formula) × (Stored × Formula))}
    {s t : Stored} {rest : List (Stored × Stored)}
    (hwork : ∀ w ∈ work, w.1 ∈ memory ∧ w.2 ∈ memory)
    (hpairs : (work.map fun w => (w.1.1, w.2.1)) = (s, t) :: rest) :
    ∃ f g work', work = ((s, f), (t, g)) :: work' ∧ (s, f) ∈ memory ∧ (t, g) ∈ memory ∧
      (∀ w ∈ work', w.1 ∈ memory ∧ w.2 ∈ memory) ∧
      (work'.map fun w => (w.1.1, w.2.1)) = rest := by
  obtain ⟨⟨⟨s', f⟩, t', g⟩, work', rfl, hw, hrest⟩ := List.map_eq_cons_iff.mp hpairs
  obtain ⟨rfl, rfl⟩ := Prod.mk.inj hw
  obtain ⟨⟨hs, ht⟩, hwork'⟩ := List.forall_mem_cons.mp hwork
  exact ⟨f, g, work', rfl, hs, ht, hwork', hrest⟩

/-- Operations with the same operator are equal iff the operands in every pair are, and these are
in memory. -/
theorem exists_operand_pairs {f g : Formula} {operator : Operator} {xs ys : List Stored}
    {i j n m : Nat} {c d : UInt64} (hs : (Stored.op i c n operator xs).Roots memory f)
    (ht : (Stored.op j d m operator ys).Roots memory g) :
    ∃ pairs : List ((Stored × Formula) × (Stored × Formula)),
      (∀ w ∈ pairs, w.1 ∈ memory ∧ w.2 ∈ memory) ∧
      (pairs.map fun w => (w.1.1, w.2.1)) = (xs.zip ys).reverse ∧
      (f = g ↔ ∀ w ∈ pairs, w.1.2 = w.2.2) := by
  obtain ⟨hf, as, hasub, rfl, haoperands⟩ := hs
  obtain ⟨hg, bs, hbsub, rfl, hboperands⟩ := ht
  -- the arity of the operator makes the lists of operands equally long
  have hlength : as.length = bs.length := by
    have ha := congrArg List.length haoperands
    have hb := congrArg List.length hboperands
    rw [List.length_map, Formula.length_operands hf] at ha
    rw [List.length_map, Formula.length_operands hg] at hb
    rw [ha, hb]
  refine ⟨(as.zip bs).reverse, fun w hw => ?_, ?_, ?_⟩
  · obtain ⟨ha, hb⟩ := List.of_mem_zip (List.mem_reverse.mp hw)
    exact ⟨hasub ha, hbsub hb⟩
  · rw [List.map_reverse, List.zip_map]
    rfl
  · rw [Formula.eq_iff_operands_eq hf hg, ← haoperands, ← hboperands,
      ← Stored.forall_mem_zip_iff hlength]
    simp only [List.mem_reverse]

/-- **The comparison decides whether the trees are equal**, for any stack of pairs. -/
theorem allEqual_iff (h : Memory code memory)
    (work : List ((Stored × Formula) × (Stored × Formula)))
    (hwork : ∀ w ∈ work, w.1 ∈ memory ∧ w.2 ∈ memory) :
    Stored.allEqual (work.map fun w => (w.1.1, w.2.1)) = true ↔ ∀ w ∈ work, w.1.2 = w.2.2 := by
  generalize hpairs : (work.map fun w => (w.1.1, w.2.1)) = pairs
  fun_induction Stored.allEqual pairs generalizing work with
  | case1 =>
      obtain rfl := List.map_eq_nil_iff.mp hpairs
      simp
  | case2 s t rest hplace ih =>
      -- the same place: it is one and the same formula
      obtain ⟨f, g, work', rfl, hs, ht, hwork', hrest⟩ := exists_of_map_eq_cons hwork hpairs
      obtain rfl : f = g := congrArg Prod.snd (h.eq_of_place hs ht hplace)
      rw [ih work' hwork' hrest]
      simp
  | case3 s t rest hplace hdiffer =>
      -- equal trees have the same hash code and the same size
      obtain ⟨f, g, work, rfl, hs, ht, -, -⟩ := exists_of_map_eq_cons hwork hpairs
      have hf := h.describes hs
      have hg := h.describes ht
      have hne : f ≠ g := by
        rintro rfl
        exact hdiffer.elim (· (hf.hash_eq.trans hg.hash_eq.symm))
          (· (hf.size_eq.trans hg.size_eq.symm))
      simp [hne]
  | case4 =>
      -- two variables with the same name
      obtain ⟨f, g, work', rfl, hs, ht, hwork', hrest⟩ := exists_of_map_eq_cons hwork hpairs
      obtain rfl : f = g := (h.describes hs).roots.trans (h.describes ht).roots.symm
      rename_i ih
      rw [ih work' hwork' hrest]
      simp
  | case5 =>
      -- two variables with different names
      obtain ⟨f, g, work', rfl, hs, ht, -, -⟩ := exists_of_map_eq_cons hwork hpairs
      have hf : f = .var _ := (h.describes hs).roots
      have hg : g = .var _ := (h.describes ht).roots
      simp_all
  | case6 =>
      -- two operations with the same operator: the operands are left
      obtain ⟨f, g, work', rfl, hs, ht, hwork', hrest⟩ := exists_of_map_eq_cons hwork hpairs
      obtain ⟨pairs, hpairs', hzip, hiff⟩ :=
        exists_operand_pairs (h.describes hs).roots (h.describes ht).roots
      rename_i ih
      rw [ih (pairs ++ work') (List.forall_mem_append.mpr ⟨hpairs', hwork'⟩)
        (by rw [List.map_append, hzip, hrest]), List.forall_mem_append, List.forall_mem_cons, hiff]
  | case7 =>
      -- two operations with different operators
      obtain ⟨f, g, work', rfl, hs, ht, -, -⟩ := exists_of_map_eq_cons hwork hpairs
      have hf := (h.describes hs).roots.1
      have hg := (h.describes ht).roots.1
      have hne : f ≠ g := by
        rintro rfl
        exact absurd (Option.some.inj (hf.symm.trans hg)) ‹_›
      simp [hne]
  | case8 s t rest _ _ hvars hops =>
      -- a variable and an operation
      obtain ⟨f, g, work', rfl, hs, ht, -, -⟩ := exists_of_map_eq_cons hwork hpairs
      have hf := (h.describes hs).roots
      have hg := (h.describes ht).roots
      have hne : f ≠ g := by
        rintro rfl
        match s, t with
        | .var .., .var .. => exact hvars _ _ _ _ _ _ _ _ rfl rfl
        | .op .., .op .. => exact hops _ _ _ _ _ _ _ _ _ _ rfl rfl
        | .var .., .op .. => cases hf.symm ▸ hg.1
        | .op .., .var .. => cases hg.symm ▸ hf.1
      simp [hne]

end Memory

/-- **Comparing two formulas in memory is comparing their trees**, and the same as comparing their
texts, in either notation. It does not matter how the formulas were built, what they share or what
the hash code of a tree is, and all well-formed formulas can be built. -/
theorem Formula.comparison_exact {f g : Formula} (hf : f.WellFormed) (hg : g.WellFormed) :
    ((f == g) = true ↔ f = g) ∧ (f = g ↔ f.text = g.text) ∧ (f = g ↔ f.polish = g.polish) ∧
      ∀ code : Formula → UInt64,
        (∀ memory s t, Memory code memory → (s, f) ∈ memory → (t, g) ∈ memory →
          Stored.allEqual [(s, t)] = (f == g)) ∧
        ∃ memory s t, Memory code memory ∧ (s, f) ∈ memory ∧ (t, g) ∈ memory ∧
          s.place ≠ t.place := by
  refine ⟨beq_iff_eq, eq_iff_text_eq hf hg, eq_iff_polish_eq hf hg, fun code => ⟨?_, ?_⟩⟩
  · intro memory s t h hs ht
    have hall := h.allEqual_iff [((s, f), (t, g))] (by simp [hs, ht])
    rw [List.forall_mem_singleton] at hall
    exact Bool.eq_iff_iff.mpr (hall.trans beq_iff_eq.symm)
  · obtain ⟨memory, s, h, hs⟩ := (Memory.empty : Memory code []).exists_built hf
    obtain ⟨more, t, hmore, ht⟩ := h.exists_built hg
    exact ⟨_, s, t, hmore, List.mem_append_left more hs, List.mem_append_right _ ht,
      hmore.place_ne hs ht⟩

/-- With one hash code for all trees, the formulas `(p&q)` and `(q&p)` are told apart by their
operands. -/
theorem Formula.comparison_exact_conjunctions :
    let f := Formula.binary .and (.var "p") (.var "q")
    let g := Formula.binary .and (.var "q") (.var "p")
    f.WellFormed ∧ g.WellFormed ∧ f.size = g.size ∧ f.text ≠ g.text ∧ f.polish ≠ g.polish ∧
      ∃ memory s t, Memory (fun _ => 0) memory ∧ (s, f) ∈ memory ∧ (t, g) ∈ memory ∧
        s.hash = t.hash ∧ Stored.allEqual [(s, t)] = false := by
  intro f g
  have hp : isVariable "p" = true := by decide
  have hq : isVariable "q" = true := by decide
  have hf : f.WellFormed := ⟨hp, hq⟩
  have hg : g.WellFormed := ⟨hq, hp⟩
  have hne : f ≠ g := by simp [f, g]
  obtain ⟨-, htext, hpolish, hcode⟩ := comparison_exact hf hg
  obtain ⟨hcompare, memory, s, t, h, hs, ht, -⟩ := hcode fun _ => 0
  refine ⟨hf, hg, rfl, mt htext.mpr hne, mt hpolish.mpr hne, memory, s, t, h, hs, ht, ?_, ?_⟩
  · exact (h.describes hs).hash_eq.trans (h.describes ht).hash_eq.symm
  · rw [hcompare memory s t h hs ht]
    exact beq_eq_false_iff_ne.mpr hne

end Propositional

import Mathlib.Algebra.Group.Nat.Defs
import Propositional.Proofs.Construction.Comparison
import Propositional.Proofs.Construction.Positions

/-!
# Sizes and Depths

A node is given its size and its depth when it is built, out of those that its operands were given
before. The sum is cut off at each addition, so that a formula with few stored nodes may have a size
that was cut off many times over; the depth is never cut off.

What a node is given is nevertheless a function of the unfolded tree alone: the number of positions,
cut off once, and the number of nodes on a longest path to a leaf. A traversal passes a shared
subformula once for each position, so it is as long as the size tells wherever the size was not cut
off.

## Main definitions

* `Stored.depth`: the depth that a stored formula is given.

## Main results

* `Memory.depth_eq`: the nodes in memory tell the truth about the depths of their trees.
* `Formula.size_and_depth_exact`: sizes, depths and the lengths of both traversals.
-/

namespace Propositional

/-- The depth that a node is given: one more than the greatest depth that was given to an operand,
and 1 if there is no operand. -/
def Stored.depth : Stored → Nat
  | .var .. => 1
  | .op _ _ _ _ operands => 1 + (operands.map depth).max?.getD 0

namespace Memory

variable {code : Formula → UInt64} {memory : List (Stored × Formula)} {p : Stored × Formula}

/-- **The depth that a node in memory was given is that of its tree.** -/
theorem depth_eq (h : Memory code memory) (hp : p ∈ memory) : p.1.depth = p.2.depth := by
  induction h generalizing p with
  | empty => cases hp
  | @var memory name f hmemory hbuilt ih =>
      rcases List.mem_append.mp hp with hp | hp
      · exact ih hp
      · obtain rfl := List.mem_singleton.mp hp
        have hroots := ((hmemory.var hbuilt).describes (List.mem_append_right _ hp)).roots
        rw [show f = .var name from hroots, Stored.depth, Formula.depth]
  | @op memory entries operator f _ hsub hbuilt ih =>
      rcases List.mem_append.mp hp with hp | hp
      · exact ih hp
      · obtain rfl := List.mem_singleton.mp hp
        have hoperands : (entries.map Prod.fst).map Stored.depth =
            f.operands.map Formula.depth := by
          rw [(Formula.operands_of_ofOperator? hbuilt).2, List.map_map, List.map_map]
          exact List.map_congr_left fun q hq => ih (hsub hq)
        rw [Stored.depth, hoperands, Formula.depth_eq_max]

end Memory

/-- **Sizes are exact up to the largest one, and depths are exact.** Whatever a formula shares, its
size is the number of nodes of the unfolded tree, which have a position each, or 2⁶⁴ - 1 if there
are more. Its depth is the number of nodes on the path to some leaf, and no path has more. Where the
size is smaller than 2⁶⁴ - 1, both traversals list as many subformulas. And however the formula was
built in memory, out of operands that may be shared and whose sizes may have been cut off, the node
was given this size and this depth. -/
theorem Formula.size_and_depth_exact (f : Formula) :
    (f.positions.Nodup ∧ (∀ path, path ∈ f.positions ↔ (f.subformula? path).isSome = true) ∧
      f.size = min (2 ^ 64 - 1) f.positions.length) ∧
    ((∃ path leaf, f.subformula? path = some leaf ∧ leaf.operands = [] ∧
        f.depth = path.length + 1) ∧
      ∀ path g, f.subformula? path = some g → path.length + 1 ≤ f.depth) ∧
    (f.size < 2 ^ 64 - 1 → f.preorder.length = f.size ∧ f.postorder.length = f.size) ∧
    ∀ code memory s, Memory code memory → (s, f) ∈ memory →
      s.size = f.size ∧ s.depth = f.depth := by
  have hsize : f.size = min (2 ^ 64 - 1) f.nodeCount := f.size_eq
  refine ⟨⟨f.nodup_positions, fun path => mem_positions_iff, ?_⟩,
    ⟨f.exists_leaf_position, fun path g hg => ?_⟩, fun hexact => ?_, ?_⟩
  · rw [length_positions, hsize]
  · have hle := length_add_depth_le hg
    have hpos : 0 < g.depth := by
      rw [depth_eq_max]
      omega
    omega
  · have hcount : f.size = f.nodeCount := by omega
    rw [f.postorder_perm_preorder.length_eq, length_preorder, hcount]
    exact ⟨rfl, rfl⟩
  · intro code memory s h hs
    exact ⟨(h.describes hs).size_eq, h.depth_eq hs⟩

/-- Joined to itself 64 times over, a variable has a size that was cut off, and the depth 65. -/
example : (Nat.repeat (fun f => Formula.binary .and f f) 64 (.var "p")).size = 2 ^ 64 - 1 ∧
    (Nat.repeat (fun f => Formula.binary .and f f) 64 (.var "p")).depth = 65 := by decide +kernel

end Propositional

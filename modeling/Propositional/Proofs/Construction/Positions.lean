import Mathlib.Data.List.Nodup
import Propositional.Proofs.Construction.Nodes

/-!
# Positions in the Unfolded Tree

However much a formula shares, what it stands for is a tree, and a node of this tree is told by its
position: the numbers of the operands that lead to it from the root. `Formula.subformula?` goes
there. Nothing but the operands of a node is needed for it, so positions are what the counts and
the traversals of the library can be compared with.

## Main definitions

* `Formula.subformula?`: the subformula at a position.
* `Formula.positions`: all positions, in preorder.

## Main results

* `Formula.mem_positions_iff`, `Formula.nodup_positions`: the list holds each position once.
* `Formula.map_subformula?_positions`: the preorder lists the subformulas at the positions.
* `Formula.mentions_iff_subformula?`, `Formula.uses_iff_subformula?`: what occurs in a formula
  stands at a position.
* `Formula.length_add_depth_le`, `Formula.exists_leaf_position`: the depth is the number of nodes on
  a longest path to a leaf.
-/

namespace Propositional.Formula

/-- The subformula at a position: the numbers of the operands to go to, from the root on. -/
def subformula? (f : Formula) : List Nat → Option Formula
  | [] => some f
  | i :: path => f.operands[i]?.bind (subformula? · path)

/-- All positions of the formula, in the order in which a preorder comes to them. -/
def positions : Formula → List (List Nat)
  | var _ => [[]]
  | const _ => [[]]
  | not f => [] :: f.positions.map (0 :: ·)
  | binary _ f g => [] :: (f.positions.map (0 :: ·) ++ g.positions.map (1 :: ·))

variable {f g : Formula} {path : List Nat}

@[simp] theorem subformula?_nil (f : Formula) : f.subformula? [] = some f := rfl

theorem subformula?_cons (f : Formula) (i : Nat) (path : List Nat) :
    f.subformula? (i :: path) = f.operands[i]?.bind (subformula? · path) := rfl

/-- A position below the root is one below an operand. -/
theorem subformula?_cons_eq_some_iff {i : Nat} :
    f.subformula? (i :: path) = some g ↔
      ∃ h, f.operands[i]? = some h ∧ h.subformula? path = some g := by
  rw [subformula?_cons, Option.bind_eq_some_iff]

/-! ### All positions -/

/-- **The list holds the positions at which there is a subformula.** -/
theorem mem_positions_iff : path ∈ f.positions ↔ (f.subformula? path).isSome = true := by
  induction f generalizing path with
  | var name | const value =>
      cases path <;> simp [positions, subformula?_cons, operands]
  | not f ih =>
      rcases path with - | ⟨_ | i, path⟩ <;> simp [positions, subformula?_cons, operands, ih]
  | binary c f g ihf ihg =>
      rcases path with - | ⟨_ | _ | i, path⟩ <;>
        simp [positions, subformula?_cons, operands, ihf, ihg]

/-- Each position is listed once. -/
theorem nodup_positions (f : Formula) : f.positions.Nodup := by
  have hbelow : ∀ {paths : List (List Nat)} (i : Nat), paths.Nodup →
      (paths.map (i :: ·)).Nodup := fun i h => h.map (List.cons_injective (a := i))
  induction f with
  | var name | const value => exact List.nodup_singleton _
  | not f ih => exact List.nodup_cons.mpr ⟨by simp, hbelow 0 ih⟩
  | binary c f g ihf ihg =>
      refine List.nodup_cons.mpr ⟨by simp, List.nodup_append.mpr ⟨hbelow 0 ihf, hbelow 1 ihg, ?_⟩⟩
      -- the first numbers differ
      intro p hp q hq
      obtain ⟨p', -, rfl⟩ := List.mem_map.mp hp
      obtain ⟨q', -, rfl⟩ := List.mem_map.mp hq
      simp

/-- There are as many positions as nodes. -/
theorem length_positions (f : Formula) : f.positions.length = f.nodeCount := by
  induction f with
  | var name | const value => rfl
  | not f ih => rw [positions, List.length_cons, List.length_map, ih, nodeCount, Nat.add_comm]
  | binary c f g ihf ihg =>
      rw [positions, List.length_cons, List.length_append, List.length_map, List.length_map, ihf,
        ihg, nodeCount, Nat.add_comm, Nat.add_assoc]

/-- **The preorder lists the subformulas at the positions**, one after the other. -/
theorem map_subformula?_positions (f : Formula) :
    f.positions.map f.subformula? = f.preorder.map some := by
  rw [preorder_eq]
  induction f with
  | var name | const value => rfl
  | not f ih =>
      rw [positions, preorderForm, List.map_cons, List.map_cons, List.map_map, ← ih]
      rfl
  | binary c f g ihf ihg =>
      rw [positions, preorderForm, List.map_cons, List.map_cons, List.map_append, List.map_append,
        List.map_map, List.map_map, ← ihf, ← ihg]
      rfl

/-- The postorder lists the same subformulas in another order. -/
theorem postorder_perm_preorder (f : Formula) : f.postorder.Perm f.preorder := by
  rw [postorder_eq, preorder_eq]
  induction f with
  | var name | const value => exact .refl _
  | not f ih => exact (List.perm_append_singleton _ _).trans (ih.cons _)
  | binary c f g ihf ihg =>
      exact (List.perm_append_singleton _ _).trans ((ihf.append ihg).cons _)

/-- A traversal comes to every node once. -/
theorem length_preorder (f : Formula) : f.preorder.length = f.nodeCount := by
  have h := congrArg List.length (map_subformula?_positions f)
  rw [List.length_map, List.length_map, length_positions] at h
  exact h.symm

/-! ### What occurs in a formula -/

/-- What holds at a position holds at the root or at a position of an operand. -/
theorem exists_subformula?_iff {p : Formula → Prop} :
    (∃ path g, f.subformula? path = some g ∧ p g) ↔
      p f ∨ ∃ h ∈ f.operands, ∃ path g, h.subformula? path = some g ∧ p g := by
  constructor
  · rintro ⟨_ | ⟨i, path⟩, g, hg, hp⟩
    · exact .inl (Option.some.inj hg ▸ hp)
    · obtain ⟨h, hi, hh⟩ := subformula?_cons_eq_some_iff.mp hg
      exact .inr ⟨h, List.mem_of_getElem? hi, path, g, hh, hp⟩
  · rintro (hp | ⟨h, hmem, path, g, hg, hp⟩)
    · exact ⟨[], f, rfl, hp⟩
    · obtain ⟨i, hi⟩ := List.getElem?_of_mem hmem
      exact ⟨i :: path, g, subformula?_cons_eq_some_iff.mpr ⟨h, hi, hg⟩, hp⟩

/-- **A variable occurs iff it is a leaf of the tree.** -/
theorem mentions_iff_subformula? {x : String} :
    f.Mentions x ↔ ∃ path, f.subformula? path = some (var x) := by
  have hleaf : ∀ f : Formula, (∃ path, f.subformula? path = some (var x)) ↔
      ∃ path g, f.subformula? path = some g ∧ g = var x := by simp
  induction f using induction_on_operands with
  | var name =>
      rw [hleaf, exists_subformula?_iff]
      simp [Mentions, operands]
  | operation f op hop ih =>
      have hroot : f ≠ var x := by
        rintro rfl
        cases hop
      rw [hleaf, exists_subformula?_iff, mentions_iff_operands hop, or_iff_right hroot]
      simp only [← hleaf]
      exact exists_congr fun g => and_congr_right (ih g)

/-- **An operator occurs iff it stands at a node of the tree.** -/
theorem uses_iff_subformula? {op : Operator} :
    f.Uses op ↔ ∃ path g, f.subformula? path = some g ∧ g.operator? = some op := by
  induction f using induction_on_operands with
  | var name =>
      rw [exists_subformula?_iff]
      simp [Uses, operands, operator?]
  | operation f root hroot ih =>
      rw [exists_subformula?_iff, uses_iff_operands hroot, hroot, Option.some.injEq,
        eq_comm (a := op)]
      exact or_congr_right (exists_congr fun g => and_congr_right (ih g))

/-! ### The depth -/

/-- The depth of an operation is one more than the greatest depth of an operand. -/
theorem depth_eq_max (f : Formula) : f.depth = 1 + (f.operands.map depth).max?.getD 0 := by
  cases f with
  | var name | const value | not f => rfl
  | binary c f g => simp [depth, operands, List.max?_cons]

/-- An operand is less deep than the operation. -/
theorem depth_lt_of_mem_operands (h : g ∈ f.operands) : g.depth < f.depth := by
  cases f with
  | var name | const value => cases h
  | not f =>
      obtain rfl := List.mem_singleton.mp h
      rw [depth]
      omega
  | binary c f₁ f₂ =>
      rw [depth]
      rcases List.mem_cons.mp h with rfl | h
      · omega
      · obtain rfl := List.mem_singleton.mp h
        omega

/-- **No path is longer than the depth allows.** -/
theorem length_add_depth_le (h : f.subformula? path = some g) :
    path.length + g.depth ≤ f.depth := by
  induction path generalizing f with
  | nil =>
      obtain rfl := Option.some.inj h
      exact Nat.le_of_eq (Nat.zero_add _)
  | cons i path ih =>
      obtain ⟨f', hi, hg⟩ := subformula?_cons_eq_some_iff.mp h
      have hlt := depth_lt_of_mem_operands (List.mem_of_getElem? hi)
      have hle := ih hg
      rw [List.length_cons]
      omega

/-- **A path to some leaf is as long as the depth allows.** -/
theorem exists_leaf_position (f : Formula) :
    ∃ path g, f.subformula? path = some g ∧ g.operands = [] ∧ f.depth = path.length + 1 := by
  induction f with
  | var name => exact ⟨[], var name, rfl, rfl, rfl⟩
  | const value => exact ⟨[], const value, rfl, rfl, rfl⟩
  | not f ih =>
      obtain ⟨path, leaf, hpath, hleaf, hdepth⟩ := ih
      refine ⟨0 :: path, leaf, hpath, hleaf, ?_⟩
      rw [depth, hdepth, List.length_cons, Nat.add_comm]
  | binary c f g ihf ihg =>
      -- the deeper operand has the longer path
      rcases Nat.le_total g.depth f.depth with hle | hle
      · obtain ⟨path, leaf, hpath, hleaf, hdepth⟩ := ihf
        refine ⟨0 :: path, leaf, hpath, hleaf, ?_⟩
        rw [depth, Nat.max_eq_left hle, hdepth, List.length_cons, Nat.add_comm]
      · obtain ⟨path, leaf, hpath, hleaf, hdepth⟩ := ihg
        refine ⟨1 :: path, leaf, hpath, hleaf, ?_⟩
        rw [depth, Nat.max_eq_right hle, hdepth, List.length_cons, Nat.add_comm]

end Propositional.Formula

import Mathlib.Data.List.Nodup
import Mathlib.Logic.Function.Basic
import Propositional.Proofs.Construction.Comparison
import Propositional.Proofs.Text.ByteOrder

/-!
# The Symbols of Stored Formulas

The variables and the operators of a formula in memory are gathered by a walk over its nodes, each
kind by itself, and are then kept in the node that was asked, so that they are not gathered again.
The walk holds a stack of nodes. A node with more than one owner may come up more than once, and is
passed over when it has been seen; a node that keeps its symbols is asked for them and not entered.

So what the walk does depends on which nodes are shared, on who owns them, and on what was asked
before. What it finds does not. Of every node that was visited, its own symbols have been found and
each of its operands has been visited or is still on the stack, unless all of its symbols have been
found (`SymbolKind.Covered`). A node that is passed over is taken off the stack, but then it was
visited. At the end the stack is empty, and by induction on the tree every symbol below a visited
node has been found.

## Main definitions

* `SymbolKind`, `SymbolKind.gather`, `SymbolKind.ask`: the walk, and what is kept of it.
* `SymbolKind.Walks`: the invariant of the walk.

## Main results

* `SymbolKind.Walks.visit`, `SymbolKind.Walks.pass`: what a step of the walk preserves.
* `SymbolKind.Lists.mem_gather_iff`: the walk finds the symbols of the tree.
* `SymbolKind.Lists.ask_spec`: a stored formula answers with the list of its tree.
-/

namespace Propositional

/-! ### The walk -/

/-- The operands to which the node refers. -/
def Stored.operands : Stored → List Stored
  | var .. => []
  | op _ _ _ _ operands => operands

/-- The operands on a stack are lighter than the node. -/
theorem Stored.totalWeight_operands_lt (s : Stored) : totalWeight sizeOf s.operands < sizeOf s := by
  have hlist : ∀ xs : List Stored, totalWeight sizeOf xs ≤ sizeOf xs := by
    intro xs
    induction xs with
    | nil => simp
    | cons x xs ih =>
        simp only [totalWeight_cons, List.cons.sizeOf_spec]
        omega
  cases s with
  | var =>
      simp only [operands, totalWeight_nil, var.sizeOf_spec]
      omega
  | op place hash size operator operands =>
      have := hlist operands
      simp only [Stored.operands, op.sizeOf_spec]
      omega

/-- A kind of symbols that are gathered from the nodes of a formula. -/
structure SymbolKind (α : Type) where
  /-- The symbols of the kind that stand at a node. -/
  own : Stored → List α
  /-- Whether the first symbol does not come after the second one. -/
  le : α → α → Bool

/-- What has been kept in the nodes, by place. -/
abbrev Kept (α : Type) := Nat → Option (List α)

namespace SymbolKind

/-- The names of variables, in the order of their bytes. -/
def names : SymbolKind String where
  own
    | .var _ _ _ name => [name]
    | .op .. => []
  le x y := decide (bytes x ≤ bytes y)

/-- The operators, in the order of their ranks. -/
def operators : SymbolKind Operator where
  own
    | .var .. => []
    | .op _ _ _ operator _ => [operator]
  le a b := decide (a.rank ≤ b.rank)

section Walk

variable {α : Type} [DecidableEq α]

/-- Adds a symbol after those that have been found, unless it is one of them. -/
def addFound (found : List α) (symbol : α) : List α :=
  if symbol ∈ found then found else found ++ [symbol]

/-- Adds symbols one after the other. -/
def addAll (found added : List α) : List α :=
  added.foldl addFound found

/-- The places that have been seen after a node was visited. Only a node with more than one owner
can come up again. -/
def markSeen (owners : Nat → Nat) (s : Stored) (seen : List Nat) : List Nat :=
  if 1 < owners s.place then s.place :: seen else seen

/-- The symbols that are found on the walk from the nodes of the stack, the next one first, after
those that have been found already. A node that was seen before is passed over, which is looked up
only if it has more than one owner. Where a node keeps its symbols its operands are not visited. -/
def gather (kind : SymbolKind α) (kept : Kept α) (owners : Nat → Nat) (stack : List Stored)
    (seen : List Nat) (found : List α) : List α :=
  match stack with
  | [] => found
  | s :: rest =>
    if 1 < owners s.place ∧ s.place ∈ seen then kind.gather kept owners rest seen found
    else
      match kept s.place with
      | some symbols =>
        kind.gather kept owners rest (markSeen owners s seen) (addAll found symbols)
      | none =>
        kind.gather kept owners (s.operands ++ rest) (markSeen owners s seen)
          (addAll found (kind.own s))
termination_by totalWeight sizeOf stack
decreasing_by
  all_goals
    have := s.totalWeight_operands_lt
    simp only [totalWeight_append, totalWeight_cons]
    omega

/-- The symbols of the kind that a stored formula answers with, in order, and what the nodes keep
after that. -/
def ask (kind : SymbolKind α) (kept : Kept α) (owners : Nat → Nat) (s : Stored) :
    List α × Kept α :=
  match kept s.place with
  | some symbols => (symbols, kept)
  | none =>
    let symbols := (kind.gather kept owners [s] [] []).mergeSort kind.le
    (symbols, Function.update kept s.place (some symbols))

end Walk

end SymbolKind

/-! ### What the walk finds -/

namespace Stored.Roots

variable {memory : List (Stored × Formula)} {s : Stored} {f : Formula}

/-- The operands of a node in memory are in memory, each with its tree. -/
theorem exists_entries (h : s.Roots memory f) :
    ∃ entries, entries ⊆ memory ∧ entries.map Prod.fst = s.operands ∧
      entries.map Prod.snd = f.operands := by
  cases s with
  | var =>
      obtain rfl : f = .var _ := h
      exact ⟨[], List.nil_subset memory, rfl, rfl⟩
  | op => exact h.2

/-- The names in a formula are the one at its node and those in its operands. -/
theorem mem_vars_iff (h : s.Roots memory f) {x : String} :
    x ∈ f.vars ↔ x ∈ SymbolKind.names.own s ∨ ∃ g ∈ f.operands, x ∈ g.vars := by
  simp only [Formula.mem_vars_iff]
  cases s with
  | var =>
      obtain rfl : f = .var _ := h
      simp [Formula.Mentions, Formula.operands, SymbolKind.names, eq_comm]
  | op =>
      rw [Formula.mentions_iff_operands h.1]
      simp [SymbolKind.names]

/-- The operators in a formula are the one at its node and those in its operands. -/
theorem mem_operators_iff (h : s.Roots memory f) {op : Operator} :
    op ∈ f.operators ↔
      op ∈ SymbolKind.operators.own s ∨ ∃ g ∈ f.operands, op ∈ g.operators := by
  simp only [Formula.mem_operators_iff]
  cases s with
  | var =>
      obtain rfl : f = .var _ := h
      simp [Formula.Uses, Formula.operands, SymbolKind.operators]
  | op =>
      rw [Formula.uses_iff_operands h.1]
      simp [SymbolKind.operators]

end Stored.Roots

namespace SymbolKind

variable {α : Type}

/-- The lists hold, for every formula, the symbols of the kind that occur in it, in order and each
of them once. -/
structure Lists (kind : SymbolKind α) (symbols : Formula → List α) : Prop where
  mem_iff : ∀ {memory s f a}, s.Roots memory f →
    (a ∈ symbols f ↔ a ∈ kind.own s ∨ ∃ g ∈ f.operands, a ∈ symbols g)
  nodup : ∀ f, (symbols f).Nodup
  pairwise : ∀ f, (symbols f).Pairwise (kind.le · ·)
  le_trans : ∀ a b c, kind.le a b = true → kind.le b c = true → kind.le a c = true
  le_total : ∀ a b, (kind.le a b || kind.le b a) = true
  le_antisymm : ∀ a b, kind.le a b = true → kind.le b a = true → a = b

/-- The list of names is that of the variables. -/
theorem lists_vars : names.Lists Formula.vars where
  mem_iff h := h.mem_vars_iff
  nodup := Formula.nodup_vars
  pairwise f := f.sorted_vars.imp fun h => decide_eq_true (List.le_of_lt (lt_iff_bytes_lt.mp h))
  le_trans a b c hab hbc := by
    simp only [names, decide_eq_true_eq] at *
    exact List.le_trans hab hbc
  le_total a b := by
    simp only [names, Bool.or_eq_true, decide_eq_true_eq]
    exact List.le_total _ _
  le_antisymm a b hab hba := by
    simp only [names, decide_eq_true_eq] at *
    exact bytes_inj.mp (List.le_antisymm hab hba)

/-- The list of operators is that of the operators. -/
theorem lists_operators : operators.Lists Formula.operators where
  mem_iff h := h.mem_operators_iff
  nodup f := f.sorted_operators.imp fun h heq => absurd (heq ▸ h) (Nat.lt_irrefl _)
  pairwise f := f.sorted_operators.imp fun h => decide_eq_true (Nat.le_of_lt h)
  le_trans a b c hab hbc := by
    simp only [operators, decide_eq_true_eq] at *
    exact Nat.le_trans hab hbc
  le_total a b := by
    simp only [operators, Bool.or_eq_true, decide_eq_true_eq]
    exact Nat.le_total _ _
  le_antisymm a b hab hba := by
    simp only [operators, decide_eq_true_eq] at *
    exact Operator.rank_inj (Nat.le_antisymm hab hba)

variable {kind : SymbolKind α} {symbols : Formula → List α} {kept : Kept α}
  {code : Formula → UInt64}
  {memory visited visited' pending pending' nodes : List (Stored × Formula)} {seen : List Nat}
  {found found' : List α} {p : Stored × Formula}

/-- What the nodes keep are the lists of the trees that they were built as. -/
def Sound (kept : Kept α) (memory : List (Stored × Formula)) (symbols : Formula → List α) : Prop :=
  ∀ p ∈ memory, ∀ list, kept p.1.place = some list → list = symbols p.2

/-- A new node, which keeps nothing, does no harm to what the others keep. -/
theorem Sound.append (hkept : Sound kept memory symbols) (hmemory : Memory code (memory ++ [p])) :
    Sound (Function.update kept p.1.place none) (memory ++ [p]) symbols := by
  intro q hq list hlist
  rcases List.mem_append.mp hq with hq | hq
  · rw [Function.update_of_ne (hmemory.place_ne hq (List.mem_singleton_self p))] at hlist
    exact hkept q hq list hlist
  · obtain rfl := List.mem_singleton.mp hq
    rw [Function.update_self] at hlist
    cases hlist

/-- All symbols below the node have been found, or else the symbols at the node have been found and
its operands have been visited or are still to be visited. -/
def Covered (kind : SymbolKind α) (symbols : Formula → List α)
    (visited pending : List (Stored × Formula)) (found : List α) (p : Stored × Formula) : Prop :=
  (∀ a ∈ symbols p.2, a ∈ found) ∨
    (∀ a ∈ kind.own p.1, a ∈ found) ∧ ∀ g ∈ p.2.operands, ∃ s, (s, g) ∈ visited ++ pending

/-- What was covered is still covered when more was found and no node was lost. -/
theorem Covered.mono (h : kind.Covered symbols visited pending found p) (hfound : found ⊆ found')
    (hnodes : visited ++ pending ⊆ visited' ++ pending') :
    kind.Covered symbols visited' pending' found' p := by
  rcases h with h | ⟨hown, hoperands⟩
  · exact .inl fun a ha => hfound (h a ha)
  · refine .inr ⟨fun a ha => hfound (hown a ha), fun g hg => ?_⟩
    obtain ⟨s, hs⟩ := hoperands g hg
    exact ⟨s, hnodes hs⟩

/-- The invariant of the walk: what it has seen it has visited, and what it has visited is
covered. -/
structure Walks (kind : SymbolKind α) (symbols : Formula → List α)
    (memory visited pending : List (Stored × Formula)) (seen : List Nat) (found : List α) :
    Prop where
  visited_subset : visited ⊆ memory
  pending_subset : pending ⊆ memory
  mem_of_seen : ∀ q ∈ memory, q.1.place ∈ seen → q ∈ visited
  covered : ∀ q ∈ visited, kind.Covered symbols visited pending found q

/-- A node that was visited before may be passed over. -/
theorem Walks.pass (h : kind.Walks symbols memory visited (p :: pending) seen found)
    (hp : p ∈ visited) : kind.Walks symbols memory visited pending seen found where
  visited_subset := h.visited_subset
  pending_subset := List.subset_of_cons_subset h.pending_subset
  mem_of_seen := h.mem_of_seen
  covered q hq := by
    refine (h.covered q hq).mono (List.Subset.refl found) fun r hr => ?_
    rcases List.mem_append.mp hr with hr | hr
    · exact List.mem_append_left _ hr
    · rcases List.mem_cons.mp hr with rfl | hr
      · exact List.mem_append_left _ hp
      · exact List.mem_append_right _ hr

/-- No node is lost when the next one is visited. -/
theorem subset_visit (visited pending nodes : List (Stored × Formula)) (p : Stored × Formula) :
    visited ++ p :: pending ⊆ p :: visited ++ (nodes ++ pending) := by
  intro q hq
  simp only [List.mem_append, List.mem_cons] at hq ⊢
  tauto

/-- A place that was seen is that of the node which is visited, or was seen before. -/
theorem mem_markSeen {owners : Nat → Nat} {s : Stored} {place : Nat}
    (h : place ∈ markSeen owners s seen) : place = s.place ∨ place ∈ seen := by
  unfold markSeen at h
  split at h
  · exact List.mem_cons.mp h
  · exact .inr h

/-- A node may be visited if it is covered by what is found there and what is put on the stack. -/
theorem Walks.visit (h : kind.Walks symbols memory visited (p :: pending) seen found)
    (hmemory : Memory code memory) (owners : Nat → Nat) (hnodes : nodes ⊆ memory)
    (hfound : found ⊆ found')
    (hcovered : kind.Covered symbols (p :: visited) (nodes ++ pending) found' p) :
    kind.Walks symbols memory (p :: visited) (nodes ++ pending) (markSeen owners p.1 seen)
      found' where
  visited_subset := List.cons_subset.mpr
    ⟨h.pending_subset List.mem_cons_self, h.visited_subset⟩
  pending_subset := List.append_subset.mpr
    ⟨hnodes, List.subset_of_cons_subset h.pending_subset⟩
  mem_of_seen q hq hplace := by
    rcases mem_markSeen hplace with heq | hold
    · -- there is one node at a place
      rw [hmemory.eq_of_place hq (h.pending_subset List.mem_cons_self) heq]
      exact List.mem_cons_self
    · exact List.mem_cons_of_mem p (h.mem_of_seen q hq hold)
  covered q hq := by
    rcases List.mem_cons.mp hq with rfl | hq
    · exact hcovered
    · exact (h.covered q hq).mono hfound (subset_visit visited pending nodes p)

/-- **At the end everything below a visited node has been found.** -/
theorem Walks.mem_found (h : kind.Walks symbols memory visited [] seen found)
    (hlists : kind.Lists symbols) (hmemory : Memory code memory) {f : Formula} {s : Stored}
    (hs : (s, f) ∈ visited) : ∀ a ∈ symbols f, a ∈ found := by
  induction f using Formula.induction_on_operands generalizing s with
  | var name =>
      rcases h.covered _ hs with hall | ⟨hown, -⟩
      · exact hall
      · intro a ha
        have hroots := (hmemory.describes (h.visited_subset hs)).roots
        rcases (hlists.mem_iff hroots).mp ha with ha | ⟨g, hg, -⟩
        · exact hown a ha
        · cases hg
  | operation f op hop ih =>
      rcases h.covered _ hs with hall | ⟨hown, hoperands⟩
      · exact hall
      · intro a ha
        have hroots := (hmemory.describes (h.visited_subset hs)).roots
        rcases (hlists.mem_iff hroots).mp ha with ha | ⟨g, hg, ha⟩
        · exact hown a ha
        · obtain ⟨t, ht⟩ := hoperands g hg
          rw [List.append_nil] at ht
          exact ih g hg ht a ha

variable [DecidableEq α] {owners : Nat → Nat}

/-- A symbol has been found if it had been found before or was added. -/
@[simp] theorem mem_addAll {added : List α} {a : α} :
    a ∈ addAll found added ↔ a ∈ found ∨ a ∈ added := by
  unfold addAll
  induction added generalizing found with
  | nil => simp
  | cons b added ih =>
      have hadd : a ∈ addFound found b ↔ a ∈ found ∨ a = b := by
        unfold addFound
        split <;> simp_all
      rw [List.foldl_cons, ih, hadd, List.mem_cons, or_assoc]

/-- No symbol is added twice. -/
theorem nodup_addAll {added : List α} (h : found.Nodup) : (addAll found added).Nodup := by
  unfold addAll
  induction added generalizing found with
  | nil => exact h
  | cons b added ih =>
      refine ih ?_
      unfold addFound
      split
      · exact h
      · rename_i hb
        exact List.nodup_append.mpr ⟨h, List.nodup_singleton b, by grind⟩

/-- The walk finds each symbol once. -/
theorem nodup_gather (stack : List Stored) (h : found.Nodup) :
    (kind.gather kept owners stack seen found).Nodup := by
  fun_induction gather kind kept owners stack seen found with
  | case1 => exact h
  | case2 _ _ _ _ _ ih => exact ih h
  | case3 _ _ _ _ _ _ _ ih => exact ih (nodup_addAll h)
  | case4 _ _ _ _ _ _ ih => exact ih (nodup_addAll h)

/-- **The walk finds only what occurs** below the nodes of the stack. -/
theorem of_mem_gather (hlists : kind.Lists symbols) (hmemory : Memory code memory)
    (hkept : Sound kept memory symbols) (hpending : pending ⊆ memory) {a : α}
    (ha : a ∈ kind.gather kept owners (pending.map Prod.fst) seen found) :
    a ∈ found ∨ ∃ p ∈ pending, a ∈ symbols p.2 := by
  generalize hstack : pending.map Prod.fst = stack at ha
  fun_induction gather kind kept owners stack seen found generalizing pending with
  | case1 => exact .inl ha
  | case2 seen found s rest hpass ih =>
      obtain ⟨p, pending, rfl, rfl, hrest⟩ := List.map_eq_cons_iff.mp hstack
      rcases ih (List.subset_of_cons_subset hpending) hrest ha with ha | ⟨q, hq, ha⟩
      · exact .inl ha
      · exact .inr ⟨q, List.mem_cons_of_mem p hq, ha⟩
  | case3 seen found s rest hpass list hlist ih =>
      obtain ⟨p, pending, rfl, rfl, hrest⟩ := List.map_eq_cons_iff.mp hstack
      obtain ⟨hp, hpending⟩ := List.cons_subset.mp hpending
      rcases ih hpending hrest ha with ha | ⟨q, hq, ha⟩
      · rcases mem_addAll.mp ha with ha | ha
        · exact .inl ha
        · exact .inr ⟨p, List.mem_cons_self, hkept p hp list hlist ▸ ha⟩
      · exact .inr ⟨q, List.mem_cons_of_mem p hq, ha⟩
  | case4 seen found s rest hpass hnone ih =>
      obtain ⟨p, pending, rfl, rfl, hrest⟩ := List.map_eq_cons_iff.mp hstack
      obtain ⟨hp, hpending⟩ := List.cons_subset.mp hpending
      have hroots := (hmemory.describes hp).roots
      obtain ⟨entries, hentries, hfst, hsnd⟩ := hroots.exists_entries
      have hbelow := hlists.mem_iff hroots (a := a)
      have hnodes : (entries ++ pending).map Prod.fst = p.1.operands ++ rest := by
        rw [List.map_append, hfst, hrest]
      rcases ih (List.append_subset.mpr ⟨hentries, hpending⟩) hnodes ha with ha | ⟨q, hq, ha⟩
      · rcases mem_addAll.mp ha with ha | ha
        · exact .inl ha
        · exact .inr ⟨p, List.mem_cons_self, hbelow.mpr (.inl ha)⟩
      · rcases List.mem_append.mp hq with hq | hq
        · -- a symbol below an operand is below the node
          have hoperand : q.2 ∈ p.2.operands := hsnd ▸ List.mem_map_of_mem hq
          exact .inr ⟨p, List.mem_cons_self, hbelow.mpr (.inr ⟨q.2, hoperand, ha⟩)⟩
        · exact .inr ⟨q, List.mem_cons_of_mem p hq, ha⟩

/-- **The walk misses nothing** below the nodes that were visited and those of the stack. -/
theorem Walks.mem_gather (h : kind.Walks symbols memory visited pending seen found)
    (hlists : kind.Lists symbols) (hmemory : Memory code memory)
    (hkept : Sound kept memory symbols) :
    ∀ p ∈ visited ++ pending, ∀ a ∈ symbols p.2,
      a ∈ kind.gather kept owners (pending.map Prod.fst) seen found := by
  generalize hstack : pending.map Prod.fst = stack
  fun_induction gather kind kept owners stack seen found generalizing visited pending with
  | case1 seen found =>
      obtain rfl := List.map_eq_nil_iff.mp hstack
      intro p hp
      rw [List.append_nil] at hp
      exact h.mem_found hlists hmemory hp
  | case2 seen found s rest hpass ih =>
      obtain ⟨p, pending, rfl, rfl, hrest⟩ := List.map_eq_cons_iff.mp hstack
      have hp := h.mem_of_seen p (h.pending_subset List.mem_cons_self) hpass.2
      have hnow := ih (h.pass hp) hrest
      intro q hq
      rcases List.mem_append.mp hq with hq | hq
      · exact hnow q (List.mem_append_left _ hq)
      · rcases List.mem_cons.mp hq with rfl | hq
        · exact hnow q (List.mem_append_left _ hp)
        · exact hnow q (List.mem_append_right _ hq)
  | case3 seen found s rest hpass list hlist ih =>
      obtain ⟨p, pending, rfl, rfl, hrest⟩ := List.map_eq_cons_iff.mp hstack
      have hall : ∀ a ∈ symbols p.2, a ∈ addAll found list := fun a ha =>
        mem_addAll.mpr (.inr (hkept p (h.pending_subset List.mem_cons_self) list hlist ▸ ha))
      have hwalk := h.visit hmemory owners (List.nil_subset memory)
        (fun a ha => mem_addAll.mpr (.inl ha)) (.inl hall)
      have hnow := ih hwalk hrest
      exact fun q hq => hnow q (subset_visit visited pending [] p hq)
  | case4 seen found s rest hpass hnone ih =>
      obtain ⟨p, pending, rfl, rfl, hrest⟩ := List.map_eq_cons_iff.mp hstack
      obtain ⟨entries, hentries, hfst, hsnd⟩ :=
        (hmemory.describes (h.pending_subset List.mem_cons_self)).roots.exists_entries
      have hown : ∀ a ∈ kind.own p.1, a ∈ addAll found (kind.own p.1) :=
        fun a ha => mem_addAll.mpr (.inr ha)
      -- the operands are on the stack now
      have hoperands : ∀ g ∈ p.2.operands, ∃ t, (t, g) ∈ p :: visited ++ (entries ++ pending) := by
        intro g hg
        rw [← hsnd] at hg
        obtain ⟨⟨t, g⟩, ht, rfl⟩ := List.mem_map.mp hg
        exact ⟨t, List.mem_append_right _ (List.mem_append_left _ ht)⟩
      have hwalk := h.visit hmemory owners hentries (fun a ha => mem_addAll.mpr (.inl ha))
        (.inr ⟨hown, hoperands⟩)
      have hnow := ih hwalk (by rw [List.map_append, hfst, hrest])
      exact fun q hq => hnow q (subset_visit visited pending entries p hq)

/-- **The symbols that the walk finds are those of the tree**, whatever is kept and whoever owns the
nodes. -/
theorem Lists.mem_gather_iff (hlists : kind.Lists symbols) (hmemory : Memory code memory)
    (hkept : Sound kept memory symbols) (hp : p ∈ memory) {a : α} :
    a ∈ kind.gather kept owners [p.1] [] [] ↔ a ∈ symbols p.2 := by
  have hstack : [p] ⊆ memory := List.cons_subset.mpr ⟨hp, List.nil_subset memory⟩
  have hstart : kind.Walks symbols memory [] [p] [] [] :=
    ⟨List.nil_subset memory, hstack, by simp, by simp⟩
  constructor
  · intro ha
    rcases of_mem_gather hlists hmemory hkept hstack ha with ha | ⟨q, hq, ha⟩
    · exact absurd ha List.not_mem_nil
    · exact List.mem_singleton.mp hq ▸ ha
  · exact hstart.mem_gather hlists hmemory hkept p List.mem_cons_self a

/-- **Put in order, they are the list of the tree.** -/
theorem Lists.mergeSort_gather (hlists : kind.Lists symbols) (hmemory : Memory code memory)
    (hkept : Sound kept memory symbols) (hp : p ∈ memory) :
    (kind.gather kept owners [p.1] [] []).mergeSort kind.le = symbols p.2 := by
  have hperm : (kind.gather kept owners [p.1] [] []).Perm (symbols p.2) :=
    (List.perm_ext_iff_of_nodup (nodup_gather _ List.nodup_nil) (hlists.nodup p.2)).mpr
      fun a => hlists.mem_gather_iff hmemory hkept hp
  exact ((List.mergeSort_perm _ _).trans hperm).eq_of_pairwise
    (fun a b _ _ => hlists.le_antisymm a b)
    (List.pairwise_mergeSort hlists.le_trans hlists.le_total _) (hlists.pairwise p.2)

/-- **A stored formula answers with the list of its tree**, and what the nodes keep after that is
right as well. -/
theorem Lists.ask_spec (hlists : kind.Lists symbols) (hmemory : Memory code memory)
    (hkept : Sound kept memory symbols) (hp : p ∈ memory) :
    (kind.ask kept owners p.1).1 = symbols p.2 ∧
      Sound (kind.ask kept owners p.1).2 memory symbols := by
  cases hlist : kept p.1.place with
  | some list =>
      rw [ask, hlist]
      exact ⟨hkept p hp list hlist, hkept⟩
  | none =>
      have hanswer : (kind.gather kept owners [p.1] [] []).mergeSort kind.le = symbols p.2 :=
        hlists.mergeSort_gather hmemory hkept hp
      rw [ask, hlist]
      refine ⟨hanswer, fun q hq list hq' => ?_⟩
      dsimp only at hq'
      by_cases hplace : q.1.place = p.1.place
      · obtain rfl := hmemory.eq_of_place hq hp hplace
        rw [hanswer, Function.update_self] at hq'
        exact (Option.some.inj hq').symm
      · rw [Function.update_of_ne hplace] at hq'
        exact hkept q hq list hq'

end SymbolKind

end Propositional

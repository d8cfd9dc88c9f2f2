import Mathlib.Data.List.Sort
import Propositional.Proofs.Construction.Gathering
import Propositional.Proofs.Construction.Positions

/-!
# Formulas That Are Built and Asked

Formulas are built in memory out of each other, and those that have been built are asked for their
variables and operators, in any order. Both lists are kept where they were asked for, and later
walks stop there, so an answer may come from any number of earlier ones.

A store is valid if what its nodes keep is right (`Store.Valid`). A new node keeps nothing, and an
answer is right if what was kept before is, so every store is valid (`Store.valid_run`).

## Main definitions

* `Store`, `Store.Request`, `Store.run`: formulas in memory, and what is requested of them.

## Main results

* `Store.Valid.step`: a store stays valid, whatever is requested.
* `Store.buildable`: every well-formed formula can be built.
* `Store.symbols_exact`: what a formula answers, and what its two lists are.
-/

namespace Propositional

/-- Formulas in memory, with the names and the operators that their nodes keep. -/
structure Store where
  memory : List (Stored × Formula)
  names : Kept String
  operators : Kept Operator

namespace Store

/-- The memory in which nothing has been built. -/
def start : Store where
  memory := []
  names _ := none
  operators _ := none

/-- What can be requested. Formulas are told by their places, and with a question comes the number
of owners that the node at each place has at that time. -/
inductive Request
  | buildVariable (name : String)
  | buildOperation (operator : Operator) (operands : List Nat)
  | askVariables (place : Nat) (owners : Nat → Nat)
  | askOperators (place : Nat) (owners : Nat → Nat)

/-- The store with another node, which keeps nothing yet. -/
def add (store : Store) (s : Stored) (f : Formula) : Store where
  memory := store.memory ++ [(s, f)]
  names := Function.update store.names s.place none
  operators := Function.update store.operators s.place none

/-- The names of variables that a stored formula answers with, and the store after that. -/
def askVariables (store : Store) (owners : Nat → Nat) (s : Stored) : List String × Store :=
  let (found, names) := SymbolKind.names.ask store.names owners s
  (found, { store with names })

/-- The operators that a stored formula answers with, and the store after that. -/
def askOperators (store : Store) (owners : Nat → Nat) (s : Stored) : List Operator × Store :=
  let (found, operators) := SymbolKind.operators.ask store.operators owners s
  (found, { store with operators })

/-- The store after a request. Nothing is built from parts that do not fit, and nothing is done
where no formula is stored. -/
def step (code : Formula → UInt64) (store : Store) : Request → Store
  | .buildVariable name =>
    match Formula.ofName? name with
    | .ok f => store.add (.var store.memory.length (code f) 1 name) f
    | .error _ => store
  | .buildOperation operator places =>
    match places.mapM (store.memory[·]?) with
    | none => store
    | some entries =>
      match Formula.ofOperator? operator (entries.map Prod.snd) with
      | .ok f =>
        store.add (.op store.memory.length (code f) (Stored.sizeOver (entries.map Prod.fst))
          operator (entries.map Prod.fst)) f
      | .error _ => store
  | .askVariables place owners =>
    match store.memory[place]? with
    | some (s, _) => (store.askVariables owners s).2
    | none => store
  | .askOperators place owners =>
    match store.memory[place]? with
    | some (s, _) => (store.askOperators owners s).2
    | none => store

/-- The store after requests that are made one after the other. -/
def run (code : Formula → UInt64) (requests : List Request) : Store :=
  requests.foldl (step code) start

/-! ### Every history -/

variable {code : Formula → UInt64} {store : Store}

/-- What is in memory was built there, and what the nodes keep is right. -/
structure Valid (code : Formula → UInt64) (store : Store) : Prop where
  memory : Memory code store.memory
  names : SymbolKind.Sound store.names store.memory Formula.vars
  operators : SymbolKind.Sound store.operators store.memory Formula.operators

/-- A store in which nothing was built is valid. -/
theorem valid_start (code : Formula → UInt64) : start.Valid code where
  memory := .empty
  names _ hp := absurd hp List.not_mem_nil
  operators _ hp := absurd hp List.not_mem_nil

/-- A store stays valid when a node is built. -/
theorem Valid.add (h : store.Valid code) {s : Stored} {f : Formula}
    (hmemory : Memory code (store.memory ++ [(s, f)])) : (store.add s f).Valid code where
  memory := hmemory
  names := h.names.append hmemory
  operators := h.operators.append hmemory

/-- What is found at places of the memory is in memory. -/
theorem subset_of_mapM {memory entries : List (Stored × Formula)} {places : List Nat}
    (h : places.mapM (memory[·]?) = some entries) : entries ⊆ memory := by
  induction places generalizing entries with
  | nil =>
      obtain rfl := Option.some.inj h
      exact List.nil_subset memory
  | cons place places ih =>
      rw [List.mapM_cons] at h
      obtain ⟨entry, hentry, h⟩ := Option.bind_eq_some_iff.mp h
      obtain ⟨others, hothers, h⟩ := Option.bind_eq_some_iff.mp h
      obtain rfl := Option.some.inj h
      exact List.cons_subset.mpr ⟨List.mem_of_getElem? hentry, ih hothers⟩

/-- **A store stays valid, whatever is requested.** -/
theorem Valid.step (h : store.Valid code) (request : Request) :
    (store.step code request).Valid code := by
  cases request with
  | buildVariable name =>
      rw [Store.step]
      split
      · rename_i f hbuilt
        exact h.add (h.memory.var hbuilt)
      · exact h
  | buildOperation operator places =>
      rw [Store.step]
      split
      · exact h
      · rename_i entries hentries
        split
        · rename_i f hbuilt
          exact h.add (h.memory.op (subset_of_mapM hentries) hbuilt)
        · exact h
  | askVariables place owners =>
      rw [Store.step]
      split
      · rename_i s f hplace
        have hs := List.mem_of_getElem? hplace
        exact ⟨h.memory, (SymbolKind.lists_vars.ask_spec h.memory h.names hs).2, h.operators⟩
      · exact h
  | askOperators place owners =>
      rw [Store.step]
      split
      · rename_i s f hplace
        have hs := List.mem_of_getElem? hplace
        exact ⟨h.memory, h.names, (SymbolKind.lists_operators.ask_spec h.memory h.operators hs).2⟩
      · exact h

/-- **Every store is valid.** -/
theorem valid_run (code : Formula → UInt64) (requests : List Request) :
    (run code requests).Valid code := by
  rw [run]
  generalize start = store, valid_start code = h
  induction requests generalizing store with
  | nil => exact h
  | cons request requests ih => exact ih (store.step code request) (h.step request)

/-! ### Every formula -/

/-- What is in memory is found at its places. -/
theorem exists_mapM_of_subset {memory entries : List (Stored × Formula)} (h : entries ⊆ memory) :
    ∃ places : List Nat, places.mapM (memory[·]?) = some entries := by
  induction entries with
  | nil => exact ⟨[], rfl⟩
  | cons entry entries ih =>
      obtain ⟨hentry, hentries⟩ := List.cons_subset.mp h
      obtain ⟨place, hplace⟩ := List.getElem?_of_mem hentry
      obtain ⟨places, hplaces⟩ := ih hentries
      refine ⟨place :: places, ?_⟩
      rw [List.mapM_cons, hplace, hplaces]
      rfl

/-- An operation can be built if its operands are in memory. -/
theorem exists_step_operation (code : Formula → UInt64) (store : Store) {f : Formula}
    {op : Operator} (hf : f.operator? = some op) {entries : List (Stored × Formula)}
    (hsub : entries ⊆ store.memory) (hoperands : entries.map Prod.snd = f.operands) :
    ∃ (request : Request) (s : Stored),
      (store.step code request).memory = store.memory ++ [(s, f)] := by
  obtain ⟨places, hplaces⟩ := exists_mapM_of_subset hsub
  have hbuilt : Formula.ofOperator? op (entries.map Prod.snd) = .ok f := by
    rw [hoperands, Formula.ofOperator?_eq_rebuild hf rfl, Formula.rebuild_operands]
  refine ⟨.buildOperation op places, .op store.memory.length (code f)
    (Stored.sizeOver (entries.map Prod.fst)) op (entries.map Prod.fst), ?_⟩
  simp only [Store.step, hplaces, hbuilt, Store.add]

/-- The formula can be built, whatever is in memory already, and nothing is lost by it. -/
def Buildable (code : Formula → UInt64) (f : Formula) : Prop :=
  ∀ store : Store, ∃ requests : List Request,
    store.memory ⊆ (requests.foldl (step code) store).memory ∧
      ∃ s, (s, f) ∈ (requests.foldl (step code) store).memory

/-- What can be built one by one can be built all together. -/
theorem exists_entries {gs : List Formula} (h : ∀ g ∈ gs, Buildable code g) (store : Store) :
    ∃ (requests : List Request) (entries : List (Stored × Formula)),
      store.memory ⊆ (requests.foldl (step code) store).memory ∧
        entries ⊆ (requests.foldl (step code) store).memory ∧ entries.map Prod.snd = gs := by
  induction gs generalizing store with
  | nil => exact ⟨[], [], List.Subset.refl _, List.nil_subset _, rfl⟩
  | cons g gs ih =>
      obtain ⟨hg, hgs⟩ := List.forall_mem_cons.mp h
      obtain ⟨first, hkeeps, s, hs⟩ := hg store
      obtain ⟨others, entries, hkeeps', hentries, hsnd⟩ :=
        ih hgs (first.foldl (Store.step code) store)
      refine ⟨first ++ others, (s, g) :: entries, ?_⟩
      rw [List.foldl_append]
      exact ⟨List.Subset.trans hkeeps hkeeps', List.cons_subset.mpr ⟨hkeeps' hs, hentries⟩,
        congrArg (g :: ·) hsnd⟩

/-- **Every well-formed formula can be built.** -/
theorem buildable (code : Formula → UInt64) {f : Formula} (hf : f.WellFormed) :
    Buildable code f := by
  intro store
  induction f using Formula.induction_on_operands generalizing store with
  | var name =>
      have hbuilt : Formula.ofName? name = .ok (.var name) := if_pos hf
      have hstep : (store.step code (.buildVariable name)).memory = store.memory ++
          [(.var store.memory.length (code (.var name)) 1 name, .var name)] := by
        simp only [Store.step, hbuilt, Store.add]
      refine ⟨[.buildVariable name], ?_⟩
      rw [List.foldl_cons, List.foldl_nil, hstep]
      exact ⟨List.subset_append_left _ _, _, List.mem_append_right _ (List.mem_singleton_self _)⟩
  | operation f op hop ih =>
      obtain ⟨requests, entries, hkeeps, hentries, hsnd⟩ :=
        exists_entries (fun g hg => ih g hg (hf.of_operand hg)) store
      obtain ⟨request, s, hstep⟩ := exists_step_operation code _ hop hentries hsnd
      refine ⟨requests ++ [request], ?_⟩
      rw [List.foldl_append, List.foldl_cons, List.foldl_nil, hstep]
      exact ⟨List.subset_append_of_subset_left _ hkeeps, s,
        List.mem_append_right _ (List.mem_singleton_self _)⟩

/-- The operators that occur stand in the list of all operators in the same order. -/
theorem sublist_operators (f : Formula) : f.operators.Sublist Operator.all := by
  have : Std.Antisymm ((· < ·) : Operator → Operator → Prop) :=
    ⟨fun _ _ h h' => absurd h' (Nat.lt_asymm h)⟩
  have : Std.Irrefl ((· < ·) : Operator → Operator → Prop) := ⟨fun op => Nat.lt_irrefl op.rank⟩
  have hall : Operator.all.Pairwise (· < ·) := by decide
  have hmem : ∀ op, op ∈ Operator.all := fun op => List.mem_of_getElem? op.all_get?_rank
  have heq : f.operators = Operator.all.filter (· ∈ f.operators) :=
    f.sorted_operators.eq_of_mem_iff (hall.filter _) fun op => by simp [hmem op]
  rw [heq]
  exact List.filter_sublist

/-- **The variables and the operators of a formula are exact under any sharing.** Let formulas be
built in memory out of each other and asked for their variables and operators in any order, whoever
owns which nodes at the time. What a formula that was built answers then is what its tree has: its
variables are the names that stand at the leaves, each of them once and in ascending order of the
bytes, and its operators are those that stand at the nodes, each of them once and in the order
`T F ~ & | ->`. Whatever has been requested, every well-formed formula can still be built. -/
theorem symbols_exact (code : Formula → UInt64) (requests : List Request) :
    (∀ s f, (s, f) ∈ (run code requests).memory → ∀ owners,
      ((run code requests).askVariables owners s).1 = f.vars ∧
        ((run code requests).askOperators owners s).1 = f.operators) ∧
    (∀ f : Formula,
      (∀ x, x ∈ f.vars ↔ ∃ path, f.subformula? path = some (.var x)) ∧
        f.vars.Nodup ∧ f.vars.Pairwise (fun x y => bytes x < bytes y) ∧
        (∀ op, op ∈ f.operators ↔
          ∃ path g, f.subformula? path = some g ∧ g.operator? = some op) ∧
        f.operators.Nodup ∧
        (f.operators.map Operator.symbol).Sublist ["T", "F", "~", "&", "|", "->"]) ∧
    ∀ f : Formula, f.WellFormed → ∃ more s, (s, f) ∈ (run code (requests ++ more)).memory := by
  have hvalid := valid_run code requests
  refine ⟨fun s f hs owners => ⟨?_, ?_⟩, fun f => ⟨fun x => ?_, f.nodup_vars, ?_, fun op => ?_,
    SymbolKind.lists_operators.nodup f, (sublist_operators f).map Operator.symbol⟩, fun f hf => ?_⟩
  · exact (SymbolKind.lists_vars.ask_spec hvalid.memory hvalid.names hs).1
  · exact (SymbolKind.lists_operators.ask_spec hvalid.memory hvalid.operators hs).1
  · rw [Formula.mem_vars_iff, Formula.mentions_iff_subformula?]
  · exact f.sorted_vars.imp lt_iff_bytes_lt.mp
  · rw [Formula.mem_operators_iff, Formula.uses_iff_subformula?]
  · obtain ⟨more, -, s, hs⟩ := buildable code hf (run code requests)
    refine ⟨more, s, ?_⟩
    rw [run, List.foldl_append]
    exact hs

/-- In `(~p&~p)` the negation is stored once and shared. Once it was asked, it is not entered when
the conjunction is asked. -/
example :
    let store := run (fun _ => 0) [.buildVariable "p", .buildOperation .negation [0],
      .buildOperation (.binary .and) [1, 1], .askVariables 1 fun _ => 2]
    (store.memory[2]?.map fun entry => (store.askVariables (fun _ => 2) entry.1).1,
      store.memory[2]?.map fun entry => (store.askOperators (fun _ => 2) entry.1).1) =
      (some ["p"], some [.negation, .binary .and]) := by
  cbv

end Store

end Propositional

import Mathlib.Logic.Function.Basic
import Propositional.Proofs.Construction.Comparison
import Propositional.Proofs.Construction.Traversals

/-!
# The Texts of Stored Formulas

A formula in memory keeps its text in its node once it has been asked for it. The printer holds the
pieces still to be written on a stack, and where it comes to a node that keeps its text it copies
the text and does not enter the node. So what the printer does depends on which nodes have been
asked before. What it writes does not: a text that is kept is the standard form of the tree
(`Stored.SoundTexts`), and a stored formula on the stack, whatever has been written and whatever
stands below it, adds the standard form to the text (`Memory.adds_standardForm`).

## Main definitions

* `Stored.write?`, `Stored.text?`: the printer, and what is kept of it.
* `Stored.Adds`: what a stored formula on the stack of the printer comes to.
* `TextHistory`: formulas in memory and the texts that they keep, however they were built and asked.

## Main results

* `Memory.adds_standardForm`: a stored formula adds the standard form of its tree.
* `Memory.exists_text?`: it answers with the standard form of its tree.
* `TextHistory.sound`: what is kept after any history is right.
* `Formula.machines_follow_recursion`: traversals, printing and reading back, by recursion.
-/

namespace Propositional

/-- The texts that have been kept in the nodes, by place. -/
abbrev KeptTexts := Nat → Option String

namespace Stored

/-- A piece of text still to be written. -/
inductive Piece
  | formula (s : Stored)
  | symbol (text : String)

/-- A bound on the number of pieces that are written for a piece. -/
noncomputable def Piece.weight : Piece → Nat
  | formula s => 3 * sizeOf s + 1
  | symbol _ => 1

/-- Writes the pieces after what has been written, from the first to the last. A text that is kept
is copied. There is no way to write an operator with more than two operands, and then the result is
`none`. -/
def write? (texts : KeptTexts) (written : String) (pieces : List Piece) : Option String :=
  match pieces with
  | [] => some written
  | .symbol text :: rest => write? texts (written ++ text) rest
  | .formula s :: rest =>
    match texts s.place with
    | some text => write? texts (written ++ text) rest
    | none =>
      match s with
      | .var _ _ _ name => write? texts (written ++ name) rest
      | .op _ _ _ operator [] => write? texts (written ++ operator.symbol) rest
      | .op _ _ _ operator [a] => write? texts (written ++ operator.symbol) (.formula a :: rest)
      | .op _ _ _ operator [a, b] =>
        write? texts (written ++ "(")
          (.formula a :: .symbol operator.symbol :: .formula b :: .symbol ")" :: rest)
      | .op _ _ _ _ (_ :: _ :: _ :: _) => none
termination_by totalWeight Piece.weight pieces
decreasing_by
  all_goals
    simp only [totalWeight_cons, Piece.weight, var.sizeOf_spec, op.sizeOf_spec,
      List.cons.sizeOf_spec, List.nil.sizeOf_spec]
    omega

/-- The text that a stored formula answers with, and what the nodes keep after that. -/
def text? (texts : KeptTexts) (s : Stored) : Option (String × KeptTexts) :=
  match texts s.place with
  | some text => some (text, texts)
  | none => (write? texts "" [.formula s]).map fun text =>
      (text, Function.update texts s.place (some text))

/-- Where a node in memory keeps a text, it is the standard form of the tree. -/
def SoundTexts (texts : KeptTexts) (memory : List (Stored × Formula)) : Prop :=
  ∀ p ∈ memory, ∀ text, texts p.1.place = some text → text = p.2.standardForm

end Stored

open Stored

variable {code : Formula → UInt64} {memory : List (Stored × Formula)} {texts : KeptTexts}
  {s : Stored} {f : Formula}

/-! ### Printing -/

/-- A symbol is written as it is. -/
theorem Stored.write?_symbol (texts : KeptTexts) (written text : String)
    (rest : List Stored.Piece) :
    write? texts written (.symbol text :: rest) = write? texts (written ++ text) rest := by
  rw [write?]

/-- A stored formula on the stack adds the text to what has been written, and is done. -/
def Stored.Adds (texts : KeptTexts) (s : Stored) (text : String) : Prop :=
  ∀ written rest, write? texts written (.formula s :: rest) = write? texts (written ++ text) rest

/-- A text that is kept is copied, so only a node that keeps none is entered. -/
theorem Stored.adds_of_sound {text : String}
    (hsound : ∀ kept, texts s.place = some kept → kept = text)
    (hnone : texts s.place = none → s.Adds texts text) : s.Adds texts text := by
  cases hkept : texts s.place with
  | none => exact hnone hkept
  | some kept =>
      obtain rfl := hsound kept hkept
      intro written rest
      rw [write?.eq_def]
      simp only [hkept]

/-- A variable is written by its name. -/
theorem Stored.adds_var {place size : Nat} {hash : UInt64} (h : texts place = none)
    (name : String) : (var place hash size name).Adds texts name := by
  intro written rest
  rw [write?.eq_def]
  simp only [Stored.place, h]

/-- **An operation adds its standard form if its operands do.** -/
theorem Stored.adds_op {place size : Nat} {hash : UInt64} {operator : Operator}
    (h : texts place = none) (hop : f.operator? = some operator)
    {entries : List (Stored × Formula)} (hoperands : entries.map Prod.snd = f.operands)
    (hentries : ∀ p ∈ entries, p.1.Adds texts p.2.standardForm) :
    (op place hash size operator (entries.map Prod.fst)).Adds texts f.standardForm := by
  intro written rest
  cases f with
  | var name => cases hop
  | const value =>
      obtain rfl := List.map_eq_nil_iff.mp hoperands
      obtain rfl := Option.some.inj hop
      rw [List.map_nil, write?]
      simp only [Stored.place, h]
      rfl
  | not a =>
      obtain ⟨p, rfl, rfl⟩ := List.map_eq_singleton_iff.mp hoperands
      obtain rfl := Option.some.inj hop
      rw [List.map_singleton, write?]
      simp only [Stored.place, h]
      rw [hentries p (List.mem_singleton_self p), String.append_assoc]
      rfl
  | binary c a b =>
      obtain ⟨p, entries', rfl, rfl, hrest⟩ := List.map_eq_cons_iff.mp hoperands
      obtain ⟨q, rfl, rfl⟩ := List.map_eq_singleton_iff.mp hrest
      obtain rfl := Option.some.inj hop
      rw [List.map_cons, List.map_singleton, write?]
      simp only [Stored.place, h]
      rw [hentries p (by simp), write?_symbol, hentries q (by simp), write?_symbol]
      simp only [Formula.standardForm, Operator.symbol, String.append_assoc]

/-- **A stored formula adds the standard form of its tree**, whichever nodes keep their texts. -/
theorem Memory.adds_standardForm (h : Memory code memory) (htexts : SoundTexts texts memory)
    (hs : (s, f) ∈ memory) : s.Adds texts f.standardForm := by
  induction f using Formula.induction_on_operands generalizing s with
  | var name =>
      refine adds_of_sound (htexts _ hs) fun hnone => ?_
      have hroots := (h.describes hs).roots
      cases s with
      | op => cases hroots.1
      | var place hash size name' =>
          obtain rfl : name = name' := Formula.var.inj hroots
          exact adds_var hnone name
  | operation f op hop ih =>
      refine adds_of_sound (htexts _ hs) fun hnone => ?_
      have hroots := (h.describes hs).roots
      cases s with
      | var =>
          obtain rfl : f = .var _ := hroots
          cases hop
      | op place hash size operator operands =>
          obtain ⟨hoperator, entries, hsub, rfl, hsnd⟩ := hroots
          exact adds_op hnone hoperator hsnd fun p hp =>
            ih p.2 (hsnd ▸ List.mem_map_of_mem hp) (hsub hp)

/-- **The printer writes the standard form.** -/
theorem Memory.write?_eq (h : Memory code memory) (htexts : SoundTexts texts memory)
    (hs : (s, f) ∈ memory) : write? texts "" [.formula s] = some f.standardForm := by
  rw [h.adds_standardForm htexts hs, write?, String.empty_append]

/-- **A stored formula answers with the standard form of its tree**, and what the nodes keep after
that is right as well. -/
theorem Memory.exists_text? (h : Memory code memory) (htexts : SoundTexts texts memory)
    (hs : (s, f) ∈ memory) :
    ∃ texts', s.text? texts = some (f.standardForm, texts') ∧ SoundTexts texts' memory := by
  cases hkept : texts s.place with
  | some text =>
      obtain rfl := htexts _ hs text hkept
      exact ⟨texts, by rw [text?, hkept], htexts⟩
  | none =>
      refine ⟨Function.update texts s.place (some f.standardForm), ?_, fun q hq text htext => ?_⟩
      · rw [text?, hkept, h.write?_eq htexts hs]
        rfl
      · by_cases hplace : q.1.place = s.place
        · obtain rfl := h.eq_of_place hq hs hplace
          rw [Function.update_self] at htext
          exact (Option.some.inj htext).symm
        · rw [Function.update_of_ne hplace] at htext
          exact htexts q hq text htext

/-- What was answered is kept. -/
theorem Stored.kept_of_text? {text : String} {texts' : KeptTexts}
    (h : s.text? texts = some (text, texts')) : texts' s.place = some text := by
  cases hkept : texts s.place with
  | some kept =>
      rw [text?, hkept] at h
      obtain ⟨rfl, rfl⟩ := Prod.mk.inj (Option.some.inj h)
      exact hkept
  | none =>
      rw [text?, hkept] at h
      obtain ⟨written, -, hanswer⟩ := Option.map_eq_some_iff.mp h
      obtain ⟨rfl, rfl⟩ := Prod.mk.inj hanswer
      exact Function.update_self ..

/-- What was in memory before the last formulas were built had been built there. -/
theorem Memory.of_prefix {built : List (Stored × Formula)} (h : Memory code memory)
    (hbuilt : built <+: memory) : Memory code built := by
  induction h with
  | empty => exact List.prefix_nil.mp hbuilt ▸ .empty
  | var hmemory hname ih =>
      rcases List.prefix_concat_iff.mp hbuilt with rfl | hbuilt
      · exact hmemory.var hname
      · exact ih hbuilt
  | op hmemory hsub hop ih =>
      rcases List.prefix_concat_iff.mp hbuilt with rfl | hbuilt
      · exact hmemory.op hsub hop
      · exact ih hbuilt

/-! ### Histories -/

/-- Formulas in memory and the texts that their nodes keep, after formulas were built and asked for
their texts in any order. A new node keeps nothing. -/
inductive TextHistory (code : Formula → UInt64) : List (Stored × Formula) → KeptTexts → Prop
  | start : TextHistory code [] fun _ => none
  | build {memory : List (Stored × Formula)} {texts : KeptTexts} {p : Stored × Formula} :
      TextHistory code memory texts → Memory code (memory ++ [p]) →
      TextHistory code (memory ++ [p]) (Function.update texts p.1.place none)
  | ask {memory : List (Stored × Formula)} {texts texts' : KeptTexts} {p : Stored × Formula}
      {text : String} :
      TextHistory code memory texts → p ∈ memory → p.1.text? texts = some (text, texts') →
      TextHistory code memory texts'

namespace TextHistory

/-- What is in memory was built there, and what the nodes keep is right. -/
theorem sound (h : TextHistory code memory texts) :
    Memory code memory ∧ SoundTexts texts memory := by
  induction h with
  | start => exact ⟨.empty, fun p hp => absurd hp List.not_mem_nil⟩
  | @build memory texts p _ hmemory ih =>
      refine ⟨hmemory, fun q hq text htext => ?_⟩
      rcases List.mem_append.mp hq with hq | hq
      · rw [Function.update_of_ne (hmemory.place_ne hq (List.mem_singleton_self p))] at htext
        exact ih.2 q hq text htext
      · obtain rfl := List.mem_singleton.mp hq
        rw [Function.update_self] at htext
        cases htext
  | @ask memory texts texts' p text _ hp hasked ih =>
      obtain ⟨texts'', hanswer, hsound⟩ := ih.1.exists_text? ih.2 hp
      rw [hanswer] at hasked
      obtain ⟨-, rfl⟩ := Prod.mk.inj (Option.some.inj hasked)
      exact ⟨ih.1, hsound⟩

/-- What is built after any history is part of a longer one. -/
theorem exists_append (h : TextHistory code memory texts) {more : List (Stored × Formula)}
    (hmore : Memory code (memory ++ more)) :
    ∃ texts', TextHistory code (memory ++ more) texts' := by
  induction more generalizing memory texts with
  | nil => exact ⟨texts, (List.append_nil memory).symm ▸ h⟩
  | cons p more ih =>
      rw [← List.singleton_append, ← List.append_assoc] at hmore ⊢
      exact ih (h.build (hmore.of_prefix (List.prefix_append _ _))) hmore

end TextHistory

namespace Formula

/-- **The machines with a stack of their own do what the recursions say.** The preorder is the
formula, then the preorders of its operands from left to right; the postorder is the postorders of
its operands from left to right, then the formula. From any stack on, what is listed is what the
entries stand for, one after the other, and it is what `next?` yields. The text is the standard
form, and however formulas were built in memory and whichever of them were asked for their texts
before, a stored formula is written in the standard form of its tree, and answers with it; every
formula may be built after any such history. A symbol takes as many formulas off a stack as the
checked builder takes operands, and the symbols in postorder leave the formula on the stack, so it
is built again from them. -/
theorem machines_follow_recursion (f : Formula) :
    (f.preorder = f :: f.operands.flatMap preorder ∧
      ∀ t : Preorder, t.toList = t.pending.flatMap preorder ∧
        t.toList = match t.next? with
          | none => []
          | some (g, t') => g :: t'.toList) ∧
    (f.postorder = f.operands.flatMap postorder ++ [f] ∧
      ∀ t : Postorder, t.toList = t.pending.flatMap Postorder.entryList ∧
        t.toList = match t.next? with
          | none => []
          | some (g, t') => g :: t'.toList) ∧
    (f.text = f.standardForm ∧
      ∀ code memory texts, TextHistory code memory texts →
        (∀ s, (s, f) ∈ memory →
          write? texts "" [.formula s] = some f.standardForm ∧
            ∃ texts', s.text? texts = some (f.standardForm, texts') ∧
              TextHistory code memory texts') ∧
        (f.WellFormed → ∃ more texts' s,
          TextHistory code (memory ++ more) texts' ∧ (s, f) ∈ more)) ∧
    (∀ symbol operands g, ofRoot? symbol operands = .ok g → ∀ finished,
      buildStep? (operands.reverse ++ finished) symbol = some (g :: finished)) ∧
    (f.WellFormed →
      (∀ finished, (f.postorder.map root).foldlM buildStep? finished = some (f :: finished)) ∧
        ofPostorder? (f.postorder.map root) = some f) := by
  refine ⟨⟨f.preorder_eq_cons, fun t => ⟨t.toList_eq, t.toList_eq_next⟩⟩,
    ⟨f.postorder_eq_append, fun t => ⟨t.toList_eq, t.toList_eq_next⟩⟩, ⟨f.text_eq, ?_⟩,
    fun symbol operands g => buildStep?_of_ofRoot?,
    fun hf => ⟨foldlM_buildStep? hf, ofPostorder?_map_root hf⟩⟩
  intro code memory texts h
  obtain ⟨hmemory, htexts⟩ := h.sound
  refine ⟨fun s hs => ⟨hmemory.write?_eq htexts hs, ?_⟩, fun hf => ?_⟩
  · obtain ⟨texts', hanswer, -⟩ := hmemory.exists_text? htexts hs
    exact ⟨texts', hanswer, h.ask hs hanswer⟩
  · obtain ⟨more, s, hmore, hs⟩ := hmemory.exists_built hf
    obtain ⟨texts', hhistory⟩ := h.exists_append hmore
    exact ⟨more, texts', s, hhistory, hs⟩

/-- The negation in `(~p&~p)` is stored once, and was asked for its text. It is copied twice. -/
theorem machines_follow_recursion_shared :
    ∃ memory texts s t, TextHistory (fun _ => 0) memory texts ∧ (t, not (var "p")) ∈ memory ∧
      texts t.place = some "~p" ∧ (s, binary .and (not (var "p")) (not (var "p"))) ∈ memory ∧
      write? texts "" [.formula s] = some "(~p&~p)" ∧
      ofPostorder? ["p", "~", "p", "~", "&"] =
        some (binary .and (not (var "p")) (not (var "p"))) := by
  have hp := (Memory.empty : Memory (fun _ => 0) []).var
    (show ofName? "p" = .ok (var "p") from rfl)
  have hn := hp.op (List.Subset.refl _)
    (show ofOperator? .negation [var "p"] = .ok (not (var "p")) from rfl)
  have hc := hn.op (List.cons_subset.mpr ⟨List.mem_append_right _ (List.mem_singleton_self _),
      List.subset_append_right _ _⟩)
    (show ofOperator? (.binary .and) [not (var "p"), not (var "p")] = .ok _ from rfl)
  have hbuilt := (TextHistory.start.build hp).build hn
  obtain ⟨-, texts, hasked, hhistory⟩ :=
    ((machines_follow_recursion (not (var "p"))).2.2.1.2 _ _ _ hbuilt).1 _
      (List.mem_append_right _ (List.mem_singleton_self _))
  obtain ⟨-, -, ⟨-, htexts⟩, -, hsymbols⟩ :=
    machines_follow_recursion (binary .and (not (var "p")) (not (var "p")))
  obtain ⟨hwritten, -⟩ := (htexts _ _ _ (hhistory.build hc)).1 _
    (List.mem_append_right _ (List.mem_singleton_self _))
  have hname : isVariable "p" = true := by decide
  obtain ⟨-, hread⟩ := hsymbols ⟨hname, hname⟩
  rw [postorder_eq] at hread
  refine ⟨_, _, _, _, hhistory.build hc,
    List.mem_append_left _ (List.mem_append_right _ (List.mem_singleton_self _)), ?_,
    List.mem_append_right _ (List.mem_singleton_self _), hwritten, hread⟩
  -- the conjunction was built in another place
  exact (Function.update_of_ne (by decide) _ _).trans (kept_of_text? hasked)

end Formula

end Propositional

import Propositional.Proofs.Text.ByteOrder
import Propositional.Text.Polish
import Propositional.Text.Standard

/-!
# Where Subformulas Stand in a Text

Both notations write an operation as its operands with some text before, between and
after them, and differ only in these texts (`Layout`). So the place of a subformula in the
text of the whole is found in the same way for both: `Layout.occurrences` lists all
occurrences of subformulas, in the order in which they begin, each with the number of
operations around it and the text before it.

The numbers of operations rise by at most one from an occurrence to the next. Hence the
first occurrence under `d` operations or more is one under exactly `d` operations, and
there is none iff the depth of the formula is at most `d`.

## Main results

* `Layout.write_standard`, `Layout.write_polish`: the two notations as layouts.
* `Layout.map_formula_occurrences`: the occurrences are those of all subformulas.
* `Layout.exists_write_eq`: an occurrence stands in the text where it is said to.
* `Layout.pairwise_before`: the occurrences are listed in the order of the text.
* `Layout.forall_enclosing_lt_iff`: the depth bounds the operations around occurrences.
* `Layout.enclosing_of_find?`: the first occurrence under too many operations.
-/

namespace Propositional

/-- What a notation writes before, between and after the operands of an operation. -/
structure Layout where
  negation : String
  opening : Connective → String
  between : Connective → String
  closing : Connective → String

/-- A subformula where it occurs in a formula: the number of operations around it, and the
text of the whole formula before it. -/
structure Occurrence where
  formula : Formula
  enclosing : Nat
  before : String

namespace Layout

/-- The standard notation has connectives between operands, in parentheses. -/
def standard : Layout :=
  ⟨"~", fun _ => "(", Connective.symbol, fun _ => ")"⟩

/-- The polish notation has connectives before operands. -/
def polish : Layout :=
  ⟨"~", Connective.symbol, fun _ => "", fun _ => ""⟩

/-- The text of a formula. -/
def write (n : Layout) : Formula → String
  | .var name => name
  | .const value => (Operator.constant value).symbol
  | .not f => n.negation ++ n.write f
  | .binary c f g => n.opening c ++ n.write f ++ n.between c ++ n.write g ++ n.closing c

/-- The occurrences of subformulas in a formula that itself occurs under `enclosing`
operations, after the text `before`, in the order in which they begin. -/
def occurrences (n : Layout) (enclosing : Nat) (before : String) : Formula → List Occurrence
  | .var name => [⟨.var name, enclosing, before⟩]
  | .const value => [⟨.const value, enclosing, before⟩]
  | .not f => ⟨.not f, enclosing, before⟩ :: n.occurrences (enclosing + 1) (before ++ n.negation) f
  | .binary c f g =>
    ⟨.binary c f g, enclosing, before⟩ ::
      (n.occurrences (enclosing + 1) (before ++ n.opening c) f ++
        n.occurrences (enclosing + 1) (before ++ n.opening c ++ n.write f ++ n.between c) g)

/-- The standard notation is that of `Formula.text`. -/
theorem write_standard (f : Formula) : standard.write f = f.text := by
  rw [Formula.text_eq]
  induction f with
  | var | const => rfl
  | not f ih => rw [write, ih]; rfl
  | binary c f g ihf ihg => rw [write, ihf, ihg]; rfl

/-- The polish notation is that of `Formula.polish`. -/
theorem write_polish (f : Formula) : polish.write f = f.polish := by
  rw [Formula.polish_eq]
  induction f with
  | var | const => rfl
  | not f ih => rw [write, ih]; rfl
  | binary c f g ihf ihg =>
      rw [write, ihf, ihg]
      simp [polish, Formula.polishForm, String.append_assoc]

/-- The occurrences are those of all subformulas. -/
theorem map_formula_occurrences (n : Layout) (f : Formula) (enclosing : Nat) (before : String) :
    (n.occurrences enclosing before f).map Occurrence.formula = f.preorderForm := by
  induction f generalizing enclosing before with
  | var | const => rfl
  | not f ih => rw [occurrences, List.map_cons, ih]; rfl
  | binary c f g ihf ihg => rw [occurrences, List.map_cons, List.map_append, ihf, ihg]; rfl

variable {n : Layout} {f : Formula} {enclosing : Nat} {before : String} {o : Occurrence}

/-- **An occurrence stands in the text of the formula where it is said to stand.** -/
theorem exists_write_eq (ho : o ∈ n.occurrences enclosing before f) :
    ∃ start after, o.before = before ++ start ∧
      n.write f = start ++ n.write o.formula ++ after := by
  induction f generalizing enclosing before with
  | var | const =>
      obtain rfl := List.mem_singleton.mp ho
      exact ⟨"", "", by simp⟩
  | not f ih =>
      rcases List.mem_cons.mp ho with rfl | ho
      · exact ⟨"", "", by simp⟩
      · obtain ⟨start, after, hbefore, hwrite⟩ := ih ho
        refine ⟨n.negation ++ start, after, ?_, ?_⟩
        · rw [hbefore, String.append_assoc]
        · simp only [write, hwrite, String.append_assoc]
  | binary c f g ihf ihg =>
      rcases List.mem_cons.mp ho with rfl | ho
      · exact ⟨"", "", by simp⟩
      rcases List.mem_append.mp ho with ho | ho
      · obtain ⟨start, after, hbefore, hwrite⟩ := ihf ho
        refine ⟨n.opening c ++ start, after ++ n.between c ++ n.write g ++ n.closing c, ?_, ?_⟩
        · rw [hbefore, String.append_assoc]
        · simp only [write, hwrite, String.append_assoc]
      · obtain ⟨start, after, hbefore, hwrite⟩ := ihg ho
        refine ⟨n.opening c ++ n.write f ++ n.between c ++ start, after ++ n.closing c, ?_, ?_⟩
        · simp only [hbefore, String.append_assoc]
        · simp only [write, hwrite, String.append_assoc]

/-- What is before an occurrence begins with what is before the whole formula, -/
theorem isPrefix_before (ho : o ∈ n.occurrences enclosing before f) :
    before.toList <+: o.before.toList := by
  obtain ⟨start, after, hbefore, -⟩ := exists_write_eq ho
  exact ⟨start.toList, by rw [hbefore, String.toList_append]⟩

/-- and the text of the whole formula begins with it. -/
theorem isPrefix_write (ho : o ∈ n.occurrences enclosing before f) :
    o.before.toList <+: (before ++ n.write f).toList := by
  obtain ⟨start, after, hbefore, hwrite⟩ := exists_write_eq ho
  refine ⟨(n.write o.formula ++ after).toList, ?_⟩
  rw [hbefore, hwrite, ← String.toList_append, String.append_assoc, String.append_assoc]

/-- **The occurrences are listed in the order of the text.** -/
theorem pairwise_before (n : Layout) (f : Formula) (enclosing : Nat) (before : String) :
    (n.occurrences enclosing before f).Pairwise fun o o' =>
      o.before.toList <+: o'.before.toList := by
  induction f generalizing enclosing before with
  | var | const => exact List.pairwise_singleton _ _
  | not f ih =>
      refine List.pairwise_cons.mpr ⟨fun o ho => ?_, ih _ _⟩
      exact (isPrefix_before (o := o) (f := .not f) (List.mem_cons_of_mem _ ho))
  | binary c f g ihf ihg =>
      refine List.pairwise_cons.mpr
        ⟨fun o ho => ?_, List.pairwise_append.mpr ⟨ihf _ _, ihg _ _, ?_⟩⟩
      · exact (isPrefix_before (o := o) (f := .binary c f g) (List.mem_cons_of_mem _ ho))
      · intro o ho o' ho'
        have hfirst : (before ++ n.opening c ++ n.write f).toList <+: o'.before.toList := by
          refine List.IsPrefix.trans ⟨(n.between c).toList, ?_⟩ (isPrefix_before ho')
          rw [← String.toList_append]
        exact (isPrefix_write ho).trans hfirst

/-- **The depth of a formula bounds the number of operations around its subformulas.** -/
theorem forall_enclosing_lt_iff (n : Layout) (f : Formula) (enclosing : Nat) (before : String)
    (d : Nat) :
    (∀ o ∈ n.occurrences enclosing before f, o.enclosing < d) ↔ enclosing + f.depth ≤ d := by
  induction f generalizing enclosing before with
  | var | const =>
      simp only [occurrences, List.mem_singleton, forall_eq, Formula.depth]
      exact Nat.lt_iff_add_one_le
  | not f ih =>
      rw [occurrences, List.forall_mem_cons, ih, Formula.depth]
      dsimp only
      omega
  | binary c f g ihf ihg =>
      rw [occurrences, List.forall_mem_cons, List.forall_mem_append, ihf, ihg, Formula.depth]
      dsimp only
      omega

/-- The first occurrence under `d` operations or more is the whole formula, or it is found
among the operands. -/
theorem enclosing_of_find?_cons {d : Nat} {rest : List Occurrence} (hd : enclosing ≤ d)
    (h : (⟨f, enclosing, before⟩ :: rest).find? (fun o => d ≤ o.enclosing) = some o)
    (hrest : enclosing < d → rest.find? (fun o => d ≤ o.enclosing) = some o → o.enclosing = d) :
    o.enclosing = d := by
  rcases Nat.lt_or_eq_of_le hd with hlt | rfl
  · rw [List.find?_cons_of_neg (by simpa using hlt)] at h
    exact hrest hlt h
  · rw [List.find?_cons_of_pos (by simp)] at h
    exact Option.some.inj h ▸ rfl

/-- **The first occurrence under `d` operations or more is one under exactly `d`.** -/
theorem enclosing_of_find? {d : Nat} (hd : enclosing ≤ d)
    (h : (n.occurrences enclosing before f).find? (fun o => d ≤ o.enclosing) = some o) :
    o.enclosing = d := by
  induction f generalizing enclosing before with
  | var | const => exact enclosing_of_find?_cons hd h fun _ hnone => by cases hnone
  | not f ih => exact enclosing_of_find?_cons hd h fun hlt => ih hlt
  | binary c f g ihf ihg =>
      refine enclosing_of_find?_cons hd h fun hlt hrest => ?_
      rw [List.find?_append, Option.or_eq_some_iff] at hrest
      rcases hrest with hfirst | ⟨-, hsecond⟩
      · exact ihf hlt hfirst
      · exact ihg hlt hsecond

end Layout

end Propositional

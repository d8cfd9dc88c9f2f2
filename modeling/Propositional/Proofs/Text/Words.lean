import Propositional.Text.Split

/-!
# The Words of a Text

A text is cut at a separator, and the empty parts are dropped (`Split.words`). It may as well be cut
in two at any separator first (`Split.words_append_cons`), so that the words of a text that was put
together can be read off what it was put together from.

## Main definitions

* `Split.words`: the parts of a text between the separators, without the empty ones.

## Main results

* `Split.all_eq_splitOn`: a text is cut at every separator.
* `Split.all_append_cons`, `Split.words_append_cons`: each separator cuts a text in two.
* `Split.words_intercalate`: what was joined by separators is found again.
-/

namespace Propositional.Split

variable {separator : Char}

/-- A text is cut at every separator. -/
theorem all_eq_splitOn (separator : Char) (xs : List Char) :
    all separator xs = xs.splitOn separator := by
  induction xs with
  | nil => rfl
  | cons x xs ih =>
      rw [all, List.splitOn_cons_eq_if_modifyHead, ← ih]
      simp only [beq_iff_eq]
      split
      · rfl
      · cases hall : all separator xs with
        | nil => exact absurd (ih ▸ hall) (List.splitOn_ne_nil separator xs)
        | cons part parts => rfl

/-- Each separator cuts a text in two. -/
@[simp] theorem all_append_cons (xs ys : List Char) :
    all separator (xs ++ separator :: ys) = all separator xs ++ all separator ys := by
  simp only [all_eq_splitOn, List.splitOn_append_cons_self]

/-- A text without separators is one part. -/
theorem all_of_notMem {xs : List Char} (h : separator ∉ xs) : all separator xs = [xs] := by
  rw [all_eq_splitOn, List.splitOn_eq_singleton h]

/-- The parts of a text between the separators, without the empty ones. -/
def words (separator : Char) (xs : List Char) : List (List Char) :=
  (all separator xs).filter (!·.isEmpty)

@[simp] theorem words_nil : words separator [] = [] := rfl

/-- Each separator cuts the words in two lists. -/
@[simp] theorem words_append_cons (xs ys : List Char) :
    words separator (xs ++ separator :: ys) = words separator xs ++ words separator ys := by
  simp only [words, all_append_cons, List.filter_append]

/-- A text without separators is one word. -/
theorem words_of_notMem {xs : List Char} (h : separator ∉ xs) (hne : xs ≠ []) :
    words separator xs = [xs] := by
  rw [words, all_of_notMem h]
  exact List.filter_cons_of_pos (by simpa using hne)

/-- Separators at the end make no further words. -/
theorem words_append_replicate (xs : List Char) (k : Nat) :
    words separator (xs ++ List.replicate k separator) = words separator xs := by
  induction k generalizing xs with
  | zero => rw [List.replicate_zero, List.append_nil]
  | succ k ih =>
      rw [List.replicate_succ, words_append_cons, ← List.nil_append (List.replicate k separator),
        ih, words_nil, List.append_nil]

/-- What was joined by separators is found again. -/
theorem words_intercalate {parts : List (List Char)}
    (h : ∀ part ∈ parts, separator ∉ part ∧ part ≠ []) :
    words separator ([separator].intercalate parts) = parts := by
  cases parts with
  | nil => rfl
  | cons part parts =>
      rw [words, all_eq_splitOn, List.splitOn_intercalate separator (fun xs hxs => (h xs hxs).1)
        (List.cons_ne_nil part parts), List.filter_eq_self]
      intro xs hxs
      simpa using (h xs hxs).2

end Propositional.Split

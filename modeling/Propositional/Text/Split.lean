/-!
# Cutting Text at a Separator

A text is cut at the first place where a separator stands, or at all of them. The separators belong
to none of the parts.

## Main definitions

* `Split.first`: the part before the first separator, and the part after it if there is one.
* `Split.all`: all parts, of which there is one more than there are separators.

## Main results

* `Split.first_eq`, `Split.first_none`: joined by the separator, the parts are the text.
* `Split.not_mem_first`: the first part holds no separator.
* `Split.first_append`, `Split.first_of_not_mem`: conversely, such parts are found.
-/

namespace Propositional.Split

/-- The characters before the first separator, and those after it if there is a separator. -/
def first (separator : Char) : List Char → List Char × Option (List Char)
  | [] => ([], none)
  | c :: cs =>
    if c = separator then ([], some cs)
    else
      let (before, after) := first separator cs
      (c :: before, after)

/-- The parts between the separators, empty ones included. -/
def all (separator : Char) : List Char → List (List Char)
  | [] => [[]]
  | c :: cs =>
    if c = separator then [] :: all separator cs
    else
      match all separator cs with
      | [] => [[c]]
      | part :: parts => (c :: part) :: parts

/-- Where a separator stands, it joins the parts to the text. -/
theorem first_eq {separator : Char} {cs after : List Char}
    (h : (first separator cs).2 = some after) :
    cs = (first separator cs).1 ++ separator :: after := by
  induction cs with
  | nil => simp [first] at h
  | cons c cs ih =>
    by_cases hc : c = separator
    · simp_all [first]
    · simp only [first, hc, if_false] at h ⊢
      simpa using ih h

/-- Where no separator stands, the first part is the text. -/
theorem first_none {separator : Char} {cs : List Char} (h : (first separator cs).2 = none) :
    (first separator cs).1 = cs := by
  induction cs with
  | nil => rfl
  | cons c cs ih =>
    by_cases hc : c = separator
    · simp [first, hc] at h
    · simp only [first, hc, if_false] at h ⊢
      rw [ih h]

/-- The first part holds no separator. -/
theorem not_mem_first (separator : Char) (cs : List Char) :
    separator ∉ (first separator cs).1 := by
  induction cs with
  | nil => simp [first]
  | cons c cs ih =>
    by_cases hc : c = separator
    · simp [first, hc]
    · simp only [first, hc, if_false]
      rw [List.mem_cons, not_or]
      exact ⟨fun h => hc h.symm, ih⟩

/-- Where no separator stands before it, a separator is the first one. -/
theorem first_append {separator : Char} {before : List Char} (h : separator ∉ before)
    (after : List Char) :
    first separator (before ++ separator :: after) = (before, some after) := by
  induction before with
  | nil => simp [first]
  | cons c before ih =>
    obtain ⟨hc, hbefore⟩ := not_or.mp (mt List.mem_cons.mpr h)
    rw [List.cons_append, first, if_neg (Ne.symm hc), ih hbefore]

/-- A text without separators is the first part, and there is no second one. -/
theorem first_of_not_mem {separator : Char} {cs : List Char} (h : separator ∉ cs) :
    first separator cs = (cs, none) := by
  induction cs with
  | nil => rfl
  | cons c cs ih =>
    obtain ⟨hc, hcs⟩ := not_or.mp (mt List.mem_cons.mpr h)
    rw [first, if_neg (Ne.symm hc), ih hcs]

end Propositional.Split

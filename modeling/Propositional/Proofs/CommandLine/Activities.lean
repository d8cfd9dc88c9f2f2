import Mathlib.Data.List.TakeWhile
import Mathlib.Tactic.SplitIfs
import Propositional.CommandLine.Run
import Propositional.Proofs.Text.ByteOrder

/-!
# Running Activities

What a command does is described by its result and the text that it prints, whatever was printed
before (`Activity.Yields`), and the descriptions of two activities are put together to one of both
(`Activity.Yields.bind`). Records may be made on the way as long as they are not written unless
asked for. A command that is described like that ends the program with exit code 0, the text and no
message (`Activity.runProgram_eq_of_yields`). Activities that may fail, but neither print nor make
records, are described by their result or error (`Activity.Settles`).

A formula may be given as the first line of the input. Its bytes are cut off at the first line feed,
which is no part of the code of another character, decoded, and freed from the line end.

## Main definitions

* `Activity.Yields`: the result of an activity and what it prints.
* `Activity.Settles`: the result or the error of an activity without effects.

## Main results

* `Activity.Yields.bind`, `Activity.yields_mapM`: one activity after the other.
* `Activity.firstLine_bytes`, `Activity.trimLineEnd_append`, `Activity.yields_formulaText`: the
  first line of the input.
* `Activity.runProgram_eq_of_yields`: how the program ends.
-/

namespace Propositional

namespace Activity

variable {α β : Type}

/-! ### Results and printed texts -/

/-- The activity has the result `a` and prints `text` after what was printed before. Records that
it makes are written only if they are asked for. -/
def Yields (x : Activity α) (a : α) (text : String) : Prop :=
  ∀ out : Output, ∃ records, (∀ r ∈ records, LogLevel.default.admits r.severity = false) ∧
    x.run out = (.ok a, ⟨out.printed ++ text, out.records ++ records⟩)

theorem yields_pure (a : α) : Yields (pure a) a "" := by
  intro out
  refine ⟨[], List.forall_mem_nil _, ?_⟩
  rw [String.append_empty, List.append_nil]
  rfl

theorem yields_lift_ok {ε : Type} (cause : ε → Error) (a : α) : Yields (lift cause (.ok a)) a "" :=
  yields_pure a

theorem yields_print (line : String) : Yields (print line) () (line ++ "\n") := by
  intro out
  refine ⟨[], List.forall_mem_nil _, ?_⟩
  rw [← String.append_assoc, List.append_nil]
  rfl

theorem yields_log {severity : Severity} (h : LogLevel.default.admits severity = false)
    (message : String) : Yields (log severity message) () "" := by
  intro out
  refine ⟨[⟨severity, message⟩], List.forall_mem_singleton.mpr h, ?_⟩
  rw [String.append_empty]
  rfl

/-- **One activity goes on with the result of another one** and prints after it. -/
theorem Yields.bind {x : Activity α} {next : α → Activity β} {a : α} {b : β} {s t : String}
    (hx : Yields x a s) (hnext : Yields (next a) b t) : Yields (x >>= next) b (s ++ t) := by
  intro out
  obtain ⟨records, hrecords, hrun⟩ := hx out
  obtain ⟨records', hrecords', hrun'⟩ := hnext ⟨out.printed ++ s, out.records ++ records⟩
  refine ⟨records ++ records', List.forall_mem_append.mpr ⟨hrecords, hrecords'⟩, ?_⟩
  rw [ExceptT.run_bind]
  simp only [Bind.bind, StateT.bind, hrun]
  rw [← String.append_assoc, ← List.append_assoc]
  exact hrun'

/-- An activity that prints nothing may come before another one. -/
theorem Yields.then {x : Activity α} {next : α → Activity β} {a : α} {b : β} {t : String}
    (hx : Yields x a "") (hnext : Yields (next a) b t) : Yields (x >>= next) b t := by
  rw [← String.empty_append (s := t)]
  exact hx.bind hnext

/-- Activities that print nothing yield the list of their results. -/
theorem yields_mapM {act : α → Activity β} {result : α → β} {xs : List α}
    (h : ∀ x ∈ xs, Yields (act x) (result x) "") : Yields (xs.mapM act) (xs.map result) "" := by
  induction xs with
  | nil => exact yields_pure []
  | cons x xs ih =>
      obtain ⟨hx, hxs⟩ := List.forall_mem_cons.mp h
      rw [List.mapM_cons]
      exact hx.then ((ih hxs).then (yields_pure _))

/-- A command that yields a text ends the program with exit code 0 and no message. -/
theorem runProgram_eq_of_yields {reader : ArgumentReader} {arguments : List String}
    {input : List UInt8} {command : Command} {text : String}
    (hread : reader arguments = .ok ⟨.default, command⟩)
    (h : Yields (command.run input) () text) :
    runProgram reader arguments input = ⟨0, text, ""⟩ := by
  obtain ⟨records, hrecords, hrun⟩ := h {}
  have hfilter : records.filter (fun r => LogLevel.default.admits r.severity) = [] :=
    List.filter_eq_nil_iff.mpr fun r hr => by rw [hrecords r hr]; decide
  simp only [runProgram, hread, hrun]
  rw [writtenRecords, List.nil_append, hfilter, String.empty_append]
  rfl

/-! ### Activities without effects -/

/-- The activity has the given result or error; it prints nothing and makes no records. -/
def Settles (x : Activity α) (r : Except CommandError α) : Prop :=
  ∀ out : Output, x.run out = (r, out)

theorem settles_pure (a : α) : Settles (pure a) (.ok a) := fun _ => rfl

theorem settles_throw (e : CommandError) : Settles (throw e : Activity α) (.error e) :=
  fun _ => rfl

theorem settles_lift {ε : Type} (cause : ε → Error) {x r : Except ε α} (h : x = r) :
    Settles (lift cause x) (r.mapError fun e => .failed (cause e)) := by
  subst h
  cases x with
  | ok a => exact settles_pure a
  | error e => exact settles_throw _

/-- An activity goes on with the result of one that has no effects as if it had been given it. -/
theorem Settles.run_bind {x : Activity α} {a : α} (hx : Settles x (.ok a))
    (next : α → Activity β) (out : Output) : (x >>= next).run out = (next a).run out := by
  rw [ExceptT.run_bind]
  simp only [Bind.bind, StateT.bind, hx out]

/-- One activity goes on with the result of another one. -/
theorem Settles.then {x : Activity α} {next : α → Activity β} {a : α} {r : Except CommandError β}
    (hx : Settles x (.ok a)) (hnext : Settles (next a) r) : Settles (x >>= next) r :=
  fun out => (hx.run_bind next out).trans (hnext out)

/-- An activity that fails is not gone on with. -/
theorem Settles.stop {x : Activity α} {e : CommandError} (hx : Settles x (.error e))
    (next : α → Activity β) : Settles (x >>= next) (.error e) := by
  intro out
  rw [ExceptT.run_bind]
  simp only [Bind.bind, StateT.bind, hx out]
  rfl

/-- An activity has one result or error. -/
theorem Settles.unique {x : Activity α} {r r' : Except CommandError α} (h : Settles x r)
    (h' : Settles x r') : r = r' :=
  congrArg Prod.fst ((h {}).symm.trans (h' {}))

/-- A text is cut at its first `=`. -/
theorem settles_pair {name : String} (h : '=' ∉ name.toList) (value : String) :
    Settles (pair (name ++ "=" ++ value)) (.ok (name, value)) := by
  have hchars : (name ++ "=" ++ value).toList = name.toList ++ '=' :: value.toList := by simp
  rw [pair, hchars, Split.first_append h]
  simp only [String.ofList_toList]
  exact settles_pure _

/-- A text without `=` cannot be cut. -/
theorem settles_pair_of_not_mem {argument : String} (h : '=' ∉ argument.toList) :
    Settles (pair argument) (.error (.expectedPair argument)) := by
  rw [pair, Split.first_of_not_mem h]
  exact settles_throw _

/-- A formula is read, or its error reported. -/
theorem settles_formula {s : String} {maxDepth : Option Nat} {r : Except SyntaxError Formula}
    (h : parse s maxDepth = r) :
    Settles (formula s maxDepth) (r.mapError fun e => .failed (.ofText e)) :=
  settles_lift _ h

/-! ### The first line of the input -/

/-- The first line is what stands before the first line feed, and the line feed. -/
theorem firstLine_append {line : List UInt8} (h : 10 ∉ line) (rest : List UInt8) :
    firstLine (line ++ 10 :: rest) = line ++ [10] := by
  induction line with
  | nil => rfl
  | cons b line ih =>
      obtain ⟨hb, hline⟩ := not_or.mp (mt List.mem_cons.mpr h)
      rw [List.cons_append, firstLine, if_neg (Ne.symm hb), ih hline, List.cons_append]

/-- Without a line feed the first line is all there is. -/
theorem firstLine_eq_self {line : List UInt8} (h : 10 ∉ line) : firstLine line = line := by
  induction line with
  | nil => rfl
  | cons b line ih =>
      obtain ⟨hb, hline⟩ := not_or.mp (mt List.mem_cons.mpr h)
      rw [firstLine, if_neg (Ne.symm hb), ih hline]

/-- No other character has the byte of a line feed in its code. -/
theorem newline_of_mem_utf8EncodeChar {c : Char} (h : 10 ∈ String.utf8EncodeChar c) : c = '\n' := by
  have hcode : c.val.toNat = 10 := by
    unfold String.utf8EncodeChar at h
    dsimp only at h
    generalize c.val.toNat = v at h
    split_ifs at h <;>
      simp only [List.mem_cons, List.not_mem_nil, or_false, ← UInt8.toNat_inj, UInt8.toNat_ofNat',
        UInt8.reduceToNat] at h <;>
      omega
  exact Char.toNat_inj.mp hcode

/-- A text without line feeds has no byte of a line feed. -/
theorem newline_notMem_bytes {s : String} (h : '\n' ∉ s.toList) : 10 ∉ bytes s := by
  rw [bytes_eq, List.mem_flatMap]
  rintro ⟨c, hc, hmem⟩
  exact h (newline_of_mem_utf8EncodeChar hmem ▸ hc)

/-- The bytes of a text without line feeds are the first line if a line feed follows. -/
theorem firstLine_bytes {s : String} (h : '\n' ∉ s.toList) (rest : List UInt8) :
    firstLine (bytes (s ++ "\n") ++ rest) = bytes (s ++ "\n") := by
  have hnewline : bytes "\n" = [10] := by rw [bytes_eq]; decide
  rw [bytes_append, hnewline, List.append_assoc, List.singleton_append,
    firstLine_append (newline_notMem_bytes h)]

/-- They are also the first line if nothing follows. -/
theorem firstLine_bytes_self {s : String} (h : '\n' ∉ s.toList) :
    firstLine (bytes s) = bytes s :=
  firstLine_eq_self (newline_notMem_bytes h)

/-- The bytes of a text are decoded to the text. -/
theorem fromUTF8?_bytes (s : String) :
    String.fromUTF8? (ByteArray.mk (bytes s).toArray) = some s := by
  rw [bytes, Array.toArray_toList]
  exact dif_pos s.isValidUTF8

/-- Line feeds and carriage returns at the end are left out. -/
theorem trimLineEnd_append {s ending : String} (hs : ∀ c ∈ s.toList, c ≠ '\n' ∧ c ≠ '\r')
    (hending : ∀ c ∈ ending.toList, c = '\n' ∨ c = '\r') : trimLineEnd (s ++ ending) = s := by
  have htext : s.toList.reverse.dropWhile (fun c => c == '\n' || c == '\r') = s.toList.reverse := by
    rw [List.dropWhile_eq_self_iff]
    intro hpos
    obtain ⟨hlf, hcr⟩ := hs _ (List.mem_reverse.mp (List.getElem_mem hpos))
    rw [Bool.not_eq_true, Bool.or_eq_false_iff]
    exact ⟨beq_false_of_ne hlf, beq_false_of_ne hcr⟩
  rw [trimLineEnd, String.toList_append, List.reverse_append, List.dropWhile_append_of_pos, htext,
    List.reverse_reverse, String.ofList_toList]
  intro c hc
  simpa using hending c (List.mem_reverse.mp hc)

/-- The formula argument `-` stands for the first line of the input. -/
theorem yields_formulaText {input : List UInt8} {line : String} (h : firstLine input = bytes line) :
    Yields (formulaText input "-") (trimLineEnd line) "" := by
  rw [formulaText, if_pos rfl, h, fromUTF8?_bytes]
  exact yields_pure _

end Activity

end Propositional

import Propositional.Proofs.Construction.Nodes
import Propositional.Proofs.Text.ByteLexer

/-!
# Names, Operators and Tokens

What the symbols of formulas are is decided in three places: by the test for variable names, which
looks at characters, by the table of the operators, which holds whole texts, and by the lexer, which
looks at bytes and reads as many digits as it can. All three agree. A text is one token exactly if
it is the text of that token (`Lexer.lexesAs_iff`), and then it is a variable or an operator, or a
parenthesis, which is neither.

So a formula can be built from a text as its root exactly if the text is one token that is a
variable or an operator, and there are as many operands as this takes.

## Main definitions

* `Lexer.LexesAs`, `ByteLexer.LexesAs`: a text is one token.

## Main results

* `Lexer.lexesAs_iff`: which texts are one token.
* `symbols_agree`: the three agree, and so do the checked builders.
-/

namespace Propositional

/-! ### Texts that are one token -/

/-- A lexer by characters over the text returns the token and then the end of the text. -/
def Lexer.LexesAs (s : String) (t : Token) : Prop :=
  ((ofString s).scans 2).1.map (Except.map Prod.fst) = [.ok t, .ok .endOfInput]

/-- A lexer by bytes does so, without cutting a character. -/
def ByteLexer.LexesAs (s : String) (t : Token) : Prop :=
  ((ofString s).scans? 2).map (fun calls => calls.1.map (Except.map Prod.fst)) =
    some [.ok t, .ok .endOfInput]

/-- Both lexers agree on the texts that are one token. -/
theorem ByteLexer.lexesAs_iff {s : String} {t : Token} : LexesAs s t ↔ Lexer.LexesAs s t := by
  obtain ⟨b, hscans, -, -⟩ := (at_ofString s).scans?_eq 2
  rw [LexesAs, hscans, Option.map_some, Option.some.injEq, Lexer.LexesAs]

namespace Lexer

/-- The lexer answers with the token that stands there, and with the end where nothing is left. -/
theorem scan_fst_eq_ok_iff {l : Lexer} {t : Token} :
    l.scan.1.map Prod.fst = .ok t ↔ (t = .endOfInput ∧ l.rest = []) ∨ ∃ l', l.Consumes t l' := by
  constructor
  · intro h
    rcases hread : l.read with e | ⟨u, l'⟩
    · rw [scan, hread] at h
      cases h
    · rw [scan, hread] at h
      obtain rfl : u = t := Except.ok.inj h
      rcases read_eq_ok hread with ⟨hend, hrest, -⟩ | hc
      · exact .inl ⟨hend, hrest⟩
      · exact .inr ⟨l', hc⟩
  · rintro (⟨rfl, hrest⟩ | ⟨l', hc⟩)
    · rw [scan_of_rest_eq_nil hrest]
      rfl
    · rw [hc.scan_eq]
      rfl

/-- **A text is one token iff it is the text of the token**, and the token can stand in a text. -/
theorem lexesAs_iff {s : String} {t : Token} (ht : t ≠ .endOfInput) :
    LexesAs s t ↔ t.WellFormed ∧ t.text = s := by
  have hcalls : LexesAs s t ↔ (ofString s).scan.1.map Prod.fst = .ok t ∧
      (ofString s).scan.2.scan.1.map Prod.fst = .ok .endOfInput := by
    simp only [LexesAs, scans, List.map_cons, List.map_nil, List.cons.injEq, and_true]
  rw [hcalls, scan_fst_eq_ok_iff, scan_fst_eq_ok_iff]
  constructor
  · rintro ⟨⟨hend, -⟩ | ⟨l', hc⟩, hend⟩
    · exact absurd hend ht
    · rw [hc.scan_eq] at hend
      have hrest : l'.rest = [] := by
        rcases hend with ⟨-, hrest⟩ | ⟨l'', hc'⟩
        · exact hrest
        · exact absurd rfl hc'.ne_endOfInput
      refine ⟨hc.wellFormed, ?_⟩
      rw [← String.toList_inj, ← List.append_nil t.text.toList, ← hrest]
      exact hc.rest_eq.symm
  · rintro ⟨hwf, rfl⟩
    have hc := Consumes.of_text hwf t.endsBefore_nil 1
    rw [List.append_nil] at hc
    have hscan : (ofString t.text).scan = (.ok (t, 1), ⟨1 + t.text.length, []⟩) := hc.scan_eq
    rw [hscan]
    exact ⟨.inr ⟨_, hc⟩, .inl ⟨rfl, rfl⟩⟩

/-- A text is one variable iff it is a variable name. -/
theorem lexesAs_var_iff {s : String} : LexesAs s (.var s) ↔ isVariable s = true := by
  rw [lexesAs_iff (by simp)]
  exact and_iff_left rfl

/-- It is one operator iff it is the symbol of the operator. -/
theorem lexesAs_operator_iff {s : String} {op : Operator} :
    LexesAs s (.operator op) ↔ op.symbol = s := by
  rw [lexesAs_iff (by simp)]
  exact and_iff_right trivial

end Lexer

/-- **Names, operators and tokens are the same symbols.** Let a text be given, of any characters.
It is a variable name exactly if a lexer over it returns the variable of that name and then the end,
and it is the symbol of an operator exactly if the lexer returns the operator and then the end,
whether the lexer looks at characters or at bytes. A formula with the text as its root and the given
operands is built exactly if the one or the other holds and there are as many operands as the symbol
takes, and it has this root and these operands. The symbol is refused as unknown exactly if neither
holds, and any other number of operands is refused as such. -/
theorem symbols_agree (s : String) (operands : List Formula) :
    (∀ t, ByteLexer.LexesAs s t ↔ Lexer.LexesAs s t) ∧
    (isVariable s = true ↔ Lexer.LexesAs s (.var s)) ∧
    (∀ op, Operator.ofSymbol? s = some op ↔ Lexer.LexesAs s (.operator op)) ∧
    ((∃ f, Formula.ofRoot? s operands = .ok f) ↔
      Lexer.LexesAs s (.var s) ∧ operands.length = 0 ∨
        ∃ op, Lexer.LexesAs s (.operator op) ∧ operands.length = op.arity) ∧
    (∀ f, Formula.ofRoot? s operands = .ok f → f.root = s ∧ f.operands = operands) ∧
    (Formula.ofRoot? s operands = .error (.unknownSymbol s) ↔
      ¬ Lexer.LexesAs s (.var s) ∧ ∀ op, ¬ Lexer.LexesAs s (.operator op)) ∧
    (Lexer.LexesAs s (.var s) → operands.length ≠ 0 →
      Formula.ofRoot? s operands = .error (.invalidArity s 0 operands.length)) ∧
    ∀ op, Lexer.LexesAs s (.operator op) → operands.length ≠ op.arity →
      Formula.ofRoot? s operands = .error (.invalidArity s op.arity operands.length) := by
  refine ⟨fun t => ByteLexer.lexesAs_iff, Lexer.lexesAs_var_iff.symm, ?_⟩
  simp only [Lexer.lexesAs_var_iff, Lexer.lexesAs_operator_iff]
  refine ⟨fun op => Operator.ofSymbol?_eq_some_iff, Formula.exists_ofRoot?_iff,
    fun f => Formula.of_ofRoot?, Formula.ofRoot?_eq_unknown_iff, ?_, ?_⟩
  · intro hname hlength
    rw [Formula.ofRoot?_of_isVariable hname, if_neg hlength]
  · rintro op rfl hlength
    rw [Formula.ofRoot?_symbol, Formula.ofOperator?_of_length_ne hlength]

/-- A digit that is not an ASCII digit is no part of a variable name, for neither of the three. -/
example : isVariable "p٣" = false ∧ Formula.ofRoot? "p٣" [] = .error (.unknownSymbol "p٣") ∧
    ((Lexer.ofString "p٣").scans 2).1 = [.ok (.var "p", 1), .error ⟨.unexpectedChar '٣', 2⟩] := by
  cbv

end Propositional

import Propositional.Text.Reader
import Propositional.Weight

/-!
# The Standard Notation

In standard notation an atom is written as its symbol, a negation as `~` before its operand, and
a binary formula as its connective between its operands, in parentheses. There are no precedences
and no blanks, so a formula has exactly one text.

Both directions keep what is unfinished on a stack of their own. The printer holds the pieces
still to be written, the reader the operations that are open, innermost first. The reader has its
result as soon as a formula is complete and no operation is open, so it reads the shortest text that
is a whole formula, up to the digits of a last variable name, which are read greedily.

## Main definitions

* `Formula.text`: the text of a formula; `Formula.standardForm` is the same by recursion.
* `Standard.State`, `Standard.feed`, `Standard.reader`: the automaton that reads the notation.

## Main results

* `Formula.text_eq`: the printer writes the text that the recursion defines.
-/

namespace Propositional

namespace Formula

/-- The text of a formula in standard notation, by recursion. -/
def standardForm : Formula → String
  | var name => name
  | const value => (Operator.constant value).symbol
  | not f => "~" ++ f.standardForm
  | binary c f g => "(" ++ f.standardForm ++ c.symbol ++ g.standardForm ++ ")"

end Formula

namespace Standard

/-- A piece of text still to be written. -/
inductive Piece
  | formula (f : Formula)
  | symbol (s : String)

/-- The work that writing a piece takes. -/
def Piece.weight : Piece → Nat
  | formula f => 3 * f.nodeCount
  | symbol _ => 1

/-- Writes the pieces after what has been written, from the first to the last. -/
def write (written : String) (pieces : List Piece) : String :=
  match pieces with
  | [] => written
  | .symbol s :: rest => write (written ++ s) rest
  | .formula f :: rest =>
    match f with
    | .var name => write (written ++ name) rest
    | .const value => write (written ++ (Operator.constant value).symbol) rest
    | .not a => write (written ++ Operator.negation.symbol) (.formula a :: rest)
    | .binary c a b =>
      write (written ++ "(")
        (.formula a :: .symbol c.symbol :: .formula b :: .symbol ")" :: rest)
termination_by totalWeight Piece.weight pieces
decreasing_by
  all_goals simp [Piece.weight, Formula.nodeCount]; try omega

/-- The text that a piece stands for. -/
def Piece.text : Piece → String
  | formula f => f.standardForm
  | symbol s => s

/-- The printer appends the texts of the pieces, one after the other. -/
theorem write_eq (written : String) (pieces : List Piece) :
    write written pieces = pieces.foldl (fun written piece => written ++ piece.text) written := by
  fun_induction write written pieces with
  | case1 => rfl
  | case2 written s rest ih => simpa only [List.foldl_cons, Piece.text] using ih
  | case3 written rest name ih =>
    simpa only [List.foldl_cons, Piece.text, Formula.standardForm] using ih
  | case4 written rest value ih =>
    simpa only [List.foldl_cons, Piece.text, Formula.standardForm] using ih
  | case5 written rest a ih =>
    rw [ih]
    simp [Piece.text, Formula.standardForm, Operator.symbol, String.append_assoc]
  | case6 written rest c a b ih =>
    rw [ih]
    simp [Piece.text, Formula.standardForm, String.append_assoc]

/-- An operation that was opened and is not finished. -/
inductive Frame
  /-- A negation that waits for its operand. -/
  | negation
  /-- A parenthesis that waits for the first operand. -/
  | opened
  /-- A parenthesis with a first operand and a connective, that waits for the second operand. -/
  | joined (first : Formula) (connective : Connective)

/-- The states of the reader. The operations that are open stand in `pending`, innermost first. -/
inductive State
  /-- An operand is to be read. -/
  | operand (pending : List Frame)
  /-- The first operand of a parenthesis has been read. -/
  | connective (first : Formula) (pending : List Frame)
  /-- Both operands of a parenthesis have been read. -/
  | closing (connective : Connective) (first second : Formula) (pending : List Frame)
  /-- A formula has been read and no operation is open. -/
  | done (f : Formula)

/-- The state after a formula has been read as the operand of the innermost open operation. It ends
every negation that waits for it. -/
def finish (f : Formula) : List Frame → State
  | [] => .done f
  | .negation :: pending => finish (.not f) pending
  | .opened :: pending => .connective f pending
  | .joined first c :: pending => .closing c first f pending

/-- The state after a token, unless the token is refused. -/
def feed : State → Token → Option State
  | .operand pending, .var name => some (finish (.var name) pending)
  | .operand pending, .operator (.constant value) => some (finish (.const value) pending)
  | .operand pending, .operator .negation => some (.operand (.negation :: pending))
  | .operand pending, .openParen => some (.operand (.opened :: pending))
  | .connective f pending, .operator (.binary c) => some (.operand (.joined f c :: pending))
  | .closing c f g pending, .closeParen => some (finish (.binary c f g) pending)
  | _, _ => none

/-- The formula that has been read, once no operation is open. -/
def result? : State → Option Formula
  | .done f => some f
  | _ => none

/-- The number of open operations where an operand is to be read. -/
def enclosing? : State → Option Nat
  | .operand pending => some pending.length
  | _ => none

/-- The reader of the standard notation. -/
def reader : Reader State where
  start := .operand []
  feed := feed
  result? := result?
  enclosing? := enclosing?

end Standard

namespace Formula

/-- The text of a formula in standard notation. -/
def text (f : Formula) : String :=
  Standard.write "" [.formula f]

instance : ToString Formula := ⟨text⟩

/-- The printer writes the text that the recursion defines. -/
theorem text_eq (f : Formula) : f.text = f.standardForm := by
  simp [text, Standard.write_eq, Standard.Piece.text]

end Formula

end Propositional

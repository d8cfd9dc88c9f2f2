import Mathlib.Data.List.Find
import Mathlib.Data.String.Basic
import Propositional.Proofs.Text.Scanning

/-!
# The Lexer by Bytes

A text is read in place: the lexer has the whole text and an offset into it, which counts bytes. It
looks at one byte at a time, moves on by one byte or by two, or by all the digits of a name, and
cuts names and remaining texts out of the text at the offsets. To cut a text inside of a character
is an error, from which there is no return.

No such error occurs. The code of a character of one byte is the character, and the first byte of
every other code is greater than all of these (`leadByte_cases`). So to look at the byte at the
beginning of a character is to look at the character, for all characters with which a token can
begin, and the offset only ever moves over characters of one byte. From the beginning of any
character on, the lexer by bytes and the lexer by characters answer alike
(`ByteLexer.At.scan_eq`).

## Main definitions

* `slice?`: the part of a text between two offsets.
* `ByteLexer`, `ByteLexer.scan?`: the lexer by bytes.
* `ByteLexer.At`: the lexer by bytes stands where a lexer by characters does.

## Main results

* `slice?_eq_some_iff`: what is cut out of a text.
* `ByteLexer.At.agrees`, `ByteLexer.At.scans?_eq`: both lexers answer alike.
-/

namespace Propositional

/-! ### Parts of a text -/

/-- The part of the text between two offsets, which are counted in bytes; `none` if one of them is
inside of a character or after the end. -/
def slice? (s : String) (start stop : Nat) : Option String :=
  if String.Pos.Raw.isValid s ⟨start⟩ && String.Pos.Raw.isValid s ⟨stop⟩ && start ≤ stop then
    some (String.Pos.Raw.extract s ⟨start⟩ ⟨stop⟩)
  else none

theorem length_bytes (s : String) : (bytes s).length = s.utf8ByteSize := by
  rw [bytes, Array.length_toList, ← String.size_toByteArray]
  rfl

/-- The offsets that are not inside of a character are those after the first characters. -/
theorem isValid_iff_exists_append {s : String} {offset : Nat} :
    String.Pos.Raw.isValid s ⟨offset⟩ = true ↔
      ∃ before after, s = before ++ after ∧ offset = (bytes before).length := by
  rw [String.Pos.Raw.isValid_eq_true_iff, String.Pos.Raw.isValid_iff_exists_append]
  simp only [length_bytes, String.rawEndPos, String.Pos.Raw.mk.injEq]

/-- The middle of a text is cut out at its two ends. -/
theorem slice?_append (before t after : String) :
    slice? (before ++ t ++ after) (bytes before).length
      ((bytes before).length + (bytes t).length) = some t := by
  have hstart : String.Pos.Raw.isValid (before ++ t ++ after) ⟨(bytes before).length⟩ = true :=
    isValid_iff_exists_append.mpr ⟨before, t ++ after, String.append_assoc .., rfl⟩
  have hstop : String.Pos.Raw.isValid (before ++ t ++ after)
      ⟨(bytes before).length + (bytes t).length⟩ = true :=
    isValid_iff_exists_append.mpr ⟨before ++ t, after, rfl, by
      rw [bytes_append, List.length_append]⟩
  have hextract := String.extract_of_valid before.toList t.toList after.toList
  simp only [String.ofList_append, String.ofList_toList, ← String.utf8ByteSize_ofList,
    ← length_bytes] at hextract
  rw [slice?, hstart, hstop, hextract, if_pos (by simp)]

/-- **What is cut out of a text** stands in it, after what is before the one offset and before what
is after the other. -/
theorem slice?_eq_some_iff {s t : String} {start stop : Nat} :
    slice? s start stop = some t ↔
      ∃ before after, s = before ++ t ++ after ∧ start = (bytes before).length ∧
        stop = start + (bytes t).length := by
  constructor
  · intro h
    have hvalid : (String.Pos.Raw.isValid s ⟨start⟩ = true ∧
        String.Pos.Raw.isValid s ⟨stop⟩ = true) ∧ start ≤ stop := by
      by_contra hnot
      rw [slice?, if_neg (by simpa using hnot)] at h
      exact absurd h (by simp)
    obtain ⟨⟨hstart, hstop⟩, hle⟩ := hvalid
    obtain ⟨before, rest, hs, rfl⟩ := isValid_iff_exists_append.mp hstart
    obtain ⟨front, after, rfl, rfl⟩ := isValid_iff_exists_append.mp hstop
    have hprefix : bytes before <+: bytes front := by
      refine List.prefix_of_prefix_length_le ?_ (List.prefix_append _ (bytes after)) hle
      rw [← bytes_append, hs, bytes_append]
      exact List.prefix_append _ _
    obtain ⟨middle, hmiddle⟩ := bytes_prefix_iff.mp hprefix
    obtain rfl : before ++ String.ofList middle = front := by
      rw [← String.toList_inj, String.toList_append, String.toList_ofList, hmiddle]
    rw [bytes_append, List.length_append, slice?_append] at h
    obtain rfl := Option.some.inj h
    exact ⟨before, after, rfl, rfl, by rw [bytes_append, List.length_append]⟩
  · rintro ⟨before, after, rfl, rfl, rfl⟩
    exact slice?_append before t after

/-! ### The first byte of a character -/

/-- The first byte of the code of the character. -/
def leadByte (c : Char) : UInt8 :=
  (String.utf8EncodeChar c).headD 0

theorem head?_utf8EncodeChar (c : Char) :
    (String.utf8EncodeChar c).head? = some (leadByte c) := by
  obtain ⟨b, code, hcode⟩ := List.exists_cons_of_ne_nil (String.utf8EncodeChar_ne_nil (c := c))
  rw [leadByte, hcode]
  rfl

/-- A character of one byte is its own code; all others begin with greater bytes. -/
theorem leadByte_cases (c : Char) :
    (c.val ≤ 127 ∧ (leadByte c).toNat = c.val.toNat) ∨
      (127 < c.val ∧ 127 < (leadByte c).toNat) := by
  have hbound : c.val.toNat < 1114112 := by
    rcases c.valid with h | h
    · exact Nat.lt_trans h (by decide)
    · exact h.2
  simp only [UInt32.le_iff_toNat_le, UInt32.lt_iff_toNat_lt, leadByte, String.utf8EncodeChar]
  have h127 : (127 : UInt32).toNat = 127 := rfl
  rw [h127]
  generalize c.val.toNat = n at hbound
  split_ifs <;> simp only [List.headD_cons, UInt8.toNat_ofNat'] <;> omega

/-- Whether a character lies between two characters of one byte is seen by its first byte. -/
theorem leadByte_between_iff {low high c : Char} (hlow : low.val ≤ 127) (hhigh : high.val ≤ 127) :
    low.toUInt8 ≤ leadByte c ∧ leadByte c ≤ high.toUInt8 ↔ low ≤ c ∧ c ≤ high := by
  have hbyte : ∀ d : Char, d.val ≤ 127 → d.toUInt8.toNat = d.val.toNat := by
    intro d hd
    have hd : d.val.toNat ≤ 127 := hd
    rw [Char.toUInt8, UInt32.toNat_toUInt8, Nat.mod_eq_of_lt (by omega)]
  simp only [UInt8.le_iff_toNat_le, Char.le_def, UInt32.le_iff_toNat_le, hbyte low hlow,
    hbyte high hhigh]
  have hlow : low.val.toNat ≤ 127 := hlow
  have hhigh : high.val.toNat ≤ 127 := hhigh
  rcases leadByte_cases c with ⟨-, heq⟩ | ⟨hc, hgt⟩
  · rw [heq]
  · have hc : 127 < c.val.toNat := hc
    omega

/-- So is whether it is a given one of them. -/
theorem leadByte_eq_iff {c d : Char} (hd : d.val ≤ 127) : leadByte c = d.toUInt8 ↔ c = d := by
  have hbetween := leadByte_between_iff (c := c) hd hd
  constructor
  · intro h
    obtain ⟨hle, hge⟩ := hbetween.mp ⟨UInt8.le_of_eq h.symm, UInt8.le_of_eq h⟩
    exact Char.le_antisymm hge hle
  · rintro rfl
    obtain ⟨hle, hge⟩ := hbetween.mpr ⟨Char.le_refl c, Char.le_refl c⟩
    exact UInt8.le_antisymm hge hle

/-! ### Tokens by their first byte -/

namespace Token

/-- The tokens that are one character other than a letter of a variable name. -/
def singles : List (Char × Token) :=
  [('(', .openParen), (')', .closeParen), ('T', .operator (.constant true)),
    ('F', .operator (.constant false)), ('~', .operator .negation), ('&', .operator (.binary .and)),
    ('|', .operator (.binary .or))]

/-- The token that is this byte, if there is one. -/
def ofByte? (b : UInt8) : Option Token :=
  (singles.find? fun entry => entry.1.toUInt8 == b).map Prod.snd

theorem ofChar?_eq (c : Char) :
    ofChar? c = (singles.find? fun entry => entry.1 == c).map Prod.snd := by
  unfold ofChar?
  split
  case h_8 =>
    refine (Option.map_eq_none_iff.mpr (List.find?_eq_none.mpr fun entry hentry heq => ?_)).symm
    obtain rfl := beq_iff_eq.mp heq
    simp only [singles, List.mem_cons, List.not_mem_nil, or_false] at hentry
    rcases hentry with rfl | rfl | rfl | rfl | rfl | rfl | rfl <;> contradiction
  all_goals rfl

/-- The token that is a character is found by the first byte of the character. -/
theorem ofByte?_leadByte (c : Char) : ofByte? (leadByte c) = ofChar? c := by
  have hascii : ∀ entry ∈ singles, entry.1.val ≤ 127 := by decide
  rw [ofByte?, ofChar?_eq]
  congr 1
  refine List.find?_congr fun entry hentry => ?_
  rw [Bool.eq_iff_iff, beq_iff_eq, beq_iff_eq, eq_comm, leadByte_eq_iff (hascii entry hentry),
    eq_comm]

/-- No token that is a character is a letter of a variable name. -/
theorem ofChar?_of_isVariableLetter {c : Char} (hc : isVariableLetter c = true) :
    ofChar? c = none := by
  have hnone : ∀ entry ∈ singles, isVariableLetter entry.1 = false := by decide
  rw [ofChar?_eq, Option.map_eq_none_iff, List.find?_eq_none]
  intro entry hentry heq
  rw [← beq_iff_eq.mp heq, hnone entry hentry] at hc
  exact absurd hc (by simp)

end Token

/-- The bytes that are letters of variable names. -/
def isLetterByte (b : UInt8) : Bool :=
  'p'.toUInt8 ≤ b && b ≤ 'z'.toUInt8

/-- The bytes that are digits. -/
def isDigitByte (b : UInt8) : Bool :=
  '0'.toUInt8 ≤ b && b ≤ '9'.toUInt8

/-- The letters of variable names are told by their first byte. -/
theorem isLetterByte_leadByte (c : Char) : isLetterByte (leadByte c) = isVariableLetter c := by
  rw [Bool.eq_iff_iff, isLetterByte, isVariableLetter, Bool.and_eq_true, Bool.and_eq_true,
    decide_eq_true_eq, decide_eq_true_eq, decide_eq_true_eq, decide_eq_true_eq]
  exact leadByte_between_iff (by decide) (by decide)

/-- So are the digits. -/
theorem isDigitByte_leadByte (c : Char) : isDigitByte (leadByte c) = c.isDigit := by
  rw [Bool.eq_iff_iff, isDigitByte, isDigit_iff, Bool.and_eq_true, decide_eq_true_eq,
    decide_eq_true_eq]
  exact leadByte_between_iff (by decide) (by decide)

/-! ### The lexer by bytes -/

/-- A text and how many of its bytes have been read. -/
structure ByteLexer where
  input : String
  offset : Nat

namespace ByteLexer

/-- The state before the first byte. -/
def ofString (s : String) : ByteLexer := ⟨s, 0⟩

/-- The column of the next byte. -/
def column (b : ByteLexer) : Nat := b.offset + 1

/-- The state after so many more bytes. -/
def advance (b : ByteLexer) (count : Nat) : ByteLexer := ⟨b.input, b.offset + count⟩

/-- The next byte, if there is one. -/
def byte? (b : ByteLexer) : Option UInt8 := (bytes b.input)[b.offset]?

/-- What has not been read. -/
def remaining? (b : ByteLexer) : Option String :=
  slice? b.input b.offset (bytes b.input).length

theorem advance_advance (b : ByteLexer) (m n : Nat) :
    (b.advance m).advance n = b.advance (m + n) := by
  rw [advance, advance, advance, Nat.add_assoc]

theorem lt_of_any_byte? {b : ByteLexer} {p : UInt8 → Bool} (h : b.byte?.any p = true) :
    b.offset < (bytes b.input).length := by
  obtain ⟨next, hnext, -⟩ := (Option.any_eq_true _ _).mp h
  exact (List.getElem?_eq_some_iff.mp hnext).1

/-- The state after all the digits that come next. -/
def skipDigits (b : ByteLexer) : ByteLexer :=
  if _digit : b.byte?.any isDigitByte = true then skipDigits (b.advance 1) else b
termination_by (bytes b.input).length - b.offset
decreasing_by
  have := lt_of_any_byte? _digit
  simp only [advance]
  omega

/-- Reads a variable name: one byte, and then all the digits. -/
def readName? (b : ByteLexer) : Option (String × ByteLexer) :=
  let after := (b.advance 1).skipDigits
  (slice? b.input b.offset after.offset).map fun name => (name, after)

/-- A call of the lexer, and the lexer after it; `none` if the text was cut inside of a
character. -/
def scan? (b : ByteLexer) : Option (Lexer.Answer × ByteLexer) :=
  match b.byte? with
  | none => some (.ok (.endOfInput, b.column), b)
  | some next =>
    match Token.ofByte? next with
    | some t => some (.ok (t, b.column), b.advance 1)
    | none =>
      if next = '-'.toUInt8 then
        if (b.advance 1).byte? = some '>'.toUInt8 then
          some (.ok (.operator (.binary .implies), b.column), b.advance 2)
        else some (.error ⟨.incompleteArrow, b.column⟩, b)
      else if isLetterByte next then
        b.readName?.map fun name => (.ok (.var name.1, b.column), name.2)
      else
        b.remaining?.map fun rest =>
          (.error ⟨.unexpectedChar (rest.toList.headD (Char.ofNat 0)), b.column⟩, b)

/-- Calls of the lexer, whether or not those before have failed; `none` if the text was ever cut
inside of a character. -/
def scans? : Nat → ByteLexer → Option (List Lexer.Answer × ByteLexer)
  | 0, b => some ([], b)
  | n + 1, b => do
    let (answer, b) ← b.scan?
    let (answers, b) ← scans? n b
    return (answer :: answers, b)

/-! ### At the beginning of a character -/

/-- The lexer by bytes stands where the lexer by characters does. -/
def At (b : ByteLexer) (l : Lexer) : Prop :=
  ∃ before : String, b.input = before ++ l.remaining ∧ b.offset = (bytes before).length ∧
    l.column = b.column

variable {b : ByteLexer} {l : Lexer} {column : Nat} {c : Char} {cs rest : List Char}

theorem at_ofString (s : String) : (ofString s).At (.ofString s) :=
  ⟨"", by rw [Lexer.remaining, Lexer.ofString, String.ofList_toList, String.empty_append]; rfl,
    rfl, rfl⟩

theorem At.column_eq (h : b.At l) : b.column = l.column := by
  obtain ⟨-, -, -, hcolumn⟩ := h
  exact hcolumn.symm

/-- The next byte is the first one of the next character. -/
theorem At.byte?_eq (h : b.At l) : b.byte? = l.rest.head?.map leadByte := by
  obtain ⟨before, hinput, hoffset, -⟩ := h
  rw [byte?, hinput, hoffset, bytes_append, List.getElem?_append_right (Nat.le_refl _),
    Nat.sub_self, ← List.head?_eq_getElem?, bytes_eq, Lexer.remaining, String.toList_ofList]
  cases l.rest with
  | nil => rfl
  | cons c cs =>
      rw [List.flatMap_cons, List.head?_append, head?_utf8EncodeChar]
      rfl

/-- Over characters of one byte the lexer comes to the beginning of a character. -/
theorem At.advance (h : b.At ⟨column, cs ++ rest⟩) (hcs : ∀ c ∈ cs, c.val ≤ 127) :
    (b.advance cs.length).At ⟨column + cs.length, rest⟩ := by
  obtain ⟨before, hinput, hoffset, hcolumn⟩ := h
  refine ⟨before ++ String.ofList cs, ?_, ?_, ?_⟩
  · rw [String.append_assoc, Lexer.remaining, ← String.ofList_append]
    exact hinput
  · rw [bytes_append, List.length_append, length_bytes_ofList hcs, ← hoffset]
    rfl
  · change column = b.offset + 1 at hcolumn
    change column + cs.length = b.offset + cs.length + 1
    omega

/-- So it does over one of them. -/
theorem At.advance_one (h : b.At ⟨column, c :: cs⟩) (hc : c.val ≤ 127) :
    (b.advance 1).At ⟨column + 1, cs⟩ := by
  have h : b.At ⟨column, [c] ++ cs⟩ := h
  exact h.advance (List.forall_mem_singleton.mpr hc)

/-- What characters of one byte say is cut out between the two places. -/
theorem At.slice?_eq (h : b.At ⟨column, cs ++ rest⟩) (hcs : ∀ c ∈ cs, c.val ≤ 127) :
    slice? b.input b.offset (b.advance cs.length).offset = some (String.ofList cs) := by
  obtain ⟨before, hinput, hoffset, -⟩ := h
  refine slice?_eq_some_iff.mpr ⟨before, String.ofList rest, ?_, hoffset, ?_⟩
  · rw [hinput, Lexer.remaining, String.ofList_append, String.append_assoc]
  · rw [length_bytes_ofList hcs]
    rfl

/-- What has not been read is what remains for the lexer by characters. -/
theorem At.remaining?_eq (h : b.At l) : b.remaining? = some l.remaining := by
  obtain ⟨before, hinput, hoffset, -⟩ := h
  refine slice?_eq_some_iff.mpr ⟨before, "", ?_, hoffset, ?_⟩
  · rw [hinput, String.append_empty]
  · rw [hoffset, hinput, bytes_append, List.length_append]

/-- Whether a digit comes next is seen by the next byte. -/
theorem At.any_isDigitByte (h : b.At l) :
    b.byte?.any isDigitByte = l.rest.head?.any Char.isDigit := by
  rw [h.byte?_eq, Option.any_map]
  simp only [isDigitByte_leadByte]

/-- Where digits come next, they are all passed, and nothing else is. -/
theorem At.skipDigits_eq {digits : List Char} (h : b.At ⟨column, digits ++ rest⟩)
    (hdigits : ∀ d ∈ digits, d.isDigit = true) (hrest : NoDigitAhead rest) :
    b.skipDigits = b.advance digits.length := by
  induction digits generalizing b column with
  | nil =>
      have hstop : ¬ b.byte?.any isDigitByte = true := by
        rw [h.any_isDigitByte, Option.any_eq_true]
        rintro ⟨c, hc, hdigit⟩
        exact absurd hdigit (by rw [hrest c hc]; simp)
      rw [skipDigits, dif_neg hstop]
      rfl
  | cons d digits ih =>
      obtain ⟨hd, hdigits⟩ := List.forall_mem_cons.mp hdigits
      have hgo : b.byte?.any isDigitByte = true := by
        rw [h.any_isDigitByte]
        exact hd
      have hnext : (b.advance 1).At ⟨column + 1, digits ++ rest⟩ :=
        h.advance_one (UInt32.le_trans (isDigit_iff.mp hd).2 (by decide))
      rw [skipDigits, dif_pos hgo, ih hnext hdigits, advance_advance, List.length_cons,
        Nat.add_comm]

/-- A letter of a variable name and the digits after it are read as the name. -/
theorem At.readName?_eq (h : b.At ⟨column, c :: cs⟩) (hc : isVariableLetter c = true) :
    ∃ b', b.readName? = some (String.ofList (c :: cs.takeWhile Char.isDigit), b') ∧
      b'.input = b.input ∧
      b'.At ⟨column + 1 + (cs.takeWhile Char.isDigit).length, cs.dropWhile Char.isDigit⟩ := by
  have hdigits : ∀ d ∈ cs.takeWhile Char.isDigit, d.isDigit = true :=
    List.all_eq_true.mp List.all_takeWhile
  have hname : ∀ d ∈ c :: cs.takeWhile Char.isDigit, d.val ≤ 127 := by
    have hwf : Token.WellFormed (.var (String.ofList (c :: cs.takeWhile Char.isDigit))) :=
      isVariable_iff.mpr ⟨c, _, rfl, hc, hdigits⟩
    intro d hd
    refine (hwf.printable d ?_).2
    rwa [Token.text, String.toList_ofList]
  have hletter := h.advance_one (hname c List.mem_cons_self)
  rw [← List.takeWhile_append_dropWhile (p := Char.isDigit) (l := cs)] at h hletter
  have h : b.At ⟨column, (c :: cs.takeWhile Char.isDigit) ++ cs.dropWhile Char.isDigit⟩ := h
  have hskip := hletter.skipDigits_eq hdigits (noDigitAhead_dropWhile cs)
  have hslice := h.slice?_eq hname
  rw [advance_advance] at hskip
  rw [List.length_cons, Nat.add_comm] at hslice
  refine ⟨b.advance (1 + (cs.takeWhile Char.isDigit).length), ?_, rfl, ?_⟩
  · rw [readName?, hskip, hslice]
    rfl
  · rw [← advance_advance]
    exact hletter.advance fun d hd => hname d (List.mem_cons_of_mem c hd)

/-! ### The next call -/

/-- The next call is answered alike by both lexers, and leaves them at the same place. -/
def Agrees (b : ByteLexer) (l : Lexer) : Prop :=
  ∃ b', b.scan? = some (l.scan.1, b') ∧ b'.input = b.input ∧ b'.At l.scan.2

/-- They agree at the end, -/
theorem At.agrees_of_nil (h : b.At ⟨column, []⟩) : b.Agrees ⟨column, []⟩ := by
  have hbyte : b.byte? = none := h.byte?_eq
  refine ⟨b, ?_, rfl, h⟩
  rw [scan?, hbyte, h.column_eq]
  rfl

/-- at a letter of a variable name, -/
theorem At.agrees_of_letter (h : b.At ⟨column, c :: cs⟩) (hc : isVariableLetter c = true) :
    b.Agrees ⟨column, c :: cs⟩ := by
  have hbyte : b.byte? = some (leadByte c) := h.byte?_eq
  have hdash : leadByte c ≠ '-'.toUInt8 := by
    rw [Ne, leadByte_eq_iff (by decide)]
    rintro rfl
    exact absurd hc (by decide)
  obtain ⟨b', hname, hinput, hat⟩ := h.readName?_eq hc
  rw [Agrees, Lexer.scan, Lexer.read_letter column cs hc, scan?, hbyte, h.column_eq]
  simp only [Token.ofByte?_leadByte, Token.ofChar?_of_isVariableLetter hc, hdash,
    isLetterByte_leadByte, hc, hname, if_false, if_true, Option.map_some]
  exact ⟨b', rfl, hinput, hat⟩

/-- at a `-`, which may be an arrow or not, -/
theorem At.agrees_of_dash (h : b.At ⟨column, '-' :: cs⟩) : b.Agrees ⟨column, '-' :: cs⟩ := by
  have hbyte : b.byte? = some '-'.toUInt8 := h.byte?_eq
  have hnone : Token.ofByte? '-'.toUInt8 = none := by decide
  have hnext : (b.advance 1).At ⟨column + 1, cs⟩ := h.advance_one (by decide)
  have harrow : (b.advance 1).byte? = some '>'.toUInt8 ↔ cs.head? = some '>' := by
    rw [hnext.byte?_eq]
    simp only [Option.map_eq_some_iff, leadByte_eq_iff (d := '>') (by decide), exists_eq_right]
  rw [Agrees, scan?, hbyte, h.column_eq]
  simp only [hnone, harrow, if_true]
  by_cases hhead : cs.head? = some '>'
  · obtain ⟨after, rfl⟩ := List.head?_eq_some_iff.mp hhead
    have hconsumes : Lexer.Consumes ⟨column, '-' :: '>' :: after⟩ (.operator (.binary .implies))
        ⟨column + 2, after⟩ := ⟨trivial, trivial, rfl, rfl⟩
    rw [hconsumes.scan_eq, if_pos hhead]
    exact ⟨b.advance 2, rfl, rfl, hnext.advance_one (by decide)⟩
  · have hfails : Lexer.next ⟨column, '-' :: cs⟩ = .error ⟨.incompleteArrow, column⟩ :=
      Lexer.next_eq_error_iff.mpr (.inr (.inl ⟨cs, rfl, hhead, rfl⟩))
    rw [Lexer.scan_of_next_eq_error hfails (List.cons_ne_nil '-' cs), if_neg hhead]
    exact ⟨b, rfl, rfl, h⟩

/-- at a character that is a token, -/
theorem At.agrees_of_single (h : b.At ⟨column, c :: cs⟩) {t : Token}
    (ht : Token.ofChar? c = some t) : b.Agrees ⟨column, c :: cs⟩ := by
  have hbyte : b.byte? = some (leadByte c) := h.byte?_eq
  obtain ⟨hwf, htext, hends⟩ := Token.of_ofChar? ht
  have hconsumes : Lexer.Consumes ⟨column, c :: cs⟩ t ⟨column + 1, cs⟩ :=
    ⟨hwf, hends cs, by rw [htext]; rfl, by rw [← String.length_toList, htext]; rfl⟩
  have hascii : c.val ≤ 127 := by
    refine (hwf.printable c ?_).2
    rw [htext]
    exact List.mem_singleton_self c
  rw [Agrees, hconsumes.scan_eq, scan?, hbyte, h.column_eq]
  simp only [Token.ofByte?_leadByte, ht]
  exact ⟨b.advance 1, rfl, rfl, h.advance_one hascii⟩

/-- and at any other character, of however many bytes. -/
theorem At.agrees_of_not_beginsToken (h : b.At ⟨column, c :: cs⟩) (hc : ¬ Lexer.BeginsToken c) :
    b.Agrees ⟨column, c :: cs⟩ := by
  have hbyte : b.byte? = some (leadByte c) := h.byte?_eq
  have hnext : Lexer.next ⟨column, c :: cs⟩ = .error ⟨.unexpectedChar c, column⟩ :=
    Lexer.next_eq_error_iff.mpr (.inr (.inr ⟨c, cs, rfl, hc, rfl⟩))
  simp only [Lexer.BeginsToken, not_or, Option.not_isSome_iff_eq_none] at hc
  obtain ⟨hdash, hletter, hsingle⟩ := hc
  have hdash : leadByte c ≠ '-'.toUInt8 := mt (leadByte_eq_iff (by decide)).mp hdash
  rw [Agrees, Lexer.scan_of_next_eq_error hnext (List.cons_ne_nil c cs), scan?, hbyte, h.column_eq]
  simp only [Token.ofByte?_leadByte, hsingle, hdash, isLetterByte_leadByte, hletter,
    h.remaining?_eq, if_false, Option.map_some]
  refine ⟨b, ?_, rfl, h⟩
  rw [Lexer.remaining, String.toList_ofList]
  rfl

/-- **At the beginning of a character both lexers answer alike**, and they stand at the same place
after it. -/
theorem At.agrees (h : b.At l) : b.Agrees l := by
  obtain ⟨column, rest⟩ := l
  rcases rest with - | ⟨c, cs⟩
  · exact h.agrees_of_nil
  · by_cases hc : Lexer.BeginsToken c
    · rcases hc with rfl | hletter | hsingle
      · exact h.agrees_of_dash
      · exact h.agrees_of_letter hletter
      · obtain ⟨t, ht⟩ := Option.isSome_iff_exists.mp hsingle
        exact h.agrees_of_single ht
    · exact h.agrees_of_not_beginsToken hc

/-- **So they do over any number of calls.** -/
theorem At.scans?_eq (h : b.At l) (n : Nat) :
    ∃ b', b.scans? n = some ((l.scans n).1, b') ∧ b'.input = b.input ∧ b'.At (l.scans n).2 := by
  induction n generalizing b l with
  | zero => exact ⟨b, rfl, rfl, h⟩
  | succ n ih =>
      obtain ⟨b', hscan, hinput, hat⟩ := h.agrees
      obtain ⟨b'', hscans, hinput', hat'⟩ := ih hat
      refine ⟨b'', ?_, hinput'.trans hinput, hat'⟩
      rw [scans?, hscan]
      simp only [Option.bind_eq_bind, Option.bind_some, hscans]
      rfl

end ByteLexer

end Propositional

import SheetTemplate.Text
import SheetTemplate.Address

/-!
# Formulas and their references

A formula is a cell text that begins with `=` and an upper-case letter. It is cut into quoted parts, words and single marks
(`Formula.Lexeme`); a word that reads as a cell of the same sheet is a reference: up to three upper-case letters and a row, with
dollar signs before either, not behind `!` and not before `!` or `(`. What is quoted, names of functions and references into
other sheets are no references and keep their characters whatever is done with the others.

The characters of the pieces are those of the text (`Formula.Piece.chars`), and only the row of a reference can be changed.
-/

namespace SheetTemplate
namespace Formula

/-- A text is a formula if it begins with an equals sign and an upper-case letter. -/
def isFormula (s : String) : Bool :=
  match s.toList with
  | '=' :: c :: _ => c.isUpper
  | _ => false

/-! ## Lexemes -/

/-- A part of a formula that is read as one. -/
inductive Lexeme
  /-- Characters in quotes, or from a quote to the end. -/
  | quoted (cs : List Char)
  /-- A run of letters, digits, underscores, dots and dollar signs as long as possible. -/
  | word (cs : List Char)
  | mark (c : Char)
  deriving DecidableEq

/-- The characters of a lexeme. -/
def Lexeme.chars : Lexeme → List Char
  | .quoted cs => cs
  | .word cs => cs
  | .mark c => [c]

def isQuote (c : Char) : Bool := c = '"' || c = '\''

/-- The characters that words are made of. -/
def isWordChar (c : Char) : Bool := c.isAlphanum || c = '_' || c = '.' || c = '$'

/-- How many characters follow an opening quote up to and with the closing one. A quote written twice does not close. -/
def quotedLength (quote : Char) : List Char → Nat
  | [] => 0
  | c :: rest =>
    if c = quote then
      match rest with
      | [] => 1
      | d :: rest => if d = quote then 2 + quotedLength quote rest else 1
    else
      1 + quotedLength quote rest

/-- The lexemes of a text of which the first `covered` characters belong to one that was already taken. -/
def lex : List Char → Nat → List Lexeme
  | [], _ => []
  | _ :: rest, covered + 1 => lex rest covered
  | c :: rest, 0 =>
    if isQuote c then
      let length := quotedLength c rest
      .quoted (c :: rest.take length) :: lex rest length
    else if isWordChar c then
      let tail := rest.takeWhile isWordChar
      .word (c :: tail) :: lex rest tail.length
    else
      .mark c :: lex rest 0

theorem flatMap_chars_lex (cs : List Char) (covered : Nat) : (lex cs covered).flatMap Lexeme.chars = cs.drop covered := by
  induction cs generalizing covered with
  | nil => simp [lex]
  | cons c rest ih =>
    match covered with
    | covered + 1 => simpa [lex] using ih covered
    | 0 =>
      simp only [lex, List.drop_zero]
      split
      · simp [ih, Lexeme.chars]
      · split
        · simp only [List.flatMap_cons, ih, Lexeme.chars, List.cons_append]
          rw [← Text.takeWhile_append_drop]
        · simp [ih, Lexeme.chars]

/-! ## References -/

/-- A reference to a cell as written: the column with its dollar signs, and the digits of the row. -/
structure Reference where
  head : List Char
  digits : List Char
  row : Nat
  deriving DecidableEq

namespace Reference

/-- The characters of a reference. -/
def chars (r : Reference) : List Char := r.head ++ r.digits

/-- The same column in another row. -/
def withRow (r : Reference) (row : Nat) : Reference := { r with digits := Text.digits row, row }

/-- The length of the dollar sign that a word may begin with. -/
def dollarLength (cs : List Char) : Nat := if cs.head? = some '$' then 1 else 0

/-- The upper-case letters that name the column of a word. -/
def letters (cs : List Char) : List Char := (cs.drop (dollarLength cs)).takeWhile Char.isUpper

/-- The length of the column of a word with the dollar signs before and behind its letters. -/
def headLength (cs : List Char) : Nat :=
  let column := dollarLength cs + (letters cs).length
  column + dollarLength (cs.drop column)

/-- The reference that a word spells: one to three upper-case letters, then the digits of a row from 1, a dollar sign before
either or not. -/
def ofWord? (cs : List Char) : Option Reference := do
  let row ← Text.number? lastRow (cs.drop (headLength cs))
  if 1 ≤ (letters cs).length ∧ (letters cs).length ≤ 3 ∧ row ≠ 0 then
    some ⟨cs.take (headLength cs), cs.drop (headLength cs), row⟩
  else
    none

/-- A reference keeps the characters of its word. -/
theorem chars_of_ofWord? {cs : List Char} {r : Reference} (h : ofWord? cs = some r) : r.chars = cs := by
  simp only [ofWord?, Option.bind_eq_bind, Option.bind_eq_some_iff] at h
  obtain ⟨row, -, h⟩ := h
  split at h
  · cases h
    exact List.take_append_drop _ _
  · cases h

end Reference

/-! ## Pieces -/

/-- A part of a formula: a reference to a cell of the same sheet, or anything else. -/
inductive Piece
  | other (lexeme : Lexeme)
  | reference (r : Reference)
  deriving DecidableEq

namespace Piece

/-- The characters of a piece. -/
def chars : Piece → List Char
  | .other lexeme => lexeme.chars
  | .reference r => r.chars

/-- The reference that a piece is. -/
def reference? : Piece → Option Reference
  | .other _ => none
  | .reference r => some r

end Piece

/-- Whether a lexeme makes the word before it the name of a function or of another sheet. -/
def makesName : Option Lexeme → Bool
  | some (.mark c) => c = '(' || c = '!'
  | _ => false

/-- The pieces of lexemes, of which `previous` stands before the first. -/
def classify (previous : Option Lexeme) : List Lexeme → List Piece
  | [] => []
  | lexeme :: rest =>
    let piece :=
      match lexeme with
      | .word cs =>
        if previous = some (.mark '!') || makesName rest.head? then
          Piece.other lexeme
        else
          match Reference.ofWord? cs with
          | some r => .reference r
          | none => .other lexeme
      | _ => .other lexeme
    piece :: classify (some lexeme) rest

theorem flatMap_chars_classify (previous : Option Lexeme) (lexemes : List Lexeme) :
    (classify previous lexemes).flatMap Piece.chars = lexemes.flatMap Lexeme.chars := by
  induction lexemes generalizing previous with
  | nil => rfl
  | cons lexeme rest ih =>
    simp only [classify, List.flatMap_cons, ih]
    congr 1
    split
    · split
      · rfl
      · split
        · rename_i hr
          exact Reference.chars_of_ofWord? hr
        · rfl
    · rfl

/-- The pieces of a text. -/
def pieces (s : String) : List Piece := classify none (lex s.toList 0)

/-- The text that pieces make up. -/
def join (pieces : List Piece) : String := String.ofList (pieces.flatMap Piece.chars)

@[simp] theorem join_pieces (s : String) : join (pieces s) = s := by
  simp [join, pieces, flatMap_chars_classify, flatMap_chars_lex]

/-- The references of a text from left to right. -/
def references (s : String) : List Reference := (pieces s).filterMap Piece.reference?

/-! ## Positions -/

/-- A reference with the position at which it starts, in bytes of UTF-8. -/
structure Place where
  start : Nat
  reference : Reference
  deriving DecidableEq

namespace Place

/-- The position of the digits of the row. -/
def rowStart (p : Place) : Nat := p.start + Text.width p.reference.head

/-- The position behind the reference. -/
def stop (p : Place) : Nat := p.start + Text.width p.reference.chars

end Place

/-- The references among pieces with their positions, the first piece at `start`. -/
def placesFrom (start : Nat) : List Piece → List Place
  | [] => []
  | piece :: rest =>
    match piece with
    | .other lexeme => placesFrom (start + Text.width lexeme.chars) rest
    | .reference r => ⟨start, r⟩ :: placesFrom (start + Text.width r.chars) rest

/-- The references of a text with their positions. -/
def places (s : String) : List Place := placesFrom 0 (pieces s)

/-! ## Ranges -/

/-- The reference that opens the range which ends at the next piece, after pieces of which the last two were `earlier` and
`last`. -/
def opener (earlier last : Option Piece) : Option Reference :=
  match earlier, last with
  | some (.reference r), some (.other (.mark ':')) => some r
  | _, _ => none

/-- Applies `f` to every piece and the reference that opens a range ending there, if one does. -/
def mapWithOpener {α : Type} (f : Option Reference → Piece → α) (earlier last : Option Piece) : List Piece → List α
  | [] => []
  | piece :: rest => f (opener earlier last) piece :: mapWithOpener f last (some piece) rest

/-- The pairs of references that a colon joins, with their positions, the first piece at `start`. -/
def rangesFrom (start : Nat) : List Piece → List (Place × Place)
  | [] => []
  | piece :: rest =>
    let later := rangesFrom (start + Text.width piece.chars) rest
    match piece, rest with
    | .reference a, .other (.mark ':') :: .reference b :: _ => (⟨start, a⟩, ⟨start + Text.width a.chars + 1, b⟩) :: later
    | _, _ => later

/-- The pairs of references that a colon joins, with their positions. -/
def ranges (s : String) : List (Place × Place) := rangesFrom 0 (pieces s)

end Formula
end SheetTemplate

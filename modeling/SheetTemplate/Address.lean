import SheetTemplate.Text

/-!
# Addresses

Columns, cells and ranges of cells, and their spellings. Columns are counted from 1 and written in letters: `A` to `Z`, `AA`
to `AZ` and so on, the numbers in base 26 with the digits 1 to 26. Rows are counted from 1 and never pass `lastRow`; a column
never passes `lastColumn`, which is part of its type.
-/

namespace SheetTemplate

/-- The last row of a sheet. -/
def lastRow : Nat := 4294967295

/-- The last column of a sheet. -/
def lastColumn : Nat := 4294967295

/-! ## Columns -/

/-- A column of a sheet, by its position counted from 1. -/
structure Column where
  index : Nat
  one_le : 1 ≤ index
  le_last : index ≤ lastColumn
  deriving DecidableEq

namespace Column

instance : Ord Column := ⟨compareOn index⟩

instance : Std.TransOrd Column := inferInstanceAs (Std.TransCmp (compareOn index))

instance : Std.LawfulEqOrd Column where
  eq_of_compare {a b} h := by
    have : a.index = b.index := Std.LawfulEqOrd.eq_of_compare (show compare a.index b.index = .eq from h)
    cases a
    cases b
    cases this
    rfl

/-- The column at a position, if there is one. -/
def ofIndex? (n : Nat) : Option Column :=
  if h : 1 ≤ n ∧ n ≤ lastColumn then some ⟨n, h.1, h.2⟩ else none

/-- The first column. -/
def first : Column := ⟨1, by decide, by decide⟩

instance : Inhabited Column := ⟨first⟩

/-- The column `n` places to the right, or the last one where there are not so many. -/
def offset (c : Column) (n : Nat) : Column :=
  ⟨min (c.index + n) lastColumn, Nat.le_min.2 ⟨Nat.le_add_right_of_le c.one_le, by decide⟩, Nat.min_le_right _ _⟩

theorem index_offset {c : Column} {n : Nat} (h : c.index + n ≤ lastColumn) : (c.offset n).index = c.index + n :=
  Nat.min_eq_left h

theorem eq_of_index_eq {c other : Column} (h : c.index = other.index) : c = other := by
  obtain ⟨_, _, _⟩ := c
  cases h
  rfl

theorem ofIndex?_eq_some_iff {n : Nat} {c : Column} : ofIndex? n = some c ↔ n = c.index := by
  rw [ofIndex?]
  split
  · constructor
    · intro h
      cases h
      rfl
    · intro h
      exact congrArg some (eq_of_index_eq h)
  · rename_i hout
    constructor
    · nofun
    · intro h
      exact absurd ⟨h ▸ c.one_le, h ▸ c.le_last⟩ hout

/-- The column that many places to the right. -/
theorem eq_offset_iff {c other : Column} {n : Nat} (h : c.index + n ≤ lastColumn) :
    other = c.offset n ↔ other.index = c.index + n := by
  constructor
  · rintro rfl
    exact index_offset h
  · intro hindex
    exact eq_of_index_eq (hindex.trans (index_offset h).symm)

/-- The column to the right. -/
def next (c : Column) : Column := c.offset 1

/-- The one of two columns further to the left. -/
def leftmost (a b : Column) : Column := if a.index ≤ b.index then a else b

/-- The one of two columns further to the right. -/
def rightmost (a b : Column) : Column := if a.index ≤ b.index then b else a

/-- The letters of a column number, at most `length` of them. -/
def lettersUpTo (length : Nat) (n : Nat) : List Char :=
  match length, n with
  | 0, _ => []
  | _, 0 => []
  | length + 1, n + 1 => lettersUpTo length (n / 26) ++ [Char.ofNat (65 + n % 26)]

/-- The letters of a column. Seven reach beyond the last one. -/
def letters (c : Column) : List Char := lettersUpTo 7 c.index

/-- The spelling of a column in upper-case letters. -/
def text (c : Column) : String := String.ofList c.letters

/-- The place of a letter in the alphabet, counted from 1, in upper or lower case. -/
def letterValue (c : Char) : Nat := c.toUpper.toNat - 64

/-- The column that a run of letters names. Blanks around it and dollar signs before it are ignored. -/
def ofChars? (cs : List Char) : Option Column :=
  let letters := (Text.trimChars cs).dropWhile (· = '$')
  if letters.all Char.isAlpha then
    ofIndex? (letters.foldl (fun n c => n * 26 + letterValue c) 0)
  else
    none

/-- The column that a text names. -/
def ofText? (s : String) : Option Column := ofChars? s.toList

end Column

/-! ## Cells -/

/-- The place of a cell. -/
structure Address where
  column : Column
  row : Nat
  deriving DecidableEq

namespace Address

/-- Cells are ordered row by row, and within a row from left to right. -/
instance : Ord Address := ⟨compareLex (compareOn row) (compareOn column)⟩

instance : Std.TransOrd Address := inferInstanceAs (Std.TransCmp (compareLex (compareOn row) (compareOn column)))

instance : Std.LawfulEqOrd Address where
  eq_of_compare {a b} h := by
    obtain ⟨hr, hc⟩ := Ordering.then_eq_eq.1 (show (compare a.row b.row).then (compare a.column b.column) = .eq from h)
    obtain ⟨column, row⟩ := a
    rw [Address.mk.injEq]
    exact ⟨Std.LawfulEqOrd.eq_of_compare hc, Std.LawfulEqOrd.eq_of_compare hr⟩

/-- The spelling of an address: letters, then the row. -/
def chars (a : Address) : List Char := a.column.letters ++ Text.digits a.row

/-- The spelling of an address: letters, then the row. -/
def text (a : Address) : String := String.ofList a.chars

/-- A run of letters without the dollar sign that may stand at its end. -/
def dropLastDollar (letters : List Char) : List Char :=
  if letters.getLast? = some '$' then letters.dropLast else letters

/-- The address that a run of characters names: a column up to the first digit, and digits from there on for a row from 1.
Blanks around it and a dollar sign before either part are ignored. -/
def ofChars? (cs : List Char) : Option Address := do
  let cs := Text.trimChars cs
  let column ← Column.ofChars? (dropLastDollar (cs.takeWhile (!·.isDigit)))
  let row ← Text.number? lastRow (cs.dropWhile (!·.isDigit))
  if row = 0 then none else some ⟨column, row⟩

/-- The address that a text names. -/
def ofText? (s : String) : Option Address := ofChars? s.toList

/-- The two addresses that a text names on both sides of its first colon, as written. -/
def pairOfText? (s : String) : Option (Address × Address) := do
  let cs := s.toList
  let first ← ofChars? (cs.takeWhile (· ≠ ':'))
  match cs.dropWhile (· ≠ ':') with
  | [] => none
  | _ :: rest =>
    let second ← ofChars? rest
    some (first, second)

end Address

/-! ## Areas -/

/-- A rectangle of cells. -/
structure Area where
  top : Nat
  left : Column
  bottom : Nat
  right : Column
  top_le : top ≤ bottom
  left_le : left.index ≤ right.index
  deriving DecidableEq

namespace Area

/-- Areas are ordered by their first cell, then by their last. -/
instance : Ord Area :=
  ⟨compareLex (compareLex (compareOn top) (compareOn left)) (compareLex (compareOn bottom) (compareOn right))⟩

instance : Std.TransOrd Area :=
  inferInstanceAs (Std.TransCmp
    (compareLex (compareLex (compareOn top) (compareOn left)) (compareLex (compareOn bottom) (compareOn right))))

instance : Std.LawfulEqOrd Area where
  eq_of_compare {a b} h := by
    obtain ⟨hfirst, hlast⟩ := Ordering.then_eq_eq.1 (show
      ((compare a.top b.top).then (compare a.left b.left)).then ((compare a.bottom b.bottom).then (compare a.right b.right)) =
        .eq from h)
    obtain ⟨ht, hl⟩ := Ordering.then_eq_eq.1 hfirst
    obtain ⟨hb, hr⟩ := Ordering.then_eq_eq.1 hlast
    obtain ⟨top, left, bottom, right, _, _⟩ := a
    rw [Area.mk.injEq]
    exact ⟨Std.LawfulEqOrd.eq_of_compare ht, Std.LawfulEqOrd.eq_of_compare hl, Std.LawfulEqOrd.eq_of_compare hb,
      Std.LawfulEqOrd.eq_of_compare hr⟩

/-- The smallest area that holds two cells. -/
def between (a b : Address) : Area where
  top := min a.row b.row
  left := Column.leftmost a.column b.column
  bottom := max a.row b.row
  right := Column.rightmost a.column b.column
  top_le := by omega
  left_le := by
    unfold Column.leftmost Column.rightmost
    split <;> omega

/-- The top-left cell. -/
def anchor (m : Area) : Address := ⟨m.left, m.top⟩

/-- The number of rows below the first. -/
def height (m : Area) : Nat := m.bottom - m.top

/-- The number of columns to the right of the first. -/
def extraColumns (m : Area) : Nat := m.right.index - m.left.index

/-- Whether the area lies in one row. -/
def isSingleRow (m : Area) : Bool := m.top == m.bottom

/-- Whether the area has cells in a row. -/
def containsRow (m : Area) (row : Nat) : Bool := m.top ≤ row && row ≤ m.bottom

/-- The rows of an area from top to bottom. -/
def rows (m : Area) : List Nat := List.range' m.top (m.height + 1)

/-- The same columns between two rows. -/
def withRows (m : Area) (top bottom : Nat) : Area := between ⟨m.left, top⟩ ⟨m.right, bottom⟩

/-- An area in other rows, where these are in order. -/
theorem withRows_eq (area : Area) {top bottom : Nat} (h : top ≤ bottom) :
    area.withRows top bottom = { area with top, bottom, top_le := h } := by
  simp only [withRows, between, Column.leftmost, Column.rightmost, area.left_le, if_true, Nat.min_eq_left h, Nat.max_eq_right h]

/-- The spelling of an area: its first cell, a colon, its last cell. -/
def chars (m : Area) : List Char :=
  (⟨m.left, m.top⟩ : Address).chars ++ ':' :: (⟨m.right, m.bottom⟩ : Address).chars

/-- The spelling of an area: its first cell, a colon, its last cell. -/
def text (m : Area) : String := String.ofList m.chars

/-- The area between the two cells that a text names. -/
def ofText? (s : String) : Option Area :=
  (Address.pairOfText? s).map fun pair => between pair.1 pair.2

end Area
end SheetTemplate

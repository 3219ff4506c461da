import SheetTemplate.Formula
import SheetTemplate.Grid
import SheetTemplate.Marker
import SheetTemplate.Plan

/-!
# Repetition of a row

What one row of a template becomes. The markers of the row tell how often it repeats down the sheet and how often one of its
cells repeats across (`Repetition.ofLine`). A cell that repeats across takes its merge along: a copy is as many columns wide as
the merge of the cell (`Widening`). A row that repeats down takes the merges along that begin in it, except those of cells
without a value, which stand once beside all the copies (`Stacking`).
-/

namespace SheetTemplate

/-- What the markers of a row ask for. -/
structure Repetition where
  /-- The number of copies of the row below it. -/
  rows : Nat
  /-- The number of copies of a cell beside it. -/
  columns : Nat
  /-- The column of that cell. -/
  anchor : Option Column
  deriving DecidableEq

namespace Repetition

/-- The values of a row that have a place in a list of the payload, by the column they stand in. -/
def listed (leaves : Leaves) (line : Line) : List (Column × Path) :=
  line.entries.flatMap fun cell =>
    (Marker.all cell.2).filterMap fun m =>
      let path := m.path.grounded
      if m.modifier = .value ∧ path.hasPosition ∧ leaves.contains path.text then some (cell.1, path) else none

/-- Takes one more value into account: as many rows as the longest list has, and the cell with the most columns, of several the
leftmost. -/
def count (leaves : Leaves) (r : Repetition) (value : Column × Path) : Repetition :=
  let columns := leaves.siblings .across value.2
  { rows := max r.rows (leaves.siblings .down value.2)
    columns := max r.columns columns
    anchor := if r.columns < columns then some value.1 else r.anchor }

/-- The repetition of a row. -/
def ofLine (leaves : Leaves) (line : Line) : Repetition :=
  (listed leaves line).foldl (count leaves) ⟨0, 0, none⟩

end Repetition

/-- The areas of a list that begin in a cell. -/
def areasFrom (areas : List Area) (cell : Address) : List Area := areas.filter fun area => area.anchor = cell

/-! ## Across -/

/-- The copies of a cell beside it. -/
structure Widening where
  anchor : Column
  text : String
  /-- By how many columns the merge of the cell passes it. -/
  extra : Nat
  copies : Nat
  deriving DecidableEq

namespace Widening

/-- The column that lies `offset` columns inside copy `copy`; the cell itself counts as copy 0. -/
def column (w : Widening) (copy offset : Nat) : Column := w.anchor.offset (copy * (w.extra + 1) + offset)

/-- The numbers of the copies. -/
def numbers (w : Widening) : List Nat := List.range' 1 w.copies

/-- The row with the copies put in. -/
def widen (w : Widening) (line : Line) : Line :=
  w.numbers.foldl (fun line copy => line.insert (w.column copy 0) (Marker.advance .across copy w.text)) line

/-- The columns of the copies, each with the column it is taken from. -/
def columnCopies (w : Widening) : List (Copy Column) :=
  w.numbers.flatMap fun copy => (List.range (w.extra + 1)).map fun offset => ⟨w.column 0 offset, w.column copy offset⟩

/-- The style copies when the row stands at `row`. -/
def styles (w : Widening) (row : Nat) : List (Copy Address) :=
  w.columnCopies.map fun c => ⟨⟨c.source, row⟩, ⟨c.target, row⟩⟩

/-- The format copies when the row stands at `row`. The columns that a merge covers have no format of their own. -/
def formats (w : Widening) (row : Nat) : List (Copy Address) :=
  w.numbers.map fun copy => ⟨⟨w.anchor, row⟩, ⟨w.column copy 0, row⟩⟩

/-- The merges of the copies when the row stands at `row`. -/
def areas (w : Widening) (row : Nat) : List Area :=
  if w.extra = 0 then [] else
    w.numbers.map fun copy => Area.between ⟨w.column copy 0, row⟩ ⟨w.column copy w.extra, row⟩

/-- The widening of row `row` of a template, with markers already grounded. Only a merge within the row makes copies wider. -/
def ofLine? (areas : List Area) (row : Nat) (line : Line) (r : Repetition) : Option Widening := do
  let anchor ← r.anchor
  let text ← line.get? anchor
  let extra := ((areasFrom areas ⟨anchor, row⟩).find? Area.isSingleRow).elim 0 Area.extraColumns
  some ⟨anchor, text, extra, r.columns⟩

end Widening

/-! ## Down -/

/-- The copies of a row below it. -/
structure Stacking where
  /-- The cells that are copied. -/
  line : Line
  /-- The merges that are copied, at the rows of the template. -/
  areas : List Area
  copies : Nat
  /-- The distance of the copies. -/
  stride : Nat

namespace Stacking

/-- The cells of a row that copies have too: all but those that begin a merge and hold no value. -/
def copied (areas : List Area) (row : Nat) (line : Line) : Line :=
  line.filter fun column text => Marker.valueInText text || (areasFrom areas ⟨column, row⟩).isEmpty

/-- How far the merges of values reach below a row. -/
def height (areas : List Area) (row : Nat) (line : Line) : Nat :=
  (line.filter fun _ text => Marker.valueInText text).keys.foldl
    (fun height column => (areasFrom areas ⟨column, row⟩).foldl (fun height area => max height area.height) height) 0

/-- The stacking of row `row` of a template, widened already. -/
def ofLine (areas : List Area) (row : Nat) (line : Line) (copies stride : Nat) : Stacking :=
  let copied := copied areas row line
  { line := copied
    areas := copied.keys.flatMap fun column => areasFrom areas ⟨column, row⟩
    copies
    stride }

/-- The row of a copy when the row itself stands at `origin`; it counts as copy 0. -/
def row (s : Stacking) (origin copy : Nat) : Nat := origin + copy * s.stride

/-- The numbers of the copies. -/
def numbers (s : Stacking) : List Nat := List.range' 1 s.copies

/-- The rows that the copies and their merges need, copy by copy. -/
def neededRows (s : Stacking) (origin : Nat) : List Nat :=
  s.numbers.flatMap fun copy => s.row origin copy :: s.areas.map fun area => s.row origin copy + area.height

/-- The contents of the copies by row. -/
def lines (s : Stacking) (origin : Nat) : List (Nat × Line) :=
  if s.line.isEmpty then [] else
    s.numbers.map fun copy => (s.row origin copy, s.line.mapValues fun _ text => Marker.advance .down copy text)

/-- The style copies: the cells of a copy, then the columns that its merges cover. -/
def styles (s : Stacking) (origin : Nat) : List (Copy Address) :=
  s.numbers.flatMap fun copy =>
    let target := s.row origin copy
    (s.line.keys.map fun column => ⟨⟨column, origin⟩, ⟨column, target⟩⟩) ++
      s.areas.flatMap fun area => (List.range' 1 area.extraColumns).map fun offset =>
        ⟨⟨area.left.offset offset, origin⟩, ⟨area.left.offset offset, target⟩⟩

/-- The format copies: the cells of a copy. -/
def formats (s : Stacking) (origin : Nat) : List (Copy Address) :=
  s.numbers.flatMap fun copy => s.line.keys.map fun column => ⟨⟨column, origin⟩, ⟨column, s.row origin copy⟩⟩

/-- The merges of the copies. -/
def copiedAreas (s : Stacking) (origin : Nat) : List Area :=
  s.numbers.flatMap fun copy => s.areas.map fun area =>
    area.withRows (s.row origin copy) (s.row origin copy + area.height)

end Stacking
end SheetTemplate

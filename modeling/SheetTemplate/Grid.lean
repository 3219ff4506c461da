import SheetTemplate.Address
import SheetTemplate.SortedMap

/-!
# Grids

The texts of a sheet, by row and within a row by column. A row may be there without cells: it still counts as used.
-/

namespace SheetTemplate

/-- The texts of a row by column. -/
abbrev Line : Type := SortedMap Column String

/-- The texts of a sheet by row, then by column. -/
abbrev Grid : Type := SortedMap Nat Line

namespace Grid

/-- The cells of a row; none where the grid has no such row. -/
def line (grid : Grid) (row : Nat) : Line := (grid.get? row).getD ∅

/-- The text of a cell. -/
def text? (grid : Grid) (cell : Address) : Option String := (grid.line cell.row).get? cell.column

/-- The grid with a text put into a cell. -/
def put (grid : Grid) (cell : Address) (text : String) : Grid :=
  grid.insert cell.row ((grid.line cell.row).insert cell.column text)

theorem text?_put (grid : Grid) (cell other : Address) (text : String) :
    (grid.put cell text).text? other = if other = cell then some text else grid.text? other := by
  obtain ⟨column, row⟩ := cell
  obtain ⟨column', row'⟩ := other
  simp only [text?, line, put, SortedMap.get?_insert, Std.LawfulEqOrd.compare_eq_iff_eq, Address.mk.injEq]
  by_cases hr : row' = row
  · subst hr
    rw [if_pos rfl, Option.getD_some, SortedMap.get?_insert]
    simp only [Std.LawfulEqOrd.compare_eq_iff_eq, and_true]
  · rw [if_neg hr, if_neg fun h => hr h.2]

/-- The grid with every text replaced, given its row. -/
def mapTexts (f : Nat → String → String) (grid : Grid) : Grid :=
  grid.mapValues fun row line => line.mapValues fun _ text => f row text

theorem text?_mapTexts (f : Nat → String → String) (grid : Grid) (cell : Address) :
    (grid.mapTexts f).text? cell = (grid.text? cell).map (f cell.row) := by
  rw [text?, text?, line, line, mapTexts, SortedMap.get?_mapValues]
  cases SortedMap.get? grid cell.row with
  | none => rfl
  | some found => exact SortedMap.get?_mapValues (fun _ text => f cell.row text) found cell.column

/-- The cells with their texts, row by row and from left to right. -/
def cells (grid : Grid) : List (Address × String) :=
  grid.entries.flatMap fun line => line.2.entries.map fun cell => (⟨cell.1, line.1⟩, cell.2)

end Grid
end SheetTemplate

import SheetTemplate.Error
import SheetTemplate.Grid
import SheetTemplate.Marker
import SheetTemplate.Plan

/-!
# Substitution

The last step turns the texts of the expanded sheet into values. A cell whose condition is not met is cleared. A cell that
consists of one marker holds the value itself, of whatever type; any other text has each marker replaced by the text of its
value, all at once, so that a value which looks like a marker is left alone.
-/

namespace SheetTemplate
namespace Substitution

/-- A text as a value; a cell without text is cleared. -/
def nonEmpty? (s : String) : Option Value := if s = "" then none else some (.text s)

/-- The value that a whole cell takes over. -/
def taken? : Value → Option Value
  | .text s => nonEmpty? (Text.trim s)
  | .null => none
  | value => some value

/-- Whether a condition over the cell alone is not met. -/
def isCleared (leaves : Leaves) (text : String) : Bool :=
  (Marker.all text).any fun m => m.modifier.isCellScoped && !m.isMet leaves

/-- A text without its conditions and the blanks around it. -/
def stripped (text : String) : String :=
  Text.trim (Marker.replace (fun m => if m.modifier.isConditional then some "" else none) text)

/-- The text that stands for a marker in a cell: nothing where the path has no value. -/
def spliced (leaves : Leaves) (cell : Address) (m : Marker) : Except Error (Option String) :=
  match leaves.get? m.path.text with
  | none => .ok (some "")
  | some value =>
    match value.text? with
    | some text => .ok (some text)
    | none => .error (.callableInText m.path.text cell.text)

/-- The value of a cell with a text; `none` clears the cell. -/
def value (leaves : Leaves) (cell : Address) (text : String) : Except Error (Option Value) :=
  if isCleared leaves text then
    .ok none
  else
    let text := stripped text
    match (Marker.whole? text).bind fun m => leaves.get? m.path.text with
    | some value => .ok (taken? value)
    | none => do
      let replaced ← Marker.tryReplace (spliced leaves cell) text
      return nonEmpty? (Text.trim replaced)

/-- The contents of the cells of a grid. The first cell that has none, row by row and from left to right, is the error. -/
def contents (leaves : Leaves) (grid : Grid) : Except Error Contents := do
  let cells ← grid.cells.mapM fun cell => do
    let value ← value leaves cell.1 cell.2
    return (cell.1, value)
  return cells.foldl (fun contents cell => Contents.put contents cell.1 cell.2) ∅

end Substitution
end SheetTemplate

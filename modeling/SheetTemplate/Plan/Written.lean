import SheetTemplate.Error
import SheetTemplate.Plan

/-!
# Plans as JSON

A plan is written as one object: the row actions, the contents of cells by row and column, the merged areas and the copies, each
part in its order. A plan that puts a callback into a cell has no JSON form.
-/

namespace SheetTemplate

/-- The JSON form of a row action. -/
def RowAction.json : RowAction → Json
  | .add row => .object [("action", .string "add"), ("row", .int row)]
  | .delete row => .object [("action", .string "delete"), ("row", .int row)]

/-- The JSON form of copies, given the spelling of places. -/
def Copy.listJson {α : Type} (text : α → String) (copies : List (Copy α)) : Json :=
  .array (copies.map fun copy => .object [("from", .string (text copy.source)), ("to", .string (text copy.target))])

namespace Plan

/-- The JSON form of a row of contents. -/
def lineJson? (line : SortedMap Column (Option Value)) : Option Json := do
  let cells ← line.entries.mapM fun cell => do
    let value ← (cell.2.getD .null).json?
    return (cell.1.text, value)
  return .object cells

/-- The JSON form of a plan, if it has one. -/
def json? (plan : Plan) : Option Json := do
  let lines ← plan.contents.entries.mapM fun line => do
    let cells ← lineJson? line.2
    return (String.ofList (Text.digits line.1), cells)
  return .object [("rows", .array (plan.rows.map RowAction.json)), ("cells", .object lines),
    ("merges", .array (plan.areas.keys.map fun area => .string area.text)), ("copyStyle", Copy.listJson Address.text plan.styles),
    ("copyCellFormat", Copy.listJson Address.text plan.formats), ("copyWidth", Copy.listJson Column.text plan.widths)]

/-- The JSON text of a plan. -/
def text (plan : Plan) : Except Error String :=
  match plan.json? with
  | some json => .ok json.text
  | none => .error (.json .callable)

end Plan
end SheetTemplate

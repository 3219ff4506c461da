import SheetTemplate.Plan

/-!
# Rendering of a plan

A plan is carried out by whatever owns a sheet: a file, a table in memory, a log. Row actions come first, in order, so that all
that follows speaks of final rows; then the copies, the contents of cells row by row, and the merges. A renderer works in a monad
of its own and may refuse a call, after which no other is made.
-/

namespace SheetTemplate

/-- What a plan needs from the owner of a sheet. -/
structure Renderer (m : Type → Type) where
  /-- A blank row comes in; the rows from there on move down. -/
  insertRow : Nat → m Unit
  /-- A row goes out; the rows below it move up. -/
  deleteRow : Nat → m Unit
  copyStyle : Copy Address → m Unit
  copyFormat : Copy Address → m Unit
  copyWidth : Copy Column → m Unit
  setCell : Address → Value → m Unit
  clearCell : Address → m Unit
  merge : Area → m Unit

namespace Plan

variable {m : Type → Type} [Monad m]

/-- Carries out a row action. -/
def renderRow (renderer : Renderer m) : RowAction → m Unit
  | .add row => renderer.insertRow row
  | .delete row => renderer.deleteRow row

/-- Fills or clears a cell. -/
def renderCell (renderer : Renderer m) (cell : Address) : Option Value → m Unit
  | some value => renderer.setCell cell value
  | none => renderer.clearCell cell

/-- Carries out a plan. -/
def render (renderer : Renderer m) (plan : Plan) : m Unit := do
  plan.rows.forM (renderRow renderer)
  plan.styles.forM renderer.copyStyle
  plan.formats.forM renderer.copyFormat
  plan.widths.forM renderer.copyWidth
  plan.contents.entries.forM fun line =>
    line.2.entries.forM fun cell => renderCell renderer ⟨cell.1, line.1⟩ cell.2
  plan.areas.keys.forM renderer.merge

end Plan
end SheetTemplate

import SheetTemplate.Formula
import SheetTemplate.Grid
import SheetTemplate.Marker
import SheetTemplate.RowAction

/-!
# Formulas on expanded rows

After rows were added and deleted the references of a formula still name rows of the template. Three steps set them right.
Every reference moves with its row (`Formula.shift`). A formula on an added row that points to the row above its run points to
its own row instead, so that each copy computes from its own cells (`Formula.localize`). A range of one row directly above a run
of added rows is extended to the end of the run, so that a total covers the whole list (`Formula.grow`).
-/

namespace SheetTemplate
namespace Formula

/-- The text with the rows of its references replaced where `f` gives another one. -/
def mapRows (f : Nat → Option Nat) (s : String) : String :=
  join <| (pieces s).map fun
    | .reference r => .reference (((f r.row).map r.withRow).getD r)
    | piece => piece

/-- The text with every reference moved by row actions. A reference whose row stays keeps its digits as written. -/
def shift (actions : List RowAction) (s : String) : String :=
  mapRows (fun row => let moved := RowAction.moveAll actions row; if moved = row then none else some moved) s

/-- The text of a formula on row `row` with references to the row above a run that holds `row` pointed to `row` itself. -/
def localize (runs : List RowAction.Run) (row : Nat) (s : String) : String :=
  (runs.filter fun run => run.contains row).foldl
    (fun text run => mapRows (fun r => if r = run.first - 1 then some row else none) text) s

/-- Ranges that lie in row `above` extend down to row `last`. -/
structure Growth where
  above : Nat
  last : Nat
  deriving DecidableEq

/-- Whether a row lies in an area of several rows whose first cell holds a marker for a value: the run below it consists of
copies of that block and is no list. -/
def isInBlock (grid : Grid) (areas : SortedSet Area) (row : Nat) : Bool :=
  areas.keys.any fun area =>
    !area.isSingleRow && area.containsRow row && (grid.text? area.anchor).any Marker.valueInText

/-- The growths below the rows directly above runs, except above copies of a block. -/
def growths (runs : List RowAction.Run) (grid : Grid) (areas : SortedSet Area) : List Growth :=
  runs.filterMap fun run =>
    if 2 ≤ run.first ∧ !isInBlock grid areas (run.first - 1) then some ⟨run.first - 1, run.last⟩ else none

/-- The text with the ranges of one row extended. -/
def grow (growths : List Growth) (s : String) : String :=
  join <| mapWithOpener (fun opener piece =>
    match opener, piece with
    | some first, .reference r =>
      if first.row = r.row then
        match growths.find? fun g => g.above = r.row with
        | some g => .reference (r.withRow g.last)
        | none => piece
      else
        piece
    | _, _ => piece) none none (pieces s)

/-- The grid with all its formulas set right after row actions, `areas` being the merged areas of the expanded sheet. -/
def rebase (actions : List RowAction) (areas : SortedSet Area) (grid : Grid) : Grid :=
  let runs := RowAction.runs actions
  let growths := growths runs grid areas
  grid.mapTexts fun row s => if isFormula s then grow growths (localize runs row (shift actions s)) else s

end Formula
end SheetTemplate

/-!
# Row actions

The changes of the rows of a sheet, each at the position that is current when it is carried out.
-/

namespace SheetTemplate

/-- The insertion or the deletion of a row. -/
inductive RowAction
  /-- A blank row comes in at this position; the rows from there on move down. -/
  | add (row : Nat)
  /-- The row at this position goes out; the rows below it move up. -/
  | delete (row : Nat)
  deriving DecidableEq

namespace RowAction

/-- The position that a reference to a row has after an action. A reference to the row that goes out stays at its position. -/
def move (row : Nat) : RowAction → Nat
  | .add position => if position ≤ row then row + 1 else row
  | .delete position => if position < row then row - 1 else row

/-- The position that a reference to a row has after all of some actions in order. -/
def moveAll (actions : List RowAction) (row : Nat) : Nat := actions.foldl move row

theorem moveAll_append (a b : List RowAction) (row : Nat) : moveAll (a ++ b) row = moveAll b (moveAll a row) :=
  List.foldl_append

/-! ## Runs of added rows -/

/-- Rows that follow each other, from `first` to `last`. -/
structure Run where
  first : Nat
  last : Nat
  deriving DecidableEq

/-- Whether a row belongs to a run. -/
def Run.contains (run : Run) (row : Nat) : Bool := run.first ≤ row && row ≤ run.last

/-- The runs of added rows when `current` is the run that the next action may continue. -/
def runsFrom (current : Option Run) : List RowAction → List Run
  | [] => current.toList
  | .delete _ :: rest => current.toList ++ runsFrom none rest
  | .add row :: rest =>
    match current with
    | some run =>
      if run.last + 1 = row then runsFrom (some ⟨run.first, row⟩) rest else run :: runsFrom (some ⟨row, row⟩) rest
    | none => runsFrom (some ⟨row, row⟩) rest

/-- The runs of added rows: insertions that follow each other in the list and on the sheet. -/
def runs (actions : List RowAction) : List Run := runsFrom none actions

end RowAction
end SheetTemplate

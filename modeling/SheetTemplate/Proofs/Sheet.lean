import SheetTemplate.RowAction

/-!
# Row actions on a sheet

What row actions do to a sheet. A `Sheet` has no last row and holds a label in each row or is blank there. An insertion puts a
blank row at its position and pushes the rows from there on down; a deletion takes out the row at its position and pulls the rows
below it up. Actions are carried out in the order in which they are recorded.
-/

namespace SheetTemplate

/-- A sheet without end, by the label of each row. A row that came in blank has none. -/
abbrev Sheet : Type := Nat → Option Nat

namespace Sheet

/-- The sheet on which every row bears its own number. -/
def numbered : Sheet := fun place => some place

/-- The sheet after one action. -/
def act (sheet : Sheet) : RowAction → Sheet
  | .add position => fun place =>
    if place < position then sheet place else if place = position then none else sheet (place - 1)
  | .delete position => fun place => if place < position then sheet place else sheet (place + 1)

/-- The sheet after some actions in order. -/
def actAll (sheet : Sheet) (actions : List RowAction) : Sheet := actions.foldl act sheet

/-- What stood in the rows that the deletions among some actions take out. -/
def removed (sheet : Sheet) : List RowAction → List (Option Nat)
  | [] => []
  | .add position :: rest => removed (sheet.act (.add position)) rest
  | .delete position :: rest => sheet position :: removed (sheet.act (.delete position)) rest

theorem actAll_append (sheet : Sheet) (a b : List RowAction) : sheet.actAll (a ++ b) = (sheet.actAll a).actAll b :=
  List.foldl_append

theorem removed_append (sheet : Sheet) (a b : List RowAction) :
    sheet.removed (a ++ b) = sheet.removed a ++ (sheet.actAll a).removed b := by
  induction a generalizing sheet with
  | nil => rfl
  | cons action a ih =>
    cases action with
    | add position => exact ih _
    | delete position => exact congrArg (sheet position :: ·) (ih _)

/-- Insertions one below the other put in a run of blank rows. -/
theorem actAll_adds (sheet : Sheet) (first count place : Nat) :
    sheet.actAll ((List.range' first count).map .add) place =
      if place < first then sheet place else if place < first + count then none else sheet (place - count) := by
  induction count generalizing sheet first with
  | zero =>
    change sheet place = _
    split
    · rfl
    · rw [if_neg (by omega), Nat.sub_zero]
  | succ count ih =>
    rw [List.range'_succ, List.map_cons]
    change (sheet.act (.add first)).actAll _ place = _
    rw [ih]
    simp only [act]
    by_cases h1 : place < first
    · rw [if_pos (by omega), if_pos h1, if_pos h1]
    · by_cases h2 : place = first
      · rw [if_pos (by omega), if_neg h1, if_pos h2, if_neg h1, if_pos (by omega)]
      · by_cases h3 : place < first + 1 + count
        · rw [if_neg (by omega), if_pos h3, if_neg h1, if_pos (by omega)]
        · rw [if_neg (by omega), if_neg h3, if_neg (by omega), if_neg (by omega), if_neg h1, if_neg (by omega), Nat.sub_sub]

/-- Insertions take out nothing. -/
theorem removed_adds (sheet : Sheet) (rows : List Nat) : sheet.removed (rows.map .add) = [] := by
  induction rows generalizing sheet with
  | nil => rfl
  | cons row rows ih => exact ih _

end Sheet
end SheetTemplate

import SheetTemplate.RowAction
import SheetTemplate.Value

/-!
# Plans

A plan says what to do with the sheet of a template: which rows come in and go out, which cells are merged, where styles, number
formats and column widths are copied to, and what the cells hold in the end. The part without the contents of cells is the
`Scaffold`.
-/

namespace SheetTemplate

/-- To copy something from one place to another. -/
structure Copy (α : Type) where
  source : α
  target : α
  deriving DecidableEq

/-- What changes the shape and the look of a sheet. Row actions and copies are held in the order in which they are to be carried
out; rows of areas and copies are those of the sheet after all row actions. -/
structure Scaffold where
  rows : List RowAction
  areas : SortedSet Area
  styles : List (Copy Address)
  formats : List (Copy Address)
  widths : List (Copy Column)

namespace Scaffold

def empty : Scaffold := ⟨[], ∅, [], [], []⟩

instance : Inhabited Scaffold := ⟨empty⟩

end Scaffold

/-- The contents of cells by row and column; `none` clears a cell. -/
abbrev Contents : Type := SortedMap Nat (SortedMap Column (Option Value))

/-- What is to be done with the sheet of a template. -/
structure Plan extends Scaffold where
  contents : Contents

namespace Plan

def empty : Plan := { Scaffold.empty with contents := ∅ }

instance : Inhabited Plan := ⟨empty⟩

/-! ## Steps of a plan -/

/-- The plan with a row action behind the others. -/
def act (plan : Plan) (action : RowAction) : Plan := { plan with rows := plan.rows ++ [action] }

/-- The plan with one more merged area. -/
def merge (plan : Plan) (area : Area) : Plan := { plan with areas := SortedSet.add plan.areas area }

def copyStyle (plan : Plan) (source target : Address) : Plan := { plan with styles := plan.styles ++ [⟨source, target⟩] }

def copyFormat (plan : Plan) (source target : Address) : Plan := { plan with formats := plan.formats ++ [⟨source, target⟩] }

def copyWidth (plan : Plan) (source target : Column) : Plan := { plan with widths := plan.widths ++ [⟨source, target⟩] }

end Plan

namespace Contents

/-- The contents with a value put into a cell, or the cell cleared. -/
def put (contents : Contents) (cell : Address) (value : Option Value) : Contents :=
  contents.insert cell.row (((contents.get? cell.row).getD ∅).insert cell.column value)

/-- What is put into a cell: `some none` clears it, `none` leaves it alone. -/
def get? (contents : Contents) (cell : Address) : Option (Option Value) :=
  (SortedMap.get? contents cell.row).bind fun line => line.get? cell.column

theorem get?_put (contents : Contents) (cell other : Address) (value : Option Value) :
    (contents.put cell value).get? other = if other = cell then some value else contents.get? other := by
  obtain ⟨column, row⟩ := cell
  obtain ⟨column', row'⟩ := other
  simp only [get?, put, SortedMap.get?_insert, Std.LawfulEqOrd.compare_eq_iff_eq, Address.mk.injEq]
  by_cases hr : row' = row
  · subst hr
    rw [if_pos rfl, Option.bind_some, SortedMap.get?_insert]
    simp only [Std.LawfulEqOrd.compare_eq_iff_eq, and_true]
    cases SortedMap.get? contents row' <;> rfl
  · rw [if_neg hr, if_neg fun h => hr h.2]

/-- The cells with what is put into them, row by row and from left to right. -/
def cells (contents : Contents) : List (Address × Option Value) :=
  contents.entries.flatMap fun line => line.2.entries.map fun cell => (⟨cell.1, line.1⟩, cell.2)

end Contents

namespace Plan

/-- The plan with a value put into a cell, or the cell cleared. -/
def put (plan : Plan) (cell : Address) (value : Option Value) : Plan :=
  { plan with contents := plan.contents.put cell value }

/-- The value that the plan puts into a cell. -/
def value? (plan : Plan) (cell : Address) : Option Value := (Contents.get? plan.contents cell).join

/-- Whether the plan fills or clears a cell. -/
def writes (plan : Plan) (cell : Address) : Bool := (Contents.get? plan.contents cell).isSome

end Plan
end SheetTemplate

import SheetTemplate.Block
import SheetTemplate.Error
import SheetTemplate.Repetition

/-!
# Layout of a template

Where every row of a template comes to stand. The rows from the first to the last one in use are met in order. A row whose
condition is not met goes out, a row with a list in it is followed by its copies, and any other row is kept; each moves the rows
below it up or down. A row without markers and formulas keeps what the sheet holds already.

`Strip` is what becomes of one row, `Layout.ofTemplate` the list of strips, and `Layout.scaffold` and `Layout.grid` put together
the row actions, merges and copies and the texts at their final rows.
-/

namespace SheetTemplate

/-- What becomes of a row of a template. -/
inductive Fate
  /-- It stands at row `origin`, and copy `k` of it at row `origin + k * stride`, for every `k` up to `copies`. -/
  | placed (origin copies stride : Nat)
  /-- It goes out where it stands at row `row`. -/
  | deleted (row : Nat)
  deriving DecidableEq

/-- One row of a template with all that it adds to the sheet. -/
structure Strip where
  row : Nat
  fate : Fate
  actions : List RowAction
  areas : List Area
  styles : List (Copy Address)
  formats : List (Copy Address)
  widths : List (Copy Column)
  lines : List (Nat × Line)

namespace Strip

/-- A row that goes out. -/
def deleted (row origin : Nat) : Strip := ⟨row, .deleted origin, [.delete origin], [], [], [], [], []⟩

/-- Whether a condition over the row is not met. -/
def isRefused (leaves : Leaves) (line : Line) : Bool :=
  line.values.any fun text => (Marker.all text).any fun m => m.modifier.isRowScoped && !m.isMet leaves

/-- Whether a text has to be written even where its row is not repeated. -/
def isLive (text : String) : Bool := Marker.inText text || Formula.isFormula text

end Strip

/-! ## A row that stays -/

/-- What a row of a template consists of when it stays, wherever it comes to stand. -/
structure Expansion where
  row : Nat
  /-- The cells of the row with the copies beside it. -/
  line : Line
  widening : Option Widening
  /-- How far the merges of repeated values reach below the row. -/
  height : Nat
  stacking : Stacking

namespace Expansion

/-- The expansion of a row with its markers grounded, met inside `block`. Where nothing is repeated only what has to be written
stays. The copies across are merged like the cell, and their merges are copied down like any other. -/
def ofLine (areas : List Area) (block : Block) (row : Nat) (line : Line) (r : Repetition) : Expansion :=
  let copies := block.copies r.rows
  let line := if copies = 0 then line.filter fun _ text => Strip.isLive text else line
  let widening := Widening.ofLine? areas row line r
  let line := widening.elim line fun w => w.widen line
  let areas := areas ++ widening.elim [] fun w => w.areas row
  let height := if copies = 0 then 0 else Stacking.height areas row line
  { row, line, widening, height, stacking := Stacking.ofLine areas row line copies (block.stride (height + 1)) }

/-- The rows that come in below a row at `origin`. The first row of a block adds them for the whole block. -/
def addedRows (e : Expansion) (block : Block) (origin : Nat) : List Nat :=
  if block = .idle then List.range' (origin + e.height + 1) (e.stacking.copies * e.stacking.stride) else []

/-- The cells of the row and of its copies by row. -/
def lines (e : Expansion) (origin : Nat) : List (Nat × Line) :=
  e.stacking.lines origin ++ if e.line.isEmpty then [] else [(origin, e.line)]

/-- The strip of a row that stands at `origin`. -/
def strip (e : Expansion) (block : Block) (origin : Nat) : Strip where
  row := e.row
  fate := .placed origin e.stacking.copies e.stacking.stride
  actions := (e.addedRows block origin).map .add
  areas := (e.widening.elim [] fun w => w.areas origin) ++ e.stacking.copiedAreas origin
  styles := (e.widening.elim [] fun w => w.styles origin) ++ e.stacking.styles origin
  formats := (e.widening.elim [] fun w => w.formats origin) ++ e.stacking.formats origin
  widths := e.widening.elim [] fun w => w.columnCopies
  lines := e.lines origin

end Expansion

/-! ## The walk over a template -/

namespace Layout

/-- How far the walk over a template has moved the next row, and the block it is in. -/
structure Cursor where
  shift : Int
  block : Block
  deriving DecidableEq

/-- A row of the sheet by a number that may lie outside of it. -/
def rowAt (n : Int) : Except Error Nat :=
  if 1 ≤ n ∧ n ≤ lastRow then .ok n.toNat else .error (.rowOutOfRange n)

/-- Refuses the first row that the sheet does not have. -/
def checkRows (rows : List Nat) : Except Error Unit :=
  match rows.find? (lastRow < ·) with
  | some row => .error (.rowOutOfRange row)
  | none => .ok ()

/-- Meets one row of a template. Inside a block no row goes out. -/
def step (leaves : Leaves) (areas : List Area) (row : Nat) (line : Line) (cursor : Cursor) : Except Error (Strip × Cursor) := do
  let repetition := Repetition.ofLine leaves line
  let line := line.mapValues fun _ text => Marker.ground text
  let origin ← rowAt (row + cursor.shift)
  if cursor.block = .idle ∧ Strip.isRefused leaves line then
    .ok (Strip.deleted row origin, ⟨cursor.shift - 1, .idle⟩)
  else
    let expansion := Expansion.ofLine areas cursor.block row line repetition
    checkRows (expansion.stacking.neededRows origin)
    let (moved, block) := cursor.block.advance expansion.stacking.copies expansion.height
    .ok (expansion.strip cursor.block origin, ⟨cursor.shift + moved, block⟩)

/-- Meets rows of a template in order. -/
def walk (leaves : Leaves) (areas : List Area) (grid : Grid) : List Nat → Cursor → Except Error (List Strip × Cursor)
  | [], cursor => .ok ([], cursor)
  | row :: rest, cursor => do
    let (strip, cursor) ← step leaves areas row (grid.line row) cursor
    let (strips, cursor) ← walk leaves areas grid rest cursor
    .ok (strip :: strips, cursor)

/-- The rows of a template from the first to the last one that holds a cell or bounds a merge. -/
def usedRows (areas : List Area) (grid : Grid) : List Nat :=
  let rows := grid.keys ++ areas.flatMap fun area => [area.top, area.bottom]
  match rows.min?, rows.max? with
  | some first, some last => List.range' first (last - first + 1)
  | _, _ => []

end Layout

/-- The strips of a template in order of its rows, and how far the rows below all of them have moved. -/
structure Layout where
  strips : List Strip
  shift : Int

namespace Layout

/-- The layout of a template. There is no row 0. -/
def ofTemplate (leaves : Leaves) (areas : List Area) (grid : Grid) : Except Error Layout :=
  if grid.contains 0 then
    .error (.rowOutOfRange 0)
  else
    (walk leaves areas grid (usedRows areas grid) ⟨0, .idle⟩).map fun (strips, cursor) =>
      ⟨strips, cursor.shift + cursor.block.finish⟩

/-- What became of a row. -/
def fate? (layout : Layout) (row : Nat) : Option Fate :=
  (layout.strips.find? fun strip => strip.row = row).map (·.fate)

/-- Whether a row went out. -/
def isDeleted (layout : Layout) (row : Nat) : Bool :=
  (layout.fate? row).any fun
    | .deleted _ => true
    | .placed .. => false

/-- An area of the template at its final rows, unless all its rows went out. In place of a first row that went out stands the
row that moved up to it, in place of a last one the row above it. -/
def place? (layout : Layout) (area : Area) : Option Area :=
  if area.rows.all layout.isDeleted then
    none
  else do
    let top ←
      match ← layout.fate? area.top with
      | .placed origin _ _ => some origin
      | .deleted row => some row
    let bottom ←
      match ← layout.fate? area.bottom with
      | .placed origin _ _ => some origin
      | .deleted row => some (row - 1)
    some (area.withRows top (max bottom top))

/-- The row actions, merges and copies of a layout, for a template with the given areas. -/
def scaffold (layout : Layout) (areas : List Area) : Scaffold where
  rows := layout.strips.flatMap (·.actions)
  areas := SortedSet.ofMembers (layout.strips.flatMap (·.areas) ++ areas.filterMap layout.place?)
  styles := layout.strips.flatMap (·.styles)
  formats := layout.strips.flatMap (·.formats)
  widths := layout.strips.flatMap (·.widths)

/-- The texts of a layout at their final rows. -/
def grid (layout : Layout) : Grid := SortedMap.ofList (layout.strips.flatMap (·.lines))

end Layout
end SheetTemplate

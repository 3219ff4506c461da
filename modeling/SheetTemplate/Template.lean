import SheetTemplate.Error
import SheetTemplate.Grid
import SheetTemplate.Json

/-!
# Templates

A template is a grid of texts and a list of merged ranges. The ranges are kept as written and only read when the template is
compiled.

Templates are written as JSON and read from it by a library, which is a parameter here (`Template.Codec`): it takes care of texts, of
strings, objects and arrays, and of the two fields of a template. What is left is what templates themselves say about their rows and
columns, which keys they are written under (`Template.rows`) and how keys are read (`Grid.ofRaw`).
-/

namespace SheetTemplate

/-- A spreadsheet template. -/
structure Template where
  grid : Grid
  merges : List String
  deriving DecidableEq

namespace Template

/-- The template without cells. -/
def empty : Template := ⟨∅, []⟩

instance : Inhabited Template := ⟨empty⟩

/-- The template with a text put into a cell. -/
def put (template : Template) (cell : Address) (text : String) : Template :=
  { template with grid := template.grid.put cell text }

/-- The template with a text put into the cell that another text names. -/
def putAt (template : Template) (name text : String) : Except Error Template :=
  match Address.ofText? name with
  | some cell => .ok (template.put cell text)
  | none => .error (.cellRef name)

/-- The template with one more range, which is not read yet. -/
def merge (template : Template) (range : String) : Template :=
  { template with merges := template.merges ++ [range] }

/-- The area that a text names. -/
def area (range : String) : Except Error Area :=
  match Area.ofText? range with
  | some area => .ok area
  | none => .error (.mergeRange range)

/-- The merged areas of a template. The first range that cannot be read is the error. -/
def areas (template : Template) : Except Error (List Area) := template.merges.mapM area

end Template

/-! ## Keys of rows and columns -/

/-- The values of a sheet by the keys of rows, then by the keys of columns. -/
abbrev RawGrid : Type := SortedMap String (SortedMap String Json)

namespace Grid

/-- The row that a key names: a number with or without a plus sign, blanks around it ignored. -/
def rowOfKey? (key : String) : Option Nat :=
  match Text.trimChars key.toList with
  | '+' :: digits => Text.number? lastRow digits
  | digits => Text.number? lastRow digits

/-- The text of a cell by its value: a string as it is, `null` for no text, and anything else as `spell` writes it. -/
def textOfJson? (spell : Json → String) : Json → Option String
  | .null => none
  | .string s => some s
  | value => some (spell value)

/-- The row with values put in by the keys of their columns. -/
def putCells (spell : Json → String) (line : Line) : List (String × Json) → Except Fault Line
  | [] => .ok line
  | (key, value) :: rest =>
    match Column.ofText? key with
    | none => .error (.columnKey key)
    | some column =>
      match textOfJson? spell value with
      | none => putCells spell line rest
      | some text => putCells spell (line.insert column text) rest

/-- The grid with rows put in by their keys. -/
def putRows (spell : Json → String) (grid : Grid) : List (String × SortedMap String Json) → Except Fault Grid
  | [] => .ok grid
  | (key, cells) :: rest =>
    match rowOfKey? key with
    | none => .error (.rowKey key)
    | some row => do
      let line ← putCells spell (grid.line row) cells.entries
      putRows spell (grid.insert row line) rest

/-- The grid of values by keys. Rows and cells are taken in the order of their keys as texts. -/
def ofRaw (spell : Json → String) (raw : RawGrid) : Except Fault Grid := putRows spell ∅ raw.entries

end Grid

namespace Template

/-- The key of a row. -/
def rowKey (row : Nat) : String := String.ofList (Text.digits row)

/-- The texts of a template under the keys of their rows and columns, in the order of the grid. -/
def rows (template : Template) : List (String × List (String × String)) :=
  template.grid.entries.map fun line => (rowKey line.1, line.2.entries.map fun cell => (cell.1.text, cell.2))

/-! ## JSON -/

/-- What a JSON library does with templates. -/
structure Codec where
  /-- The text of a template with these texts by keys and these ranges. -/
  write : List (String × List (String × String)) → List String → String
  /-- Reads the template of a text, its grid as it is made of the values by keys. -/
  read : (RawGrid → Except Fault Grid) → String → Except Fault Template
  /-- The text of a value. -/
  spell : Json → String

/-- The JSON text of a template. -/
def textBy (codec : Codec) (template : Template) : String := codec.write template.rows template.merges

/-- The template of a JSON text. -/
def readBy (codec : Codec) (s : String) : Except Fault Template := codec.read (Grid.ofRaw codec.spell) s

end Template
end SheetTemplate

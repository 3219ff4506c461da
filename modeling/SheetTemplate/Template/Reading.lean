import SheetTemplate.Json.Document
import SheetTemplate.Template
import SheetTemplate.Value

/-!
# Templates and requests from JSON

The readers of templates and requests go through a document in the order of its text and stop at the first fault
(`Template.jsonCodec`, `Request.ofText`). A template is an object with the fields `values` and `mergeCells`, or an array of the
two; a request is an object that holds the fields of a template and the payload under `data`. Other fields are passed over.

A request is read as a whole before its template is looked at, so every one of its fields is held to the limits of values that
are used. Of a template by itself only the known fields are.
-/

namespace SheetTemplate

namespace Document

/-- The fault of a value that has another type than it should. A number or a string that cannot be used is a fault of its own. -/
def mismatch : Document → Fault
  | .broken => .malformed
  | .number value => if value.value?.isSome then .wrongShape else .malformed
  | .string none => .malformed
  | _ => .wrongShape

/-- A fault unless a condition holds. -/
def require (condition : Bool) (fault : Fault) : Except Fault Unit :=
  if condition then .ok () else .error fault

/-- The key of a field. -/
def key (key : Option String) : Except Fault String :=
  match key with
  | some key => .ok key
  | none => .error .malformed

/-- The value of a document that stands in `outside` arrays and objects. -/
def json (outside : Nat) (document : Document) : Except Fault Json :=
  match document.json? (maxDepth - outside) with
  | some value => .ok value
  | none => .error .malformed

/-- A string. -/
def text : Document → Except Fault String
  | .string (some value) => .ok value
  | document => .error document.mismatch

/-- The strings of an array. -/
def texts : Document → Except Fault (List String)
  | .array items closed => do
    let items ← items.mapM text
    require closed .malformed
    return items
  | document => .error document.mismatch

/-- The fields of an object, each value read by `f`. -/
def fieldsOf {α : Type} (f : Document → Except Fault α) : Document → Except Fault (List (String × α))
  | .object fields closed => do
    let fields ← fields.mapM fun field => do
      let key ← key field.1
      let value ← f field.2
      return (key, value)
    require closed .malformed
    return fields
  | document => .error document.mismatch

/-- The values of an object of rows by the keys of rows and columns. The object stands in one other object, and of several rows or
cells with one key the last counts. -/
def rawGrid (document : Document) : Except Fault RawGrid := do
  let rows ← document.fieldsOf fun row => do
    let cells ← row.fieldsOf (json 3)
    return SortedMap.ofList cells
  return SortedMap.ofList rows

end Document

/-! ## Templates -/

namespace Template

/-- The fields of a template that were met so far. -/
structure Fields where
  grid : Option Grid
  merges : Option (List String)

namespace Fields

def empty : Fields := ⟨none, none⟩

/-- Takes one more field, making the grid of the values by keys as `decode` does. A known field may not come twice, any other only has
to be JSON. -/
def take (decode : RawGrid → Except Fault Grid) (fields : Fields) (key : String) (value : Document) : Except Fault Fields :=
  if key = "values" then do
    Document.require fields.grid.isNone (.duplicateField key)
    return { fields with grid := some (← decode (← value.rawGrid)) }
  else if key = "mergeCells" then do
    Document.require fields.merges.isNone (.duplicateField key)
    return { fields with merges := some (← value.texts) }
  else do
    Document.require value.isComplete .malformed
    return fields

/-- Takes the fields of an object in order. -/
def takeAll (decode : RawGrid → Except Fault Grid) (fields : Fields) : List (Option String × Document) → Except Fault Fields
  | [] => .ok fields
  | (key, value) :: rest => do
    let key ← Document.key key
    let fields ← fields.take decode key value
    takeAll decode fields rest

/-- The template of the fields; without `mergeCells` it has no ranges. -/
def template (fields : Fields) : Except Fault Template :=
  match fields.grid with
  | none => .error (.missingField "values")
  | some grid => .ok ⟨grid, fields.merges.getD []⟩

end Fields

/-- The template of a document, its grid as `decode` makes it of the values by keys. -/
def ofDocument (decode : RawGrid → Except Fault Grid) : Document → Except Fault Template
  | .object fields closed => do
    let fields ← Fields.empty.takeAll decode fields
    Document.require closed .malformed
    fields.template
  | .array items closed =>
    match items with
    | [] => .error (if closed then .wrongShape else .malformed)
    | values :: rest => do
      let grid ← decode (← values.rawGrid)
      match rest with
      | [] => do
        Document.require closed .malformed
        return ⟨grid, []⟩
      | merges :: rest => do
        let merges ← merges.texts
        Document.require (rest.isEmpty && closed) .malformed
        return ⟨grid, merges⟩
  | document => .error document.mismatch

/-- The JSON form of texts by keys and of ranges. -/
def tree (rows : List (String × List (String × String))) (merges : List String) : Json :=
  .object [("values", .object (rows.map fun row => (row.1, .object (row.2.map fun cell => (cell.1, .string cell.2))))),
    ("mergeCells", .array (merges.map .string))]

/-- Templates as the text of their JSON form, and read from the document of a text. -/
def jsonCodec : Codec where
  write rows merges := (tree rows merges).text
  read decode s := do
    let (document, alone) := Document.read s
    let template ← ofDocument decode document
    Document.require alone .malformed
    return template
  spell := Json.text

/-- The JSON form of a template. -/
def json (template : Template) : Json := tree template.rows template.merges

/-- The template of a JSON text. -/
def ofText (s : String) : Except Fault Template := readBy jsonCodec s

end Template

/-! ## Requests -/

/-- A template with the payload to fill it. -/
structure Request where
  template : Template
  payload : Value

namespace Request

/-- The payload among the fields of an object, which may not come twice, and whether it was met. Every field is held to the
limits of values that are used. -/
def findPayload (found : Option Json) : List (Option String × Document) → Except Fault (Option Json)
  | [] => .ok found
  | (key, value) :: rest => do
    let key ← Document.key key
    if key = "data" then
      Document.require found.isNone (.duplicateField key)
    let value ← value.json 1
    findPayload (if key = "data" then some value else found) rest

/-- The request of a document. Without `data` the payload is null. -/
def ofDocument : Document → Except Fault Request
  | .object fields closed => do
    let found ← findPayload none fields
    Document.require closed .malformed
    let others ← Template.Fields.empty.takeAll (Grid.ofRaw Json.text) (fields.filter fun field => field.1 ≠ some "data")
    let template ← others.template
    return ⟨template, Value.ofJson (found.getD .null)⟩
  | document => .error document.mismatch

/-- The request of a JSON text. -/
def ofText (s : String) : Except Fault Request := do
  let (document, alone) := Document.read s
  let request ← ofDocument document
  Document.require alone .malformed
  return request

end Request

namespace Value

/-- The value of a JSON text. -/
def ofText (s : String) : Except Fault Value := do
  let (document, alone) := Document.read s
  let value ← document.json 0
  Document.require alone .malformed
  return Value.ofJson value

end Value

namespace Column

/-- The column that a JSON value names. -/
def ofJson : Json → Except Fault Column
  | .string s =>
    match ofText? s with
    | some column => .ok column
    | none => .error (.columnKey s)
  | _ => .error .wrongShape

end Column
end SheetTemplate

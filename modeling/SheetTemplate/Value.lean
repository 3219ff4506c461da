import SheetTemplate.Address
import SheetTemplate.Json
import SheetTemplate.SortedMap

/-!
# Payload values

The data that fill a template: a tree of lists and maps with scalars at its leaves. A value has a truth, for conditions, and a
text, for places inside a larger text. A callback stands for a value that only the renderer can compute, from the cell it lands
in: it has a truth, but neither a text nor a JSON form.
-/

namespace SheetTemplate

/-- A payload value. The fields of a map stand in increasing order of keys, each key once (`Value.ofFields`). -/
inductive Value
  | null
  | bool (value : Bool)
  | int (value : Int)
  | float (value : Binary64)
  | text (value : String)
  | list (items : List Value)
  | map (fields : List (String × Value))
  /-- A callback, called with the cell it lands in. -/
  | callable (call : Address → Value)

namespace Value

instance : Inhabited Value := ⟨null⟩

/-- The map of a list of fields; of several with one key the last counts. -/
def ofFields (fields : List (String × Value)) : Value :=
  .map (SortedMap.ofList fields).entries

/-- Whether a value is neither a list nor a map. -/
def isLeaf : Value → Bool
  | .list _ => false
  | .map _ => false
  | _ => true

/-- Conditions take a value as true unless it is null, `false`, zero, `""`, `"0"` or without elements. -/
def isTruthy : Value → Bool
  | .null => false
  | .bool b => b
  | .int n => n ≠ 0
  | .float x => !x.isZero
  | .text s => s ≠ "" && s ≠ "0"
  | .list items => !items.isEmpty
  | .map fields => !fields.isEmpty
  | .callable _ => true

mutual

/-- Whether a value equals itself: it does unless something that is no number stands in it. -/
def equalsItself : Value → Bool
  | .float x => !x.isNaN
  | .list items => itemsEqualThemselves items
  | .map fields => fieldsEqualThemselves fields
  | _ => true

def itemsEqualThemselves : List Value → Bool
  | [] => true
  | item :: rest => item.equalsItself && itemsEqualThemselves rest

def fieldsEqualThemselves : List (String × Value) → Bool
  | [] => true
  | (_, value) :: rest => value.equalsItself && fieldsEqualThemselves rest

end

/-! ## JSON -/

/-- The whole numbers that a value holds as such. -/
def isInt (n : Int) : Bool := -twoTo 63 ≤ n && n < twoTo 63

mutual

/-- The JSON form of a value, if no callback stands in it. A number that is not finite has the form `null`. -/
def json? : Value → Option Json
  | .null => some .null
  | .bool b => some (.bool b)
  | .int n => some (.int n)
  | .float x => some (if x.isFinite then .float x else .null)
  | .text s => some (.string s)
  | .list items => (itemsJson? items).map .array
  | .map fields => (fieldsJson? fields).map .object
  | .callable _ => none

def itemsJson? : List Value → Option (List Json)
  | [] => some []
  | item :: rest => do
    let item ← item.json?
    let items ← itemsJson? rest
    some (item :: items)

def fieldsJson? : List (String × Value) → Option (List (String × Json))
  | [] => some []
  | (key, value) :: rest => do
    let value ← value.json?
    let fields ← fieldsJson? rest
    some ((key, value) :: fields)

end

mutual

/-- The value of a JSON form. A whole number beyond the range of those becomes the nearest floating-point number. -/
def ofJson : Json → Value
  | .null => .null
  | .bool b => .bool b
  | .int n => if isInt n then .int n else .float (Binary64.ofInt n)
  | .float x => .float x
  | .string s => .text s
  | .array items => .list (itemsOfJson items)
  | .object fields => ofFields (fieldsOfJson fields)

def itemsOfJson : List Json → List Value
  | [] => []
  | item :: rest => ofJson item :: itemsOfJson rest

def fieldsOfJson : List (String × Json) → List (String × Value)
  | [] => []
  | (key, value) :: rest => (key, ofJson value) :: fieldsOfJson rest

end

/-! ## Text -/

/-- In a text numbers are written out in full, whole numbers without a fraction. -/
def floatLayout : Decimal.Layout where
  isPlain _ := true
  wholeTail := []
  tie := .up

/-- The text of a floating-point number. -/
def floatChars (x : Binary64) : List Char :=
  if x.isNaN then ['N', 'a', 'N']
  else if x.isFinite then floatLayout.chars x
  else (if x.isNegative then ['-'] else []) ++ ['i', 'n', 'f']

/-- The text that stands for a value inside a larger text; a callback has none. -/
def text? : Value → Option String
  | .null => some ""
  | .bool b => some (if b then "TRUE" else "FALSE")
  | .int n => some (String.ofList (Text.signedDigits n))
  | .float x => some (String.ofList (floatChars x))
  | .text s => some s
  | .list items => (itemsJson? items).map fun items => (Json.array items).text
  | .map fields => (fieldsJson? fields).map fun fields => (Json.object fields).text
  | .callable _ => none

end Value
end SheetTemplate

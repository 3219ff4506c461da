import SheetTemplate.Decimal

/-!
# JSON values and their spelling

A JSON value and the one text it is written as: no spaces, the fields of an object in the order in which they are held, and
only those characters of a string escaped that a reader would not take as they are.
-/

namespace SheetTemplate

/-- A JSON value. The numbers are whole numbers of 64 bits, signed or unsigned, and floating-point numbers. -/
inductive Json
  | null
  | bool (value : Bool)
  | int (value : Int)
  | float (value : Binary64)
  | string (value : String)
  | array (items : List Json)
  | object (fields : List (String × Json))

namespace Json

instance : Inhabited Json := ⟨null⟩

/-! ## Strings -/

/-- A hexadecimal digit in lower case. -/
def hexDigit (n : Nat) : Char := Nat.digitChar (n % 16)

/-- The spelling of a character in a string: a quote, a backslash and the control characters below U+0020 are escaped, the
usual ones by a letter. -/
def escape (c : Char) : List Char :=
  if c = '"' then ['\\', '"']
  else if c = '\\' then ['\\', '\\']
  else if c = '\x08' then ['\\', 'b']
  else if c = '\x0c' then ['\\', 'f']
  else if c = '\n' then ['\\', 'n']
  else if c = '\r' then ['\\', 'r']
  else if c = '\t' then ['\\', 't']
  else if c.toNat < 0x20 then ['\\', 'u', '0', '0', hexDigit (c.toNat / 16), hexDigit c.toNat]
  else [c]

/-- A string in quotes. -/
def quote (s : String) : List Char :=
  '"' :: s.toList.flatMap escape ++ ['"']

/-! ## Numbers -/

/-- Floating-point numbers are written out from 0.00001 up to 10 ^ 16, with a fraction at least `.0`. -/
def floatLayout : Decimal.Layout where
  isPlain place := -5 ≤ place && place < 16
  wholeTail := ['.', '0']
  tie := .even

/-! ## Values -/

/-- Texts one after the other with commas between them. -/
def commaSeparated : List (List Char) → List Char :=
  [','].intercalate

mutual

/-- The spelling of a value. What is no number has no spelling as one and is written as `null`. -/
def chars : Json → List Char
  | .null => ['n', 'u', 'l', 'l']
  | .bool true => ['t', 'r', 'u', 'e']
  | .bool false => ['f', 'a', 'l', 's', 'e']
  | .int n => Text.signedDigits n
  | .float x => if x.isFinite then floatLayout.chars x else ['n', 'u', 'l', 'l']
  | .string s => quote s
  | .array items => '[' :: commaSeparated (itemChars items) ++ [']']
  | .object fields => '{' :: commaSeparated (fieldChars fields) ++ ['}']

/-- The spellings of the items of an array. -/
def itemChars : List Json → List (List Char)
  | [] => []
  | item :: rest => item.chars :: itemChars rest

/-- The spellings of the fields of an object. -/
def fieldChars : List (String × Json) → List (List Char)
  | [] => []
  | (key, value) :: rest => (quote key ++ ':' :: value.chars) :: fieldChars rest

end

/-- The text of a value. -/
def text (j : Json) : String := String.ofList j.chars

end Json
end SheetTemplate

import SheetTemplate.Text

/-!
# Errors

What can be wrong with a template, its payload or a JSON text, and the message for each. A fault of a JSON text is either one
of its spelling or one of its shape; only some faults of shape have a message of their own.
-/

namespace SheetTemplate

/-- What is wrong with a JSON text. -/
inductive Fault
  /-- The text is no JSON, or more than one value, or beyond the limits of numbers and nesting. -/
  | malformed
  /-- A part of the text has another type than it should. -/
  | wrongShape
  /-- A key that should be the number of a row. -/
  | rowKey (key : String)
  /-- A key or a text that should name a column. -/
  | columnKey (key : String)
  | missingField (name : String)
  | duplicateField (name : String)
  /-- A callback has no JSON form. -/
  | callable
  deriving DecidableEq

namespace Fault

/-- Whether the fault lies in the spelling of the text and not in its shape. -/
def isMalformed (fault : Fault) : Bool := fault = .malformed

/-- The message of a fault that has one. -/
def message? : Fault → Option String
  | .malformed => none
  | .wrongShape => none
  | .rowKey key => some ("JSON: invalid row index: " ++ key)
  | .columnKey key => some ("JSON: Invalid cell reference: " ++ key)
  | .missingField name => some ("JSON: missing field `" ++ name ++ "`")
  | .duplicateField name => some ("JSON: duplicate field `" ++ name ++ "`")
  | .callable => some "JSON: callable values cannot be serialized"

end Fault

/-- Why a template cannot be compiled. -/
inductive Error
  /-- A text that should be a range of cells. -/
  | mergeRange (text : String)
  /-- A text that should name a cell or a column. -/
  | cellRef (text : String)
  /-- A callback at a path that a text of a cell refers to. -/
  | callableInText (path cell : String)
  /-- A row that the sheet does not have. -/
  | rowOutOfRange (row : Int)
  /-- A fault of a JSON text. -/
  | json (fault : Fault)
  deriving DecidableEq

namespace Error

/-- The message of an error that has one. -/
def message? : Error → Option String
  | .mergeRange text => some ("Invalid merge range: " ++ text)
  | .cellRef text => some ("Invalid cell reference: " ++ text)
  | .callableInText path cell =>
    some ("Value of [" ++ path ++ "] is callable and cannot be used as part of cell " ++ cell)
  | .rowOutOfRange row => some ("Row index out of range: " ++ String.ofList (Text.signedDigits row))
  | .json fault => fault.message?

end Error
end SheetTemplate

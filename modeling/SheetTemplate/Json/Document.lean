import SheetTemplate.Json.Numeral
import SheetTemplate.SortedMap

/-!
# JSON documents as they are read

A text is first read into a tree that always exists (`Document.read`): where the text stops being JSON, the tree ends in
`broken`, or in an array or object that is not `closed`. A reader of the tree goes through it in the order of the text, so it
meets a fault of its own (a field of the wrong kind, a repeated one) before `broken` exactly when the fault stands before the
place where the text breaks off.

The tree keeps numbers as written and strings with their code units unpaired, because a part that is skipped is held to the
grammar only, while a part that is used also needs numbers in range, paired surrogates and at most `maxDepth` arrays and objects
inside each other (`Document.json?`).
-/

namespace SheetTemplate

/-- A JSON text as far as it could be read. -/
inductive Document
  /-- The place where the text stops being JSON. -/
  | broken
  | null
  | bool (value : Bool)
  | number (value : Numeral)
  /-- A string; `none` if it holds half of a surrogate pair. -/
  | string (value : Option String)
  | array (items : List Document) (closed : Bool)
  | object (fields : List (Option String × Document)) (closed : Bool)

namespace Document

/-! ## Strings -/

/-- The value of a hexadecimal digit. -/
def hexValue? (c : Char) : Option Nat :=
  if c.isDigit then some (c.toNat - 48)
  else if 'a' ≤ c ∧ c ≤ 'f' then some (c.toNat - 87)
  else if 'A' ≤ c ∧ c ≤ 'F' then some (c.toNat - 55)
  else none

/-- The code unit of four hexadecimal digits. -/
def hexUnit? (a b c d : Char) : Option Nat := do
  some ((((← hexValue? a) * 16 + (← hexValue? b)) * 16 + (← hexValue? c)) * 16 + (← hexValue? d))

/-- The character of an escape by one letter. -/
def escaped? : Char → Option Char
  | '"' => some '"'
  | '\\' => some '\\'
  | '/' => some '/'
  | 'b' => some '\x08'
  | 'f' => some '\x0c'
  | 'n' => some '\n'
  | 'r' => some '\r'
  | 't' => some '\t'
  | _ => none

/-- The code units of a string up to its closing quote, with what follows; `none` if it is not closed, holds a control
character or an unknown escape. -/
def takeUnits : List Char → Option (List Nat × List Char)
  | [] => none
  | '"' :: rest => some ([], rest)
  | '\\' :: 'u' :: a :: b :: c :: d :: rest => do
    let unit ← hexUnit? a b c d
    let (units, rest) ← takeUnits rest
    some (unit :: units, rest)
  | '\\' :: c :: rest => do
    let c ← escaped? c
    let (units, rest) ← takeUnits rest
    some (c.toNat :: units, rest)
  | c :: rest =>
    if c = '\\' ∨ c.toNat < 0x20 then
      none
    else do
      let (units, rest) ← takeUnits rest
      some (c.toNat :: units, rest)

def isHighSurrogate (unit : Nat) : Bool := 0xD800 ≤ unit && unit < 0xDC00

def isLowSurrogate (unit : Nat) : Bool := 0xDC00 ≤ unit && unit < 0xE000

/-- The characters of code units, each pair of surrogates taken together; `none` if one of them stands alone. -/
def pairUnits : List Nat → Option (List Char)
  | [] => some []
  | unit :: rest =>
    if isHighSurrogate unit then
      match rest with
      | low :: rest =>
        if isLowSurrogate low then
          (pairUnits rest).map (Char.ofNat (0x10000 + (unit - 0xD800) * 0x400 + (low - 0xDC00)) :: ·)
        else
          none
      | [] => none
    else if isLowSurrogate unit then
      none
    else
      (pairUnits rest).map (Char.ofNat unit :: ·)

/-- The string after an opening quote, with what follows its closing quote. -/
def takeString (cs : List Char) : Option (Option String × List Char) :=
  (takeUnits cs).map fun (units, rest) => ((pairUnits units).map String.ofList, rest)

/-! ## Reading -/

/-- The characters that may stand between the parts of a document. -/
def isSpace (c : Char) : Bool := c = ' ' || c = '\t' || c = '\n' || c = '\r'

def skipSpace (cs : List Char) : List Char := cs.dropWhile isSpace

/-- A document that is one word, if its letters stand in full. -/
def word (letters : List Char) (document : Document) (cs : List Char) : Document × List Char :=
  if letters.isPrefixOf cs then (document, cs.drop letters.length) else (.broken, [])

mutual

/-- Reads one value and returns what follows it; after a broken value nothing follows. The first argument bounds the number of
steps, of which a text needs fewer than twice its length. -/
def take : Nat → List Char → Document × List Char
  | 0, _ => (.broken, [])
  | steps + 1, cs =>
    match skipSpace cs with
    | [] => (.broken, [])
    | 'n' :: rest => word ['u', 'l', 'l'] .null rest
    | 't' :: rest => word ['r', 'u', 'e'] (.bool true) rest
    | 'f' :: rest => word ['a', 'l', 's', 'e'] (.bool false) rest
    | '"' :: rest =>
      match takeString rest with
      | some (value, rest) => (.string value, rest)
      | none => (.broken, [])
    | '[' :: rest =>
      match skipSpace rest with
      | ']' :: rest => (.array [] true, rest)
      | rest =>
        let (items, closed, rest) := takeItems steps rest
        (.array items closed, rest)
    | '{' :: rest =>
      match skipSpace rest with
      | '}' :: rest => (.object [] true, rest)
      | rest =>
        let (fields, closed, rest) := takeFields steps rest
        (.object fields closed, rest)
    | c :: rest =>
      match Numeral.take? (c :: rest) with
      | some (value, rest) => (.number value, rest)
      | none => (.broken, [])

/-- Reads the items of an array from the next one on, up to the closing bracket. -/
def takeItems : Nat → List Char → List Document × Bool × List Char
  | 0, _ => ([], false, [])
  | steps + 1, cs =>
    let (item, rest) := take steps cs
    match skipSpace rest with
    | ',' :: rest =>
      let (items, closed, rest) := takeItems steps rest
      (item :: items, closed, rest)
    | ']' :: rest => ([item], true, rest)
    | _ => ([item], false, [])

/-- Reads the fields of an object from the next one on, up to the closing brace. -/
def takeFields : Nat → List Char → List (Option String × Document) × Bool × List Char
  | 0, _ => ([], false, [])
  | steps + 1, cs =>
    match skipSpace cs with
    | '"' :: rest =>
      match takeString rest with
      | none => ([], false, [])
      | some (key, rest) =>
        match skipSpace rest with
        | ':' :: rest =>
          let (value, rest) := take steps rest
          match skipSpace rest with
          | ',' :: rest =>
            let (fields, closed, rest) := takeFields steps rest
            ((key, value) :: fields, closed, rest)
          | '}' :: rest => ([(key, value)], true, rest)
          | _ => ([(key, value)], false, [])
        | _ => ([(key, .broken)], false, [])
    | _ => ([], false, [])

end

/-- Reads the value at the start of a text. The second part says whether nothing but space follows it. -/
def read (s : String) : Document × Bool :=
  let (document, rest) := take (2 * s.toList.length + 2) s.toList
  (document, (skipSpace rest).isEmpty)

/-! ## Using what was read -/

/-- How many arrays and objects may stand inside each other. -/
def maxDepth : Nat := 127

mutual

/-- Whether the text of a document is JSON by its grammar. -/
def isComplete : Document → Bool
  | .broken => false
  | .array items closed => itemsComplete items && closed
  | .object fields closed => fieldsComplete fields && closed
  | _ => true

def itemsComplete : List Document → Bool
  | [] => true
  | item :: rest => item.isComplete && itemsComplete rest

def fieldsComplete : List (Option String × Document) → Bool
  | [] => true
  | (_, value) :: rest => value.isComplete && fieldsComplete rest

end

mutual

/-- The value of a document in which `depth` more arrays and objects may be opened; `none` if its text breaks off, holds half
of a surrogate pair or a number out of range, or goes deeper. The fields of an object are sorted by key, and the last of
several with one key counts. -/
def json? (depth : Nat) : Document → Option Json
  | .broken => none
  | .null => some .null
  | .bool value => some (.bool value)
  | .number value => value.value?
  | .string value => value.map .string
  | .array items closed =>
    match depth with
    | 0 => none
    | depth + 1 => if closed then (itemsJson? depth items).map .array else none
  | .object fields closed =>
    match depth with
    | 0 => none
    | depth + 1 =>
      if closed then (fieldsJson? depth fields).map fun fields => .object (SortedMap.ofList fields).entries else none

def itemsJson? (depth : Nat) : List Document → Option (List Json)
  | [] => some []
  | item :: rest => do
    let item ← item.json? depth
    let items ← itemsJson? depth rest
    some (item :: items)

def fieldsJson? (depth : Nat) : List (Option String × Document) → Option (List (String × Json))
  | [] => some []
  | (key, value) :: rest => do
    let key ← key
    let value ← value.json? depth
    let fields ← fieldsJson? depth rest
    some ((key, value) :: fields)

end

end Document
end SheetTemplate

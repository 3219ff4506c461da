import SheetTemplate.Path
import SheetTemplate.Value

/-!
# The leaves of a payload

A payload is looked up by the texts of paths: each leaf under the keys and positions that lead to it, with dots between them.
`Leaves` holds the leaves in order of these texts, beside an index of the texts that lead towards a leaf. Lists and maps without
elements have no leaves and leave no trace. Keys may hold dots themselves; where two leaves come under one text, the later in
the order of the payload counts.
-/

namespace SheetTemplate

/-- The leaves of a payload by path, with every part of a path before one of its dots. -/
structure Leaves where
  entries : SortedMap String Value
  inner : SortedSet String

namespace Leaves

/-- No leaves. -/
def empty : Leaves := ⟨∅, ∅⟩

/-! ## From a payload to its leaves -/

mutual

/-- The leaves of a value that stands at a path, in the order of the payload. -/
def under (path : String) : Value → List (String × Value)
  | .map fields => underFields path fields
  | .list items => underItems path 0 items
  | leaf => [(path, leaf)]

def underFields (path : String) : List (String × Value) → List (String × Value)
  | [] => []
  | (key, value) :: rest => under (path ++ "." ++ key) value ++ underFields path rest

def underItems (path : String) (position : Nat) : List Value → List (String × Value)
  | [] => []
  | item :: rest =>
    under (path ++ "." ++ String.ofList (Text.digits position)) item ++ underItems path (position + 1) rest

end

/-- The leaves of a payload in its order. A payload that is a leaf itself has no path and so no leaves. -/
def listed : Value → List (String × Value)
  | .map fields => fields.flatMap fun field => under field.1 field.2
  | .list items => items.zipIdx.flatMap fun item => under (String.ofList (Text.digits item.2)) item.1
  | _ => []

/-- The parts of a text that end before one of its dots. -/
def partsBeforeDots (s : String) : List String :=
  let segments := (Path.ofText s).segments
  (List.range' 1 (segments.length - 1)).map fun count => (Path.mk (segments.take count)).text

/-- The leaves with one more. -/
def insert (leaves : Leaves) (path : String) (value : Value) : Leaves where
  entries := leaves.entries.insert path value
  inner := (partsBeforeDots path).foldl SortedSet.add leaves.inner

/-- The leaves of a payload. -/
def ofValue (payload : Value) : Leaves :=
  (listed payload).foldl (fun leaves leaf => leaves.insert leaf.1 leaf.2) empty

/-! ## Questions -/

/-- The leaf at a path. -/
def get? (leaves : Leaves) (path : String) : Option Value := leaves.entries.get? path

/-- Whether there is a leaf at a path. -/
def contains (leaves : Leaves) (path : String) : Bool := leaves.entries.contains path

/-- Whether there is a leaf at a path or below it. -/
def reaches (leaves : Leaves) (path : String) : Bool :=
  leaves.contains path || leaves.inner.contains path

/-- The leaves below a path. Their paths follow each other in the order of texts. -/
def below (leaves : Leaves) (path : String) : List (String × Value) :=
  let start := path ++ "."
  (leaves.entries.entries.dropWhile fun e => compare e.1 start == .lt).takeWhile fun e =>
    start.toList.isPrefixOf e.1.toList

/-- Whether the leaf at a path or one below it is true. -/
def isSet (leaves : Leaves) (path : String) : Bool :=
  (leaves.get? path).any Value.isTruthy || (leaves.below path).any fun e => e.2.isTruthy

/-- The number of leaves. -/
def size (leaves : Leaves) : Nat := leaves.entries.size

/-- The largest number of segments of a path to a leaf. -/
def depth (leaves : Leaves) : Nat :=
  leaves.entries.keys.foldl (fun most path => max most (Path.ofText path).segments.length) 0

/-! ## Siblings -/

/-- The number of elements that follow a path along a direction: of the paths one, two and more steps further, as many as name
leaves without a gap. There cannot be more of them than leaves. -/
def siblings (leaves : Leaves) (direction : Path.Direction) (path : Path) : Nat :=
  ((List.range' 1 leaves.size).takeWhile fun step =>
    (path.advance? direction step).any fun next => leaves.contains next.text).length

end Leaves
end SheetTemplate

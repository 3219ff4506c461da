import SheetTemplate.Marker

/-!
# Resolution of short paths

A template may leave out the positions of a path and write `items.sku` for the field `sku` of every element of `items`. Such a
path is resolved to the leaf that it names in the first element of every list on the way, and written with a wildcard for each
of these positions: `items.*.sku`. A path that is a leaf already, or leads to none, stays as it is.
-/

namespace SheetTemplate
namespace Leaves

/-- Whether segments name a leaf. -/
def isLeafAt (leaves : Leaves) (segments : List String) : Bool := leaves.contains (Path.mk segments).text

/-- Whether a leaf stands at the place that one more segment names, or below it. From a place without a text, as the top of
the payload is, the segment is looked up by itself. -/
def reachesBy (leaves : Leaves) (found : List String) (segment : String) : Bool :=
  let here := (Path.mk found).text
  leaves.reaches (if here = "" then segment else here ++ "." ++ segment)

/-- Steps into first elements from the place that `found` names, up to a leaf or as far as there are any, at most `steps` deep. -/
def descend (leaves : Leaves) (steps : Nat) (found : List String) : List String :=
  match steps with
  | 0 => found
  | steps + 1 =>
    if found ≠ [] ∧ !leaves.isLeafAt found ∧ leaves.reachesBy found "0" then
      descend leaves steps (found ++ ["0"])
    else
      found

/-- Follows segments from the place that `found` names. A segment that leads nowhere is skipped, after each one the first
elements are taken, and nothing is followed beyond a leaf. No path to a leaf is longer than the depth of the payload, so the
descent is never cut short. -/
def follow (leaves : Leaves) (found : List String) : List String → List String
  | [] => found
  | segment :: rest =>
    let here := if leaves.reachesBy found segment then found ++ [segment] else found
    let here := leaves.descend leaves.depth here
    if here ≠ [] ∧ leaves.isLeafAt here then here else follow leaves here rest

/-- The path with wildcards that a short path stands for, if it is not a leaf itself and leads to one by another path. -/
def resolve? (leaves : Leaves) (path : Path) : Option Path :=
  if leaves.contains path.text then
    none
  else
    let found := leaves.follow [] path.segments
    let long := (Path.mk found).generalized
    if leaves.isLeafAt found ∧ long ≠ path then some long else none

end Leaves

namespace Marker

/-- The text with the short paths of its markers resolved. -/
def resolve (leaves : Leaves) (s : String) : String := mapPaths leaves.resolve? s

end Marker
end SheetTemplate

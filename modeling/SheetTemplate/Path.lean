import SheetTemplate.Text

/-!
# Data paths

A path names a place in the payload by segments with dots between them: keys, positions in lists written in decimal digits, and
the wildcard `*`, which stands for a position that repetition will fill in. A text and its segments determine each other as
long as no segment holds a dot (`Path.text_ofText`, `Path.ofText_text`), so a path can be held as its segments.
-/

namespace SheetTemplate

/-- A path by its segments. Without any it is the place of the payload itself, whose text is empty. -/
structure Path where
  segments : List String
  deriving DecidableEq

namespace Path

/-! ## Texts of paths -/

/-- The path that characters spell: its segments are the runs between dots. -/
def ofChars (cs : List Char) : Path := ⟨(cs.splitOn '.').map String.ofList⟩

/-- The path that a text spells. -/
def ofText (s : String) : Path := ofChars s.toList

/-- The characters of a path, its segments with dots between them. -/
def chars (p : Path) : List Char := ['.'].intercalate (p.segments.map String.toList)

/-- The text of a path. -/
def text (p : Path) : String := String.ofList p.chars

theorem chars_ofChars (cs : List Char) : (ofChars cs).chars = cs := by
  simp [chars, ofChars, List.map_map, Function.comp_def, List.intercalate_splitOn]

@[simp] theorem text_ofText (s : String) : (ofText s).text = s := by
  simp [text, ofText, chars_ofChars]

/-- A path whose segments hold no dot is read back from its text. -/
theorem ofText_text {p : Path} (hne : p.segments ≠ []) (hdot : ∀ s ∈ p.segments, '.' ∉ s.toList) : ofText p.text = p := by
  have hs : (p.segments.map String.toList).map String.ofList = p.segments := by simp [List.map_map, Function.comp_def]
  have hl : ∀ l ∈ p.segments.map String.toList, '.' ∉ l := fun l hl => by
    obtain ⟨s, hs, rfl⟩ := List.mem_map.1 hl
    exact hdot s hs
  simp only [ofText, ofChars, text, chars, String.toList_ofList]
  rw [List.splitOn_intercalate '.' hl (by simpa using hne), hs]

/-! ## Wildcards -/

/-- The segment that stands for any position. -/
def wildcard : String := "*"

/-- The path of the first element: every wildcard read as position 0. -/
def grounded (p : Path) : Path :=
  ⟨p.segments.map fun s => if s = wildcard then "0" else s⟩

/-- Whether one of the segments is a wildcard. -/
def hasWildcard (p : Path) : Bool := p.segments.contains wildcard

/-- No wildcard is left in the path of the first element. -/
theorem hasWildcard_grounded (p : Path) : p.grounded.hasWildcard = false := by
  rw [hasWildcard, grounded, Bool.eq_false_iff]
  intro h
  obtain ⟨s, -, hs⟩ := List.mem_map.1 (List.contains_iff_mem.1 h)
  split at hs
  · exact absurd hs (by decide)
  · exact ‹¬_› hs

theorem grounded_of_not_hasWildcard {p : Path} (h : p.hasWildcard = false) : p.grounded = p := by
  obtain ⟨segments⟩ := p
  rw [grounded, Path.mk.injEq]
  refine (List.map_congr_left fun s hs => ?_).trans (List.map_id _)
  rw [if_neg]
  · rfl
  · intro e
    subst e
    rw [hasWildcard, List.contains_iff_mem.2 hs] at h
    cases h

/-- The path with a wildcard for every position 0 below the first segment. -/
def generalized (p : Path) : Path :=
  match p.segments with
  | [] => p
  | root :: below => ⟨root :: below.map fun s => if s = "0" then wildcard else s⟩

/-! ## Positions -/

/-- Whether a segment is a position in a list. -/
def isPosition (segment : String) : Bool :=
  segment ≠ "" && segment.toList.all Char.isDigit

/-- Whether a path goes through a list. -/
def hasPosition (p : Path) : Bool := p.segments.any isPosition

/-- The two directions in which an element repeats. -/
inductive Direction
  /-- Down the rows, along the first position of a path. -/
  | down
  /-- Across the columns, along the last position of a path that has more than one. -/
  | across
  deriving DecidableEq

/-- The places in a path at which positions stand. -/
def positionPlaces (p : Path) : List Nat :=
  (p.segments.zipIdx.filter fun s => isPosition s.1).map (·.2)

/-- The place in a path of the position along a direction. -/
def place? (p : Path) : Direction → Option Nat
  | .down => p.positionPlaces.head?
  | .across => if 2 ≤ p.positionPlaces.length then p.positionPlaces.getLast? else none

/-- The largest position. -/
def lastPosition : Nat := 18446744073709551615

/-- The path `step` elements further along a direction, if it has a position there and that does not pass the last one. -/
def advance? (p : Path) (direction : Direction) (step : Nat) : Option Path := do
  let place ← p.place? direction
  let segment ← p.segments[place]?
  let position ← Text.number? lastPosition segment.toList
  if position + step ≤ lastPosition then
    some ⟨p.segments.set place (String.ofList (Text.digits (position + step)))⟩
  else
    none

end Path
end SheetTemplate

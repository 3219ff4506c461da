import SheetTemplate.Leaves

/-!
# Markers

A marker is a path in brackets inside a cell text: `[path]` stands for a value, `[=path]` and `[!path]` keep the row only if the
path is set or not set, `[$=path]` and `[$!path]` do the same for the cell alone. Blanks may follow the sign. Everything else in
brackets is plain text.

A text is taken apart into `Piece`s, its markers and the letters between them (`Marker.pieces`), and put together again from
their characters. A marker holds no opening bracket behind its first character, so no marker begins inside another, and taking
apart what was put together gives the same pieces.
-/

namespace SheetTemplate

/-- What a marker does. -/
inductive Modifier
  /-- `[path]` stands for a value. -/
  | value
  /-- `[=path]` deletes the row unless the path is set. -/
  | rowIf
  /-- `[!path]` deletes the row if the path is set. -/
  | rowUnless
  /-- `[$=path]` clears the cell unless the path is set. -/
  | cellIf
  /-- `[$!path]` clears the cell if the path is set. -/
  | cellUnless
  deriving DecidableEq

namespace Modifier

/-- The sign that a modifier is written with. -/
def sign : Modifier → List Char
  | .value => []
  | .rowIf => ['=']
  | .rowUnless => ['!']
  | .cellIf => ['$', '=']
  | .cellUnless => ['$', '!']

/-- The modifier that a text begins with. -/
def ofStart : List Char → Modifier
  | '$' :: '!' :: _ => .cellUnless
  | '$' :: '=' :: _ => .cellIf
  | '!' :: _ => .rowUnless
  | '=' :: _ => .rowIf
  | _ => .value

theorem eq_sign_append_drop (cs : List Char) : cs = (ofStart cs).sign ++ cs.drop (ofStart cs).sign.length := by
  unfold ofStart
  split <;> rfl

def isConditional (m : Modifier) : Bool := m ≠ .value

/-- Whether a condition decides over its row. -/
def isRowScoped : Modifier → Bool
  | .rowIf | .rowUnless => true
  | _ => false

/-- Whether a condition decides over its cell alone. -/
def isCellScoped : Modifier → Bool
  | .cellIf | .cellUnless => true
  | _ => false

end Modifier

/-- A marker: what it does, the blanks behind its sign, and its path. -/
structure Marker where
  modifier : Modifier
  gap : List Char
  path : Path
  deriving DecidableEq

namespace Marker

/-! ## Spelling -/

/-- What stands between the opening bracket and the path. -/
def lead (m : Marker) : List Char := m.modifier.sign ++ m.gap

/-- The characters of a marker. -/
def chars (m : Marker) : List Char := '[' :: m.lead ++ m.path.chars ++ [']']

/-- The same marker with another path. -/
def withPath (m : Marker) (path : Path) : Marker := { m with path }

/-! ## Recognition -/

/-- The blanks that may follow the sign of a condition. -/
def isGap (c : Char) : Bool := c = ' ' || c = '\t' || c = '\n' || c = '\x0c' || c = '\r'

/-- The characters of path segments, which are ASCII letters and digits and the underscore. -/
def isNameChar (c : Char) : Bool := c.isAlphanum || c = '_'

/-- The characters of paths. -/
def isPathChar (c : Char) : Bool := isNameChar c || c = '.' || c = '*'

/-- Whether a segment can stand in a marker: a wildcard, or a name of at least one character. -/
def isSegment (segment : String) : Bool :=
  segment = Path.wildcard || (segment ≠ "" && segment.toList.all isNameChar)

/-- Whether a path can stand in a marker: it begins with a letter and all its segments can stand there. -/
def admits (path : Path) : Bool :=
  (path.chars.head?.any Char.isAlpha) && path.segments.all isSegment

/-- The marker at the start of a text. -/
def atStart? : List Char → Option Marker
  | '[' :: body =>
    let modifier := Modifier.ofStart body
    let body := body.drop modifier.sign.length
    let gap := if modifier.isConditional then body.takeWhile isGap else []
    let body := body.drop gap.length
    let name := body.takeWhile isPathChar
    let path := Path.ofChars name
    if (body.drop name.length).head? = some ']' ∧ admits path then some ⟨modifier, gap, path⟩ else none
  | _ => none

/-- A marker is spelled at the start of the text in which it is found. -/
theorem chars_prefix_of_atStart? {cs : List Char} {m : Marker} (h : atStart? cs = some m) :
    cs = m.chars ++ cs.drop m.chars.length := by
  unfold atStart? at h
  split at h
  · rename_i body
    simp only at h
    generalize hs : Modifier.ofStart body = modifier at h
    have hbody := Modifier.eq_sign_append_drop body
    rw [hs] at hbody
    generalize body.drop modifier.sign.length = afterSign at h hbody
    generalize hg : (if modifier.isConditional then afterSign.takeWhile isGap else []) = gap at h
    have hgap : afterSign = gap ++ afterSign.drop gap.length := by
      subst hg
      split
      · exact Text.takeWhile_append_drop _ _
      · rfl
    generalize afterSign.drop gap.length = afterGap at h hgap
    have hname := Text.takeWhile_append_drop isPathChar afterGap
    generalize hn : afterGap.takeWhile isPathChar = name at h hname
    split at h
    · rename_i hc
      obtain ⟨hclose, -⟩ := hc
      cases h
      obtain ⟨rest, hrest⟩ : ∃ rest, afterGap.drop name.length = ']' :: rest := by
        cases hd : afterGap.drop name.length with
        | nil => simp [hd] at hclose
        | cons c rest => exact ⟨rest, by simpa [hd] using hclose⟩
      have hspell : '[' :: body = chars ⟨modifier, gap, Path.ofChars name⟩ ++ rest := by
        rw [hbody, hgap, hname, hrest]
        simp [chars, lead, Path.chars_ofChars]
      rw [hspell, List.drop_left]
    · cases h
  · cases h

end Marker

/-! ## Pieces of a text -/

/-- A part of a text: a marker, or a letter outside of all markers. -/
inductive Piece
  | letter (c : Char)
  | marker (m : Marker)
  deriving DecidableEq

namespace Piece

/-- The characters of a piece. -/
def chars : Piece → List Char
  | .letter c => [c]
  | .marker m => m.chars

/-- The marker that a piece is. -/
def marker? : Piece → Option Marker
  | .letter _ => none
  | .marker m => some m

/-- The pieces of a text of which the first `covered` characters belong to a marker that was already taken. -/
def scan : List Char → Nat → List Piece
  | [], _ => []
  | _ :: rest, covered + 1 => scan rest covered
  | c :: rest, 0 =>
    match Marker.atStart? (c :: rest) with
    | some m => .marker m :: scan rest (m.chars.length - 1)
    | none => .letter c :: scan rest 0

theorem flatMap_chars_scan (cs : List Char) (covered : Nat) : (scan cs covered).flatMap chars = cs.drop covered := by
  induction cs generalizing covered with
  | nil => simp [scan]
  | cons c rest ih =>
    match covered with
    | covered + 1 => simpa [scan] using ih covered
    | 0 =>
      simp only [scan, List.drop_zero]
      split
      · rename_i m hm
        have hp := Marker.chars_prefix_of_atStart? hm
        have hl : m.chars.length = m.chars.length - 1 + 1 := by simp [Marker.chars]
        rw [hl, List.drop_succ_cons] at hp
        simp only [List.flatMap_cons, ih, chars]
        exact hp.symm
      · simp [ih, chars]

/-- The pieces of a text. -/
def ofText (s : String) : List Piece := scan s.toList 0

/-- The text that pieces make up. -/
def join (pieces : List Piece) : String := String.ofList (pieces.flatMap chars)

@[simp] theorem join_ofText (s : String) : join (ofText s) = s := by
  simp [join, ofText, flatMap_chars_scan]

end Piece

namespace Marker

/-! ## The markers of a text -/

/-- The markers of a text from left to right. -/
def all (s : String) : List Marker := (Piece.ofText s).filterMap Piece.marker?

/-- The markers among pieces with the positions at which they start, the first piece at `start`. Positions count bytes of
UTF-8. -/
def placesFrom (start : Nat) : List Piece → List (Nat × Marker)
  | [] => []
  | .letter c :: rest => placesFrom (start + c.utf8Size) rest
  | .marker m :: rest => (start, m) :: placesFrom (start + Text.width m.chars) rest

/-- The markers of a text with the positions at which they start. -/
def places (s : String) : List (Nat × Marker) := placesFrom 0 (Piece.ofText s)

/-- The number of bytes that a marker takes. -/
def width (m : Marker) : Nat := Text.width m.chars

/-- Whether a text holds a marker. -/
def inText (s : String) : Bool := !(all s).isEmpty

/-- Whether a text holds a marker that stands for a value. -/
def valueInText (s : String) : Bool := (all s).any fun m => m.modifier = .value

/-- The marker that a text consists of. -/
def whole? (s : String) : Option Marker :=
  (atStart? s.toList).filter fun m => m.chars = s.toList

/-! ## Replacement -/

/-- The text with each marker replaced by the text that `f` gives for it, or kept where it gives none. The first error of `f`
is the result. -/
def tryReplace {ε : Type} (f : Marker → Except ε (Option String)) (s : String) : Except ε String := do
  let parts ← (Piece.ofText s).mapM fun
    | .letter c => .ok [c]
    | .marker m => do
      match ← f m with
      | some replacement => .ok replacement.toList
      | none => .ok m.chars
  return String.ofList parts.flatten

/-- The text with each marker replaced by the text that `f` gives for it, or kept where it gives none. -/
def replace (f : Marker → Option String) (s : String) : String :=
  String.ofList <| (Piece.ofText s).flatMap fun
    | .letter c => [c]
    | .marker m => ((f m).map String.toList).getD m.chars

/-- The text with the path of each marker replaced by the one that `f` gives for it, or kept where it gives none. -/
def mapPaths (f : Path → Option Path) (s : String) : String :=
  replace (fun m => (f m.path).map fun path => String.ofList (m.withPath path).chars) s

/-- The text with every wildcard of its markers read as position 0. -/
def ground (s : String) : String :=
  mapPaths (fun path => if path.hasWildcard then some path.grounded else none) s

/-- The text with its markers `step` elements further along a direction, where they have a position there. -/
def advance (direction : Path.Direction) (step : Nat) (s : String) : String :=
  mapPaths (fun path => path.advance? direction step) s

/-! ## Conditions -/

/-- Whether a marker lets its row or cell through. One that stands for a value always does. -/
def isMet (leaves : Leaves) (m : Marker) : Bool :=
  match m.modifier with
  | .value => true
  | .rowIf | .cellIf => leaves.isSet m.path.text
  | .rowUnless | .cellUnless => !leaves.isSet m.path.text

end Marker
end SheetTemplate

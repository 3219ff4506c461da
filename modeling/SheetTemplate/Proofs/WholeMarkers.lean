import SheetTemplate.Layout
import SheetTemplate.Proofs.MarkerScan
import SheetTemplate.Resolution
import SheetTemplate.Substitution

/-!
# Texts that are one marker

A text that consists of one marker for a value stays one through every step, and holds the value of its path in the end
(`value_text`), or clears its cell where the path has none.
-/

namespace SheetTemplate
namespace Marker

/-- The marker for the value at a path. -/
def ofPath (path : Path) : Marker := ⟨.value, [], path⟩

/-- The text that is a marker. -/
def text (m : Marker) : String := String.ofList m.chars

theorem proper_ofPath {path : Path} (h : admits path = true) : (ofPath path).Proper :=
  ⟨fun _ hmem => absurd hmem List.not_mem_nil, fun _ => rfl, h⟩

variable {m : Marker}

theorem Proper.ofText_text (h : m.Proper) : Piece.ofText m.text = [.marker m] := by
  have hscan := Piece.scan_marker h []
  rw [List.append_nil] at hscan
  rw [Piece.ofText, text, String.toList_ofList, hscan]
  rfl

theorem Proper.all_text (h : m.Proper) : all m.text = [m] := by
  rw [all, h.ofText_text]
  rfl

theorem Proper.whole?_text (h : m.Proper) : whole? m.text = some m := whole?_eq_some_iff.2 ⟨h, by rw [text, String.toList_ofList]⟩

/-- Replacing paths makes another marker of a marker. -/
theorem Proper.mapPaths_text (h : m.Proper) (f : Path → Option Path) :
    mapPaths f m.text = (m.withPath ((f m.path).getD m.path)).text := by
  rw [mapPaths_eq_join, h.ofText_text, Piece.join, List.map_singleton, List.flatMap_singleton]
  rfl

/-- A marker for a value stays one with its wildcards read as position 0. -/
theorem ground_text_ofPath {path : Path} (h : admits path = true) : ground (ofPath path).text = (ofPath path.grounded).text := by
  rw [ground, (proper_ofPath h).mapPaths_text]
  change (ofPath ((if path.hasWildcard then some path.grounded else none).getD path)).text = _
  cases hwildcard : path.hasWildcard with
  | true => rfl
  | false => simp only [Bool.false_eq_true, if_false, Option.getD_none, Path.grounded_of_not_hasWildcard hwildcard]

/-- A marker for a value some elements further along a direction. -/
theorem advance_text_ofPath {path next : Path} {direction : Path.Direction} {step : Nat} (h : admits path = true)
    (hnext : path.advance? direction step = some next) : advance direction step (ofPath path).text = (ofPath next).text := by
  rw [advance, (proper_ofPath h).mapPaths_text]
  change (ofPath ((path.advance? direction step).getD path)).text = _
  rw [hnext, Option.getD_some]

/-- A marker for a value is left alone by resolution if its path is. -/
theorem resolve_text_ofPath {leaves : Leaves} {path : Path} (h : admits path = true) (hresolve : leaves.resolve? path = none) :
    resolve leaves (ofPath path).text = (ofPath path).text := by
  rw [resolve, (proper_ofPath h).mapPaths_text]
  change (ofPath ((leaves.resolve? path).getD path)).text = _
  rw [hresolve, Option.getD_none]

/-- A marker is no formula. -/
theorem isFormula_text (m : Marker) : Formula.isFormula m.text = false := by
  rw [Formula.isFormula, text, String.toList_ofList]
  rfl

theorem valueInText_text_ofPath {path : Path} (h : admits path = true) : valueInText (ofPath path).text = true := by
  rw [valueInText, (proper_ofPath h).all_text]
  rfl

/-- No blanks stand around a marker. -/
theorem trim_text (m : Marker) : Text.trim m.text = m.text := by
  have hfirst : ∀ c ∈ m.chars.head?, Text.isBlank c = false := by
    intro c hc
    obtain rfl : '[' = c := Option.some.inj hc
    decide
  have hlast : ∀ c ∈ m.chars.getLast?, Text.isBlank c = false := by
    intro c hc
    rw [chars, List.getLast?_append, List.getLast?_singleton] at hc
    obtain rfl : ']' = c := Option.some.inj hc
    decide
  rw [Text.trim, text, String.toList_ofList, Text.trimChars_eq_self hfirst hlast]

variable {leaves : Leaves} {path : Path}

/-- A cell with a marker for a value holds the value of the path, and is cleared where there is none. -/
theorem value_text_ofPath (h : admits path = true) (cell : Address) :
    Substitution.value leaves cell (ofPath path).text = .ok ((leaves.get? path.text).bind Substitution.taken?) := by
  have hproper := proper_ofPath h
  have hcleared : Substitution.isCleared leaves (ofPath path).text = false := by
    rw [Substitution.isCleared, hproper.all_text]
    rfl
  have hstripped : Substitution.stripped (ofPath path).text = (ofPath path).text := by
    have hreplace : replace (fun m => if m.modifier.isConditional then some "" else none) (ofPath path).text = (ofPath path).text := by
      rw [replace, hproper.ofText_text, List.flatMap_singleton]
      rfl
    rw [Substitution.stripped, hreplace, trim_text]
  rw [Substitution.value, hcleared, hstripped]
  have hpath : (ofPath path).path = path := rfl
  simp only [Bool.false_eq_true, if_false, hproper.whole?_text, Option.bind_some, hpath]
  cases hget : leaves.get? path.text with
  | some value => rfl
  | none =>
    have hspliced : Substitution.spliced leaves cell (ofPath path) = .ok (some "") := by
      rw [Substitution.spliced, hpath, hget]
    have hreplaced : tryReplace (Substitution.spliced leaves cell) (ofPath path).text = .ok "" := by
      rw [tryReplace, hproper.ofText_text, List.mapM_cons]
      simp only [hspliced]
      rfl
    simp only [hreplaced]
    rfl

end Marker
end SheetTemplate

import SheetTemplate.Layout
import SheetTemplate.Proofs.MarkerScan
import SheetTemplate.Resolution
import SheetTemplate.Substitution

/-!
# Conditions in front of texts

A condition over a cell is written in front of its text (`Marker.before`). Where it is met, and reads the same wherever the cell comes
to stand (`Marker.Settled`), every step that takes markers apart treats the text behind it as it would without the condition: short
paths are resolved, wildcards grounded and positions advanced, and the cell has the value of the text (`value_before`). The text
is no formula any more.

The same is said of the cells of a row: `Line.guarded` puts the condition in front of some of them, and what is made of the row has
it in front of what is made of these.
-/

namespace SheetTemplate
namespace Marker

/-- The text with a marker in front. -/
def before (m : Marker) (s : String) : String := String.ofList (m.chars ++ s.toList)

/-- A condition over its cell that is met, and whose path is not changed by resolution or by any copy. -/
structure Settled (leaves : Leaves) (m : Marker) : Prop where
  proper : m.Proper
  cell_scoped : m.modifier.isCellScoped = true
  met : m.isMet leaves = true
  resolved : leaves.resolve? m.path = none
  no_wildcard : m.path.hasWildcard = false
  no_position : m.path.hasPosition = false

/-- A path without positions does not advance. -/
theorem advance?_of_not_hasPosition {p : Path} (h : p.hasPosition = false) (direction : Path.Direction) (step : Nat) :
    p.advance? direction step = none := by
  have hplaces : p.positionPlaces = [] := by
    rw [Path.positionPlaces, List.map_eq_nil_iff, List.filter_eq_nil_iff]
    rintro ⟨segment, place⟩ hmem hposition
    have hsegment := List.any_eq_false.1 h segment (List.fst_mem_of_mem_zipIdx hmem)
    exact hsegment hposition
  have hplace : p.place? direction = none := by
    cases direction <;> simp [Path.place?, hplaces]
  rw [Path.advance?, hplace]
  rfl

variable {leaves : Leaves} {m : Marker}

/-- The marker in front is the first piece of the text. -/
theorem Proper.ofText_before (h : m.Proper) (s : String) : Piece.ofText (m.before s) = .marker m :: Piece.ofText s := by
  rw [Piece.ofText, before, String.toList_ofList, Piece.scan_marker h]
  rfl

theorem Proper.all_before (h : m.Proper) (s : String) : all (m.before s) = m :: all s := by
  rw [all, h.ofText_before]
  rfl

/-- The paths behind a marker in front are replaced as they are without it. -/
theorem Proper.mapPaths_before (h : m.Proper) {f : Path → Option Path} (hf : f m.path = none) (s : String) :
    mapPaths f (m.before s) = m.before (mapPaths f s) := by
  rw [mapPaths, replace, h.ofText_before, List.flatMap_cons]
  simp only [hf, Option.map_none, Option.getD_none]
  rw [before, mapPaths, replace, String.toList_ofList]

theorem Settled.resolve_before (h : m.Settled leaves) (s : String) : resolve leaves (m.before s) = m.before (resolve leaves s) :=
  h.proper.mapPaths_before h.resolved s

theorem Settled.ground_before (h : m.Settled leaves) (s : String) : ground (m.before s) = m.before (ground s) :=
  h.proper.mapPaths_before (by rw [h.no_wildcard]; rfl) s

theorem Settled.advance_before (h : m.Settled leaves) (direction : Path.Direction) (step : Nat) (s : String) :
    advance direction step (m.before s) = m.before (advance direction step s) :=
  h.proper.mapPaths_before (advance?_of_not_hasPosition h.no_position direction step) s

/-- A condition over a cell stands for no value and decides over no row. -/
theorem Settled.modifier_ne (h : m.Settled leaves) : m.modifier ≠ .value ∧ m.modifier.isRowScoped = false := by
  have hscoped := h.cell_scoped
  revert hscoped
  cases m.modifier <;> decide

theorem Settled.valueInText_before (h : m.Settled leaves) (s : String) : valueInText (m.before s) = valueInText s := by
  rw [valueInText, h.proper.all_before, List.any_cons, decide_eq_false h.modifier_ne.1, Bool.false_or]
  rfl

theorem Settled.isLive_before (h : m.Settled leaves) (s : String) : Strip.isLive (m.before s) = true := by
  rw [Strip.isLive, inText, h.proper.all_before]
  rfl

/-- A text behind a condition is no formula. -/
theorem isFormula_before (m : Marker) (s : String) : Formula.isFormula (m.before s) = false := by
  rw [Formula.isFormula, before, String.toList_ofList]
  rfl

/-- A formula is one whatever the paths of its markers are. -/
theorem isFormula_mapPaths (f : Path → Option Path) {s : String} (h : Formula.isFormula s = true) :
    Formula.isFormula (mapPaths f s) = true := by
  rw [Formula.isFormula] at h
  split at h
  · rename_i c rest hs
    have hbracket : c ≠ '[' := by
      rintro rfl
      revert h
      decide
    have hpieces : Piece.ofText s = .letter '=' :: .letter c :: Piece.scan rest 0 := by
      rw [Piece.ofText, hs, Piece.scan]
      simp only [atStart?_of_ne (show '=' ≠ '[' by decide)]
      rw [Piece.scan]
      simp only [atStart?_of_ne hbracket]
    rw [Formula.isFormula, mapPaths, replace, hpieces, String.toList_ofList]
    exact h
  · cases h

/-- A cell has the value that it has without a condition in front that is met. -/
theorem Settled.value_before (h : m.Settled leaves) (cell : Address) (s : String) :
    Substitution.value leaves cell (m.before s) = Substitution.value leaves cell s := by
  have hcleared : Substitution.isCleared leaves (m.before s) = Substitution.isCleared leaves s := by
    rw [Substitution.isCleared, h.proper.all_before, List.any_cons, h.met, Bool.not_true, Bool.and_false, Bool.false_or]
    rfl
  have hconditional : m.modifier.isConditional = true := by simp [Modifier.isConditional, h.modifier_ne.1]
  have hstripped : Substitution.stripped (m.before s) = Substitution.stripped s := by
    rw [Substitution.stripped, replace, h.proper.ofText_before, List.flatMap_cons]
    simp only [hconditional, if_true, Option.map_some, Option.getD_some]
    rfl
  rw [Substitution.value, hcleared, hstripped]
  rfl

end Marker

/-! ## Rows -/

namespace Line

/-- The row with a marker in front of the texts in some of its columns. -/
def guarded (m : Marker) (cells : Column → Bool) (line : Line) : Line :=
  line.mapValues fun column text => if cells column then m.before text else text

variable {leaves : Leaves} {m : Marker} {cells : Column → Bool}

/-- What is made of every text behind the marker is made behind the marker. -/
theorem mapValues_guarded {f : String → String} (hf : ∀ s, f (m.before s) = m.before (f s)) (line : Line) :
    SortedMap.mapValues (fun _ text => f text) (guarded m cells line) = guarded m cells (line.mapValues fun _ text => f text) := by
  simp only [guarded, SortedMap.mapValues_mapValues]
  congr 1
  funext column text
  split
  · exact hf text
  · rfl

/-- Texts are selected as they are without the marker if it does not matter for the test. -/
theorem filter_guarded {p : Column → String → Bool} {line : Line}
    (hp : ∀ column text, line.get? column = some text → cells column = true → p column (m.before text) = p column text) :
    SortedMap.filter p (guarded m cells line) = guarded m cells (line.filter p) := by
  refine SortedMap.filter_mapValues ?_
  intro column text htext
  split
  · rename_i hcell
    exact hp column text htext hcell
  · rfl

/-- The values of a row that have a place in a list are those without the marker. -/
theorem listed_guarded (h : m.Settled leaves) (line : Line) :
    Repetition.listed leaves (guarded m cells line) = Repetition.listed leaves line := by
  simp only [Repetition.listed, guarded, SortedMap.mapValues, List.flatMap_map]
  congr 1
  funext entry
  split
  · rw [h.proper.all_before, List.filterMap_cons, if_neg fun hvalue => h.modifier_ne.1 hvalue.1]
  · rfl

/-- A row goes out as it does without the marker. -/
theorem isRefused_guarded (h : m.Settled leaves) (line : Line) :
    Strip.isRefused leaves (guarded m cells line) = Strip.isRefused leaves line := by
  simp only [Strip.isRefused, guarded, SortedMap.values, SortedMap.mapValues, List.map_map, List.any_map]
  congr 1
  funext entry
  simp only [Function.comp_apply]
  split
  · rw [h.proper.all_before, List.any_cons, h.modifier_ne.2, Bool.false_and, Bool.false_or]
  · rfl

end Line

namespace Widening

/-- The column that the text in a column of the widened row comes from. -/
def source (w : Widening) (column : Column) : Column :=
  if w.numbers.any fun copy => w.column copy 0 = column then w.anchor else column

/-- The copies of a cell with a marker in front of its text. -/
def guarded (m : Marker) (cells : Column → Bool) (w : Widening) : Widening :=
  { w with text := if cells w.anchor then m.before w.text else w.text }

/-- A widened row has the marker in front of what comes from the cells that have it. -/
theorem widen_guarded {leaves : Leaves} {m : Marker} (h : m.Settled leaves) (cells : Column → Bool) (w : Widening) (line : Line) :
    (w.guarded m cells).widen (Line.guarded m cells line) = Line.guarded m (fun column => cells (w.source column)) (w.widen line) := by
  have hfold : ∀ (numbers : List Nat) (some : Column → Bool) (line : Line),
      numbers.foldl (fun line copy => line.insert (w.column copy 0)
          (Marker.advance .across copy (if cells w.anchor then m.before w.text else w.text))) (Line.guarded m some line) =
        Line.guarded m (fun column => if numbers.any fun copy => w.column copy 0 = column then cells w.anchor else some column)
          (numbers.foldl (fun line copy => line.insert (w.column copy 0) (Marker.advance .across copy w.text)) line) := by
    intro numbers
    induction numbers with
    | nil => exact fun _ _ => rfl
    | cons copy rest ih =>
      intro some line
      have hinsert : (Line.guarded m some line).insert (w.column copy 0)
            (Marker.advance .across copy (if cells w.anchor then m.before w.text else w.text)) =
          Line.guarded m (fun column => if w.column copy 0 = column then cells w.anchor else some column)
            (line.insert (w.column copy 0) (Marker.advance .across copy w.text)) := by
        apply SortedMap.ext_get?
        intro column
        simp only [Line.guarded, SortedMap.get?_insert, SortedMap.get?_mapValues, Std.LawfulEqOrd.compare_eq_iff_eq]
        by_cases hcolumn : column = w.column copy 0
        · subst hcolumn
          simp only [if_true, Option.map_some, Option.some.injEq]
          split
          · exact h.advance_before .across copy w.text
          · rfl
        · rw [if_neg hcolumn, if_neg hcolumn]
          simp only [Ne.symm hcolumn, if_false]
      rw [List.foldl_cons, hinsert, ih, List.foldl_cons]
      congr 1
      funext column
      simp only [List.any_cons]
      by_cases hrest : (rest.any fun copy => decide (w.column copy 0 = column)) = true
      · simp [hrest]
      · simp [hrest]
  have hsource : (fun column => cells (w.source column)) =
      fun column => if w.numbers.any fun copy => w.column copy 0 = column then cells w.anchor else cells column := by
    funext column
    rw [source, apply_ite cells]
  rw [hsource]
  exact hfold w.numbers cells line

end Widening

end SheetTemplate

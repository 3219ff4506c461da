import SheetTemplate.Proofs.CellContents
import SheetTemplate.Proofs.GuardedTexts
import SheetTemplate.Proofs.OutputTexts

/-!
# Conditions in front of cells

`Grid.guarded` puts a marker in front of the text of one cell of a template. If the marker is a condition over the cell that is met
wherever the cell comes to stand, and what stands behind it has to be written anyway, the template is laid out as it is without: the walk
meets each row in the same way (`Layout.step_guarded`, `Layout.walk_guarded`), so all rows have the same fate (`Layout.fate?_guarded`)
and the scaffold is the same (`Layout.scaffold_guarded`).

The marker then stands in front of the texts that are filled from the cell (`Layout.isFilledFrom`), and of no others
(`Layout.grid_guarded`).
-/

namespace SheetTemplate

variable {leaves : Leaves} {m : Marker} {cells : Column → Bool}

/-! ## The expansion of a row -/

/-- The widening of a row takes the marker along. -/
theorem Widening.ofLine?_guarded (areas : List Area) (row : Nat) (line : Line) (r : Repetition) :
    Widening.ofLine? areas row (Line.guarded m cells line) r = (Widening.ofLine? areas row line r).map (Widening.guarded m cells) := by
  simp only [Widening.ofLine?, Line.guarded, SortedMap.get?_mapValues]
  cases r.anchor with
  | none => rfl
  | some anchor => cases hline : line.get? anchor <;> simp [hline, Widening.guarded]

namespace Stacking

/-- The stacking of a row takes the marker along. -/
theorem ofLine_guarded (h : m.Settled leaves) (areas : List Area) (row : Nat) (line : Line) (copies stride : Nat) :
    Stacking.ofLine areas row (Line.guarded m cells line) copies stride =
      { Stacking.ofLine areas row line copies stride with
        line := Line.guarded m cells (Stacking.ofLine areas row line copies stride).line } := by
  have hcopied : copied areas row (Line.guarded m cells line) = Line.guarded m cells (copied areas row line) := by
    refine Line.filter_guarded ?_
    intro column text _ _
    rw [h.valueInText_before]
  simp only [ofLine, hcopied]
  rw [Line.guarded, SortedMap.keys_mapValues]

/-- Merges of values reach as far below a row as without the marker. -/
theorem height_guarded (h : m.Settled leaves) (areas : List Area) (row : Nat) (line : Line) :
    height areas row (Line.guarded m cells line) = height areas row line := by
  have hvalues : (Line.guarded m cells line).filter (fun _ text => Marker.valueInText text) =
      Line.guarded m cells (line.filter fun _ text => Marker.valueInText text) :=
    Line.filter_guarded fun _ text _ _ => h.valueInText_before text
  rw [height, hvalues, Line.guarded, SortedMap.keys_mapValues, height]

end Stacking

namespace Expansion

/-- The columns of the expanded row whose texts come from some of the cells of the row. -/
def widened (e : Expansion) (cells : Column → Bool) (column : Column) : Bool :=
  cells (e.widening.elim column fun w => w.source column)

/-- The expansion with a marker in front of what comes from some of the cells of the row. -/
def guarded (m : Marker) (cells : Column → Bool) (e : Expansion) : Expansion :=
  { e with
    line := Line.guarded m (e.widened cells) e.line
    widening := e.widening.map (Widening.guarded m cells)
    stacking := { e.stacking with line := Line.guarded m (e.widened cells) e.stacking.line } }

/-- A row expands as it does without the marker, if what stands behind the marker has to be written anyway. -/
theorem ofLine_guarded (h : m.Settled leaves) {line : Line}
    (hlive : ∀ column text, line.get? column = some text → cells column = true → Strip.isLive text = true) (areas : List Area)
    (block : Block) (row : Nat) (r : Repetition) :
    ofLine areas block row (Line.guarded m cells line) r = (ofLine areas block row line r).guarded m cells := by
  have hkept : (if block.copies r.rows = 0 then (Line.guarded m cells line).filter fun _ text => Strip.isLive text
      else Line.guarded m cells line) =
        Line.guarded m cells (if block.copies r.rows = 0 then line.filter fun _ text => Strip.isLive text else line) := by
    split
    · refine Line.filter_guarded ?_
      intro column text htext hcell
      rw [h.isLive_before, hlive column text htext hcell]
    · rfl
  simp only [ofLine, hkept, Widening.ofLine?_guarded]
  generalize (if block.copies r.rows = 0 then line.filter fun _ text => Strip.isLive text else line) = kept
  cases hw : Widening.ofLine? areas row kept r with
  | none =>
    simp only [Option.map_none, Option.elim_none, Stacking.height_guarded h, Stacking.ofLine_guarded h]
    rfl
  | some w =>
    simp only [Option.map_some, Option.elim_some, Widening.widen_guarded h, Stacking.height_guarded h, Stacking.ofLine_guarded h]
    rfl

end Expansion

namespace Strip

/-- The strip with a marker in front of the texts in some columns of its lines. -/
def guarded (m : Marker) (cells : Column → Bool) (strip : Strip) : Strip :=
  { strip with lines := strip.lines.map fun line => (line.1, Line.guarded m cells line.2) }

end Strip

namespace Expansion

/-- A strip with the marker in front of some texts differs in its lines only. -/
theorem strip_guarded (h : m.Settled leaves) (e : Expansion) (block : Block) (origin : Nat) :
    (e.guarded m cells).strip block origin = (e.strip block origin).guarded m (e.widened cells) := by
  have hempty : ∀ (some : Column → Bool) (line : Line), (Line.guarded m some line).isEmpty = line.isEmpty :=
    fun some line => SortedMap.isEmpty_mapValues _ line
  have hkeys : ∀ (some : Column → Bool) (line : Line), (Line.guarded m some line).keys = line.keys :=
    fun some line => SortedMap.keys_mapValues _ line
  have hlines : (e.guarded m cells).lines origin =
      (e.lines origin).map fun line => (line.1, Line.guarded m (e.widened cells) line.2) := by
    simp only [lines, Stacking.lines, guarded, hempty, List.map_append]
    congr 1
    · split
      · rfl
      · rw [List.map_map]
        refine List.map_congr_left fun copy _ => ?_
        exact congrArg (Prod.mk _) (Line.mapValues_guarded (h.advance_before .down copy) _)
    · split <;> rfl
  simp only [strip, Strip.guarded, hlines]
  simp only [guarded, Stacking.styles, Stacking.formats, hkeys]
  cases e.widening <;> rfl

end Expansion

/-! ## The walk -/

namespace Grid

/-- The grid with a marker in front of the text of a cell. -/
def guarded (m : Marker) (cell : Address) (grid : Grid) : Grid :=
  grid.mapValues fun row line => if row = cell.row then Line.guarded m (fun column => column = cell.column) line else line

theorem line_guarded (m : Marker) (cell : Address) (grid : Grid) (row : Nat) :
    (guarded m cell grid).line row =
      if row = cell.row then Line.guarded m (fun column => column = cell.column) (grid.line row) else grid.line row := by
  rw [line, line, guarded, SortedMap.get?_mapValues]
  cases SortedMap.get? grid row with
  | none =>
    split <;> rfl
  | some line => rfl

end Grid

namespace Layout

variable {areas : List Area} {grid : Grid} {cell : Address}

/-- Whether the texts in a column of an expanded row come from the cell of the template. -/
def comesFrom (leaves : Leaves) (areas : List Area) (grid : Grid) (cell : Address) (column : Column) : Bool :=
  ((widening? leaves areas grid cell.row).elim column fun w => w.source column) = cell.column

/-- The walk meets a row with a condition in it as it does without. -/
theorem step_guarded (h : m.Settled leaves)
    (hlive : ∀ text, grid.text? cell = some text → Strip.isLive (Marker.ground text) = true) (cursor : Cursor) :
    step leaves areas cell.row (Line.guarded m (fun column => column = cell.column) (grid.line cell.row)) cursor =
      (step leaves areas cell.row (grid.line cell.row) cursor).map fun next =>
        (next.1.guarded m (comesFrom leaves areas grid cell), next.2) := by
  have hground : (Line.guarded m (fun column => column = cell.column) (grid.line cell.row)).mapValues
      (fun _ text => Marker.ground text) = Line.guarded m (fun column => column = cell.column) (groundedLine grid cell.row) :=
    Line.mapValues_guarded h.ground_before _
  have hrepetition : Repetition.ofLine leaves (Line.guarded m (fun column => column = cell.column) (grid.line cell.row)) =
      repetition leaves grid cell.row := by
    rw [Repetition.ofLine, Line.listed_guarded h]
    rfl
  have hexpansion : Expansion.ofLine areas cursor.block cell.row
      (Line.guarded m (fun column => column = cell.column) (groundedLine grid cell.row)) (repetition leaves grid cell.row) =
        (expansion leaves areas grid cursor.block cell.row).guarded m fun column => column = cell.column := by
    refine Expansion.ofLine_guarded h ?_ areas cursor.block cell.row _
    intro column text htext hcolumn
    obtain rfl : column = cell.column := by simpa using hcolumn
    rw [groundedLine, SortedMap.get?_mapValues, Option.map_eq_some_iff] at htext
    obtain ⟨template, htemplate, rfl⟩ := htext
    exact hlive template htemplate
  have hwidened : (expansion leaves areas grid cursor.block cell.row).widened (fun column => column = cell.column) =
      comesFrom leaves areas grid cell := by
    funext column
    rw [Expansion.widened, expansion_widening, comesFrom]
  unfold step
  simp only [hground, hrepetition, Line.isRefused_guarded h, hexpansion, Expansion.strip_guarded h, hwidened]
  cases rowAt (cell.row + cursor.shift) with
  | error e => rfl
  | ok origin =>
    change (if cursor.block = .idle ∧ refuses leaves grid cell.row = true then _ else (checkRows _).bind _) =
      Except.map _ (if cursor.block = .idle ∧ refuses leaves grid cell.row = true then _ else (checkRows _).bind _)
    split
    · rfl
    · change (checkRows ((expansion leaves areas grid cursor.block cell.row).stacking.neededRows origin)).bind _ =
        Except.map _ ((checkRows ((expansion leaves areas grid cursor.block cell.row).stacking.neededRows origin)).bind _)
      cases checkRows ((expansion leaves areas grid cursor.block cell.row).stacking.neededRows origin) with
      | error e => rfl
      | ok u => rfl

/-- The strip of a row with the marker in front of what comes from the cell, other strips as they are. -/
def guardedStrip (leaves : Leaves) (areas : List Area) (grid : Grid) (m : Marker) (cell : Address) (strip : Strip) : Strip :=
  { strip with
    lines := if strip.row = cell.row then (strip.guarded m (comesFrom leaves areas grid cell)).lines else strip.lines }

theorem guardedStrip_eq (strip : Strip) : guardedStrip leaves areas grid m cell strip =
    if strip.row = cell.row then strip.guarded m (comesFrom leaves areas grid cell) else strip := by
  unfold guardedStrip
  split <;> rfl

/-- A strip is that of the row that is met. -/
theorem step_row {row : Nat} {cursor next : Cursor} {strip : Strip}
    (h : step leaves areas row (grid.line row) cursor = .ok (strip, next)) : strip.row = row := by
  obtain ⟨origin, -, -, -, ⟨-, -, rfl, -⟩ | ⟨-, rfl, -⟩⟩ := step_cases h
  · rfl
  · rfl

/-- The walk meets a template with a condition in front of a cell as it does without. -/
theorem walk_guarded (h : m.Settled leaves) (hlive : ∀ text, grid.text? cell = some text → Strip.isLive (Marker.ground text) = true)
    (rows : List Nat) (cursor : Cursor) :
    walk leaves areas (Grid.guarded m cell grid) rows cursor = (walk leaves areas grid rows cursor).map fun final =>
      (final.1.map (guardedStrip leaves areas grid m cell), final.2) := by
  induction rows generalizing cursor with
  | nil => rfl
  | cons row rest ih =>
    have hstep : step leaves areas row ((Grid.guarded m cell grid).line row) cursor =
        (step leaves areas row (grid.line row) cursor).map fun next => (guardedStrip leaves areas grid m cell next.1, next.2) := by
      rw [Grid.line_guarded]
      by_cases hcell : row = cell.row
      · subst hcell
        rw [if_pos rfl, step_guarded h hlive]
        cases hs : step leaves areas cell.row (grid.line cell.row) cursor with
        | error e => rfl
        | ok next => simp only [Except.map, guardedStrip_eq, step_row hs, if_true]
      · rw [if_neg hcell]
        cases hs : step leaves areas row (grid.line row) cursor with
        | error e => rfl
        | ok next => simp only [Except.map, guardedStrip_eq, step_row hs, if_neg hcell]
    change (step leaves areas row ((Grid.guarded m cell grid).line row) cursor).bind _ =
      Except.map _ ((step leaves areas row (grid.line row) cursor).bind _)
    rw [hstep]
    cases step leaves areas row (grid.line row) cursor with
    | error e => rfl
    | ok next =>
      change (walk leaves areas (Grid.guarded m cell grid) rest next.2).bind _ =
        Except.map _ ((walk leaves areas grid rest next.2).bind _)
      rw [ih]
      cases walk leaves areas grid rest next.2 with
      | error e => rfl
      | ok final => rfl

/-! ## The layout -/

variable {layout : Layout}

/-- The layout with the marker in front of what comes from the cell. -/
def guarded (leaves : Leaves) (areas : List Area) (grid : Grid) (m : Marker) (cell : Address) (layout : Layout) : Layout :=
  { layout with strips := layout.strips.map (guardedStrip leaves areas grid m cell) }

/-- A template is laid out as it is without a condition in front of a cell. -/
theorem ofTemplate_guarded (h : m.Settled leaves)
    (hlive : ∀ text, grid.text? cell = some text → Strip.isLive (Marker.ground text) = true) :
    ofTemplate leaves areas (Grid.guarded m cell grid) =
      (ofTemplate leaves areas grid).map (Layout.guarded leaves areas grid m cell) := by
  have hcontains : (Grid.guarded m cell grid).contains 0 = grid.contains 0 := by
    rw [SortedMap.contains, Grid.guarded, SortedMap.get?_mapValues, Option.isSome_map]
    rfl
  have hrows : usedRows areas (Grid.guarded m cell grid) = usedRows areas grid := by
    rw [usedRows, Grid.guarded, SortedMap.keys_mapValues]
    rfl
  rw [ofTemplate, ofTemplate, hcontains, hrows, walk_guarded h hlive]
  split
  · rfl
  · cases walk leaves areas grid (usedRows areas grid) ⟨0, .idle⟩ with
    | error e => rfl
    | ok final => rfl

/-- Rows have the same fate with and without the condition. -/
theorem fate?_guarded : (layout.guarded leaves areas grid m cell).fate? = layout.fate? := by
  funext row
  simp only [fate?, guarded, List.find?_map, Option.map_map]
  rfl

/-- The scaffold is the same with and without the condition. -/
theorem scaffold_guarded : (layout.guarded leaves areas grid m cell).scaffold areas = layout.scaffold areas := by
  have hdeleted : (layout.guarded leaves areas grid m cell).isDeleted = layout.isDeleted := by
    funext row
    rw [isDeleted, fate?_guarded, isDeleted]
  have hplace : (layout.guarded leaves areas grid m cell).place? = layout.place? := by
    funext area
    simp only [place?, fate?_guarded, hdeleted]
  have hstrips : (layout.guarded leaves areas grid m cell).strips = layout.strips.map (guardedStrip leaves areas grid m cell) := rfl
  simp only [scaffold, hplace, hstrips, List.flatMap_map]
  rfl

/-- The rows of the sheet in which copies of a row of the template stand, with the row itself. -/
def places (layout : Layout) (row : Nat) : List Nat :=
  match layout.fate? row with
  | some (.placed origin copies stride) => (List.range (copies + 1)).map fun copy => origin + copy * stride
  | _ => []

theorem mem_places {row place : Nat} : place ∈ layout.places row ↔ ∃ copy, layout.Stands row copy place := by
  unfold places
  split
  · rename_i origin copies stride hfate
    simp only [List.mem_map, List.mem_range, Nat.lt_succ_iff]
    constructor
    · rintro ⟨copy, hcopy, rfl⟩
      exact ⟨copy, origin, copies, stride, hfate, hcopy, rfl⟩
    · rintro ⟨copy, origin', copies', stride', hfate', hcopy, rfl⟩
      rw [hfate] at hfate'
      cases hfate'
      exact ⟨copy, hcopy, rfl⟩
  · rename_i hnot
    refine ⟨fun h => absurd h List.not_mem_nil, ?_⟩
    rintro ⟨copy, origin, copies, stride, hfate, -⟩
    exact absurd hfate (hnot origin copies stride)

/-- Whether a cell of the sheet is filled from a cell of the template: it lies in a row where a copy of its row stands, in the column of
the cell or of a copy beside it. -/
def isFilledFrom (layout : Layout) (leaves : Leaves) (areas : List Area) (grid : Grid) (cell target : Address) : Bool :=
  target.row ∈ layout.places cell.row && comesFrom leaves areas grid cell target.column

/-- The marker stands in front of the texts of the cells that are filled from the cell with the condition, and of no others. -/
theorem grid_guarded (hlayout : ofTemplate leaves areas grid = .ok layout) :
    (layout.guarded leaves areas grid m cell).grid = layout.grid.mapCells fun target text =>
      if layout.isFilledFrom leaves areas grid cell target then m.before text else text := by
  rw [Layout.grid, Layout.grid, Grid.mapCells, SortedMap.mapValues_ofList]
  congr 1
  simp only [guarded, List.flatMap_map, List.map_flatMap]
  refine List.flatMap_congr fun strip hstrip => ?_
  -- A strip fills the rows where copies of its own row stand, and no row of another one.
  have hplaces : ∀ entry ∈ strip.lines, entry.1 ∈ layout.places cell.row ↔ strip.row = cell.row := by
    rintro ⟨place, line⟩ hmem
    obtain ⟨block, copy, origin, copies, stride, hfate, hcopy, hplace, -⟩ := exists_copy_of_mem_strip hlayout hstrip hmem
    have hstands : layout.Stands strip.row copy place := ⟨origin, copies, stride, hfate, hcopy, hplace⟩
    rw [mem_places]
    constructor
    · rintro ⟨copy', hstands'⟩
      exact (stands_inj hlayout hstands hstands').1
    · intro hrow
      rw [← hrow]
      exact ⟨copy, hstands⟩
  rw [guardedStrip_eq]
  split
  · rename_i hrow
    refine List.map_congr_left fun entry hentry => ?_
    have hplace := (hplaces entry hentry).2 hrow
    simp only [isFilledFrom, hplace, decide_true, Bool.true_and]
    rfl
  · rename_i hrow
    refine (List.map_id _).symm.trans (List.map_congr_left fun entry hentry => ?_)
    have hplace : entry.1 ∉ layout.places cell.row := fun hmem => hrow ((hplaces entry hentry).1 hmem)
    have hsame : ∀ line : Line, line.mapValues (fun column text =>
        if layout.isFilledFrom leaves areas grid cell ⟨column, entry.1⟩ then m.before text else text) = line := by
      intro line
      simp only [isFilledFrom, hplace, decide_false, Bool.false_and, Bool.false_eq_true, if_false]
      exact SortedMap.mapValues_id line
    rw [id, hsame]

end Layout
end SheetTemplate

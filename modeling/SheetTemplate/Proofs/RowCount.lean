import SheetTemplate.Compile
import SheetTemplate.Proofs.CellContents
import SheetTemplate.Proofs.LoneRow
import SheetTemplate.Proofs.PathResolution
import SheetTemplate.Proofs.WholeMarkers

/-!
# Lists fill rows

A template whose only cell is a marker with a wildcard grows to a row for every element of the list that has a value before the first
gap, and with a second wildcard to a column for every such element of the first one. The value in row `i` and column `j` of the payload
fills the cell `i` rows below and `j` columns to the right of the marker, and no other cell is filled (`list_fills_rows`).
-/

namespace SheetTemplate

namespace ListPath

variable {l : ListPath} {payload : Value} {rows columns : Nat}

/-- The marker for the values of the list. -/
def marker (l : ListPath) : String := (Marker.ofPath l.path).text

/-- The marker for the value in row `i` and column `j`. -/
def keyMarker (l : ListPath) (i j : Nat) : String := (Marker.ofPath (l.key i j)).text

theorem all_marker : Marker.all l.marker = [Marker.ofPath l.path] := (Marker.proper_ofPath l.admits_path).all_text

theorem all_keyMarker (i j : Nat) : Marker.all (l.keyMarker i j) = [Marker.ofPath (l.key i j)] :=
  (Marker.proper_ofPath (l.admits_key i j)).all_text

theorem valueInText_keyMarker (i j : Nat) : Marker.valueInText (l.keyMarker i j) = true :=
  Marker.valueInText_text_ofPath (l.admits_key i j)

theorem ground_marker : Marker.ground l.marker = l.keyMarker 0 0 := by
  rw [marker, Marker.ground_text_ofPath l.admits_path, l.grounded_path]
  rfl

/-- The marker of a row some rows further down. -/
theorem advance_keyMarker_down (i j step : Nat) (h : i + step ≤ Path.lastPosition) :
    Marker.advance .down step (l.keyMarker i j) = l.keyMarker (i + step) j :=
  Marker.advance_text_ofPath (l.admits_key i j) (l.advance?_down j h)

/-- The marker of a column some columns to the right. -/
theorem advance_keyMarker_across (hfield : l.field = none) (i j step : Nat) (h : j + step ≤ Path.lastPosition) :
    Marker.advance .across step (l.keyMarker i j) = l.keyMarker i (j + step) :=
  Marker.advance_text_ofPath (l.admits_key i j) (l.advance?_across i hfield h)

/-! ## The row with the marker -/

section Row

variable {grid : Grid} {row : Nat} {column : Column}

/-- The row with its wildcards read as position 0. -/
theorem groundedLine_eq (hline : grid.line row = (∅ : Line).insert column l.marker) :
    Layout.groundedLine grid row = (∅ : Line).insert column (l.keyMarker 0 0) := by
  rw [Layout.groundedLine, hline, SortedMap.mapValues_insert, ground_marker]
  rfl

/-- No condition stands over the row. -/
theorem refuses_eq (hline : grid.line row = (∅ : Line).insert column l.marker) (leaves : Leaves) :
    Layout.refuses leaves grid row = false := by
  rw [Layout.refuses, groundedLine_eq hline]
  change [l.keyMarker 0 0].any (fun text => (Marker.all text).any fun m => m.modifier.isRowScoped && !m.isMet leaves) = false
  rw [List.any_cons, all_keyMarker]
  rfl

variable (hs : l.Supplied payload rows columns) (hline : grid.line row = (∅ : Line).insert column l.marker)
  (hrows : rows ≤ Path.lastPosition) (hcolumns : columns ≤ Path.lastPosition)
include hs hline hrows hcolumns

/-- A row with the marker asks for a row for every further element, and a column for every further value of the first one. -/
theorem Supplied.repetition_eq : Layout.repetition (Leaves.ofValue payload) grid row =
    ⟨rows - 1, columns - 1, if 0 < columns - 1 then some column else none⟩ := by
  have hposition : (l.key 0 0).hasPosition = true := by
    rw [Path.hasPosition, List.any_eq_true]
    exact ⟨Value.position 0, by simp [key], Path.isPosition_position 0⟩
  have hcontains : (Leaves.ofValue payload).contains (l.key 0 0).text = true :=
    (contains_key_iff hs.plain_keys).2 (hs.first_column 0 hs.one_le)
  have hlisted : Repetition.listed (Leaves.ofValue payload) (grid.line row) = [(column, l.key 0 0)] := by
    rw [hline]
    change [(column, l.marker)].flatMap _ = _
    simp [all_marker, Marker.ofPath, l.grounded_path, hposition, hcontains]
  rw [Layout.repetition, Repetition.ofLine, hlisted, List.foldl_cons, List.foldl_nil, Repetition.count,
    hs.siblings_down hrows, hs.siblings_across hcolumns]
  simp only [Nat.zero_max]

/-- Copies beside the marker come for the further columns, directly beside each other. -/
theorem Supplied.widening?_eq : Layout.widening? (Leaves.ofValue payload) [] grid row =
    if 0 < columns - 1 then some ⟨column, l.keyMarker 0 0, 0, columns - 1⟩ else none := by
  rw [Layout.widening?, hs.repetition_eq hline hrows hcolumns, groundedLine_eq hline, Widening.ofLine?]
  split
  · have hget : ((∅ : Line).insert column (l.keyMarker 0 0)).get? column = some (l.keyMarker 0 0) := by
      rw [SortedMap.get?_insert, if_pos Std.ReflCmp.compare_self]
    simp only [Option.bind_eq_bind, Option.bind_some, hget]
    rfl
  · rfl

/-- Beside the marker stand those for the further columns. -/
theorem Supplied.beside_eq (other : Column) :
    ((Layout.widening? (Leaves.ofValue payload) [] grid row).bind fun w =>
      (w.copyAt? other).map fun copy => Marker.advance .across copy w.text) =
        if column.index < other.index ∧ other.index < column.index + columns then
          some (l.keyMarker 0 (other.index - column.index)) else none := by
  rw [hs.widening?_eq hline hrows hcolumns]
  split
  · rename_i hwide
    have hfield : l.field = none := by
      have hlast := hs.last_column
      split at hlast
      · omega
      · rename_i hnone
        exact Option.not_isSome_iff_eq_none.1 hnone
    rw [Option.bind_some]
    split
    · rename_i hin
      have hat : Widening.copyAt? ⟨column, l.keyMarker 0 0, 0, columns - 1⟩ other = some (other.index - column.index) := by
        rw [Widening.copyAt?_eq_some_iff, Widening.mem_numbers]
        dsimp only
        omega
      rw [hat, Option.map_some, advance_keyMarker_across hfield 0 0 _ (by omega), Nat.zero_add]
    · rename_i hout
      have hat : Widening.copyAt? ⟨column, l.keyMarker 0 0, 0, columns - 1⟩ other = none := by
        rw [Option.eq_none_iff_forall_ne_some]
        intro copy hcopy
        rw [Widening.copyAt?_eq_some_iff, Widening.mem_numbers] at hcopy
        dsimp only at hcopy
        omega
      rw [hat, Option.map_none]
  · rw [Option.bind_none, if_neg (by omega)]

/-- The cells of the row are filled from the marker on, one for each column. -/
theorem Supplied.ownText?_eq (copies : Nat) (other : Column) :
    Layout.ownText? (Leaves.ofValue payload) [] grid row copies other =
      if column.index ≤ other.index ∧ other.index < column.index + columns then some (l.keyMarker 0 (other.index - column.index))
      else none := by
  have hone := hs.one_le_columns
  have hlive : Strip.isLive (l.keyMarker 0 0) = true := by
    rw [Strip.isLive, Marker.inText_of_valueInText (valueInText_keyMarker 0 0), Bool.true_or]
  have hcell : ((Layout.groundedLine grid row).get? other).filter (fun text => copies ≠ 0 || Strip.isLive text) =
      if other = column then some (l.keyMarker 0 0) else none := by
    rw [groundedLine_eq hline, SortedMap.get?_insert]
    simp only [Std.LawfulEqOrd.compare_eq_iff_eq]
    split
    · simp [Option.filter_some, hlive]
    · rfl
  rw [Layout.ownText?, hcell, hs.beside_eq hline hrows hcolumns]
  by_cases hother : other = column
  · subst hother
    rw [if_neg (by omega), if_pos rfl, if_pos (by omega), Nat.sub_self]
    rfl
  · have hne : other.index ≠ column.index := fun heq => hother (Column.eq_of_index_eq heq)
    rw [if_neg hother, Option.or_none]
    by_cases hin : column.index < other.index ∧ other.index < column.index + columns
    · rw [if_pos hin, if_pos (by omega)]
    · rw [if_neg hin, if_neg (by omega)]

/-- In a copy of the row stand the markers of its row of values. -/
theorem Supplied.copyText?_eq {copies copy : Nat} (hcopy : copy < rows) (other : Column) :
    Layout.copyText? (Leaves.ofValue payload) [] grid row copies copy other =
      if column.index ≤ other.index ∧ other.index < column.index + columns then
        some (l.keyMarker copy (other.index - column.index)) else none := by
  rw [Layout.copyText?, hs.ownText?_eq hline hrows hcolumns]
  split
  · rename_i hzero
    rw [hzero]
  · by_cases hin : column.index ≤ other.index ∧ other.index < column.index + columns
    · rw [if_pos hin, if_pos hin, Option.filter_some, valueInText_keyMarker, Bool.true_or, if_pos rfl, Option.map_some,
        advance_keyMarker_down _ _ _ (by omega), Nat.zero_add]
    · rw [if_neg hin, if_neg hin]
      rfl

end Row

/-! ## The sheet -/

section Sheet

variable {template : Template} {cell : Address}

/-- A template whose only cell is the marker keeps it when short paths are resolved. -/
theorem Supplied.text?_resolve (hs : l.Supplied payload rows columns) (hcells : template.grid.cells = [(cell, l.marker)])
    (other : Address) : (Template.resolve (Leaves.ofValue payload) template.grid).text? other =
      if other = cell then some l.marker else none := by
  have hmarker : Marker.resolve (Leaves.ofValue payload) l.marker = l.marker :=
    Marker.resolve_text_ofPath l.admits_path hs.resolve?_path
  rw [Template.resolve, Grid.text?_mapTexts]
  cases htext : template.grid.text? other with
  | none =>
    rw [if_neg]
    · rfl
    · rintro rfl
      have hmem : (other, l.marker) ∈ template.grid.cells := by
        rw [hcells]
        exact List.mem_singleton.2 rfl
      rw [Grid.mem_cells.1 hmem] at htext
      cases htext
  | some text =>
    have hmem := Grid.mem_cells.2 htext
    rw [hcells, List.mem_singleton] at hmem
    cases hmem
    rw [if_pos rfl, Option.map_some, hmarker]

/-- What a cell of the sheet holds where markers for the rows and columns of values stand from a cell on. -/
def sheetText? (l : ListPath) (cell : Address) (rows columns : Nat) (target : Address) : Option String :=
  if cell.row ≤ target.row ∧ target.row < cell.row + rows ∧ cell.column.index ≤ target.column.index ∧
      target.column.index < cell.column.index + columns then
    some (l.keyMarker (target.row - cell.row) (target.column.index - cell.column.index))
  else none

/-- The marker for row `i` and column `j` stands `i` rows below and `j` columns to the right of the first one. -/
theorem sheetText?_at {i j : Nat} (hi : i < rows) (hj : j < columns) (hcolumn : cell.column.index + (columns - 1) ≤ lastColumn) :
    l.sheetText? cell rows columns ⟨cell.column.offset j, cell.row + i⟩ = some (l.keyMarker i j) := by
  have hindex : (cell.column.offset j).index = cell.column.index + j := Column.index_offset (by omega)
  rw [sheetText?]
  simp only [hindex, Nat.add_sub_cancel_left]
  rw [if_pos ⟨by omega, by omega, by omega, by omega⟩]

/-- Where a marker stands it is that for a row and column of values. -/
theorem exists_of_sheetText? {target : Address} {text : String} (h : l.sheetText? cell rows columns target = some text)
    (hcolumn : cell.column.index + (columns - 1) ≤ lastColumn) :
    ∃ i < rows, ∃ j < columns, target = ⟨cell.column.offset j, cell.row + i⟩ ∧ text = l.keyMarker i j := by
  obtain ⟨column, row⟩ := target
  rw [sheetText?] at h
  dsimp only at h
  split at h
  · rename_i hin
    obtain ⟨habove, hbelow, hleft, hright⟩ := hin
    cases h
    refine ⟨row - cell.row, by omega, column.index - cell.column.index, by omega, ?_, rfl⟩
    have hplace : column = cell.column.offset (column.index - cell.column.index) :=
      (Column.eq_offset_iff (by omega)).2 (by omega)
    rw [← hplace, Nat.add_sub_cancel' habove]
  · cases h

/-- A template whose only cell is the marker is laid out if its rows and columns fit on the sheet. The sheet then holds one marker for
each row and column of values. -/
theorem Supplied.exists_layout (hs : l.Supplied payload rows columns) (hcells : template.grid.cells = [(cell, l.marker)])
    (hfit : ∀ used ∈ template.grid.keys, 1 ≤ used ∧ used + (rows - 1) ≤ lastRow)
    (hcolumn : cell.column.index + (columns - 1) ≤ lastColumn) : ∃ layout,
      Layout.ofTemplate (Leaves.ofValue payload) [] (Template.resolve (Leaves.ofValue payload) template.grid) = .ok layout ∧
      (layout.scaffold []).rows = (List.range' (cell.row + 1) (rows - 1)).map .add ∧
      ∀ target, layout.grid.text? target = l.sheetText? cell rows columns target := by
  have hone := hs.one_le
  have htexts := hs.text?_resolve hcells
  generalize hgrid : Template.resolve (Leaves.ofValue payload) template.grid = grid at htexts
  have hkeys : grid.keys = template.grid.keys := by
    rw [← hgrid, Template.resolve, Grid.mapTexts, SortedMap.keys_mapValues]
  obtain ⟨hrow, hline, hblank⟩ := Grid.lines_of_single htexts
  have hrows : rows ≤ Path.lastPosition := by
    have hlast := (hfit cell.row (hkeys ▸ hrow)).2
    have hle : lastRow < Path.lastPosition := by decide
    omega
  have hcolumns : columns ≤ Path.lastPosition := by
    have hle : lastColumn < Path.lastPosition := by decide
    omega
  have hrepetition : (Layout.repetition (Leaves.ofValue payload) grid cell.row).rows = rows - 1 := by
    rw [hs.repetition_eq hline hrows hcolumns]
  have hwidening : ∀ w, Layout.widening? (Leaves.ofValue payload) [] grid cell.row = some w → w.Fits := by
    intro w hw
    rw [hs.widening?_eq hline hrows hcolumns] at hw
    split at hw
    · cases hw
      change cell.column.index + (columns - 1) * (0 + 1) ≤ lastColumn
      omega
    · cases hw
  obtain ⟨layout, hlayout, hfate, hactions⟩ := Layout.exists_layout_of_loneRow hrow hblank
    (by rw [hrepetition, hkeys]; exact hfit) (refuses_eq hline _)
  rw [hrepetition] at hfate hactions
  refine ⟨layout, hlayout, hactions, ?_⟩
  rintro ⟨column, row⟩
  obtain ⟨hcopies, hnone⟩ := Layout.text?_of_loneRow hlayout hblank hfate hwidening column
  by_cases hin : cell.row ≤ row ∧ row < cell.row + rows
  · have htext := hcopies (row - cell.row) (by omega)
    rw [Nat.add_sub_cancel' hin.1] at htext
    rw [htext, hs.copyText?_eq hline hrows hcolumns (by omega), sheetText?]
    simp only [hin.1, hin.2, true_and]
  · rw [hnone row (by omega), sheetText?, if_neg fun h => hin ⟨h.1, h.2.1⟩]

/-- A sheet that holds one marker for each row and column of values, and nothing else, is filled with the values. -/
theorem exists_contents_of_sheetText? {grid : Grid} (htexts : ∀ target, grid.text? target = l.sheetText? cell rows columns target)
    (hcolumn : cell.column.index + (columns - 1) ≤ lastColumn) :
    ∃ contents, Substitution.contents (Leaves.ofValue payload) grid = .ok contents ∧
      (∀ i < rows, ∀ j < columns, contents.get? ⟨cell.column.offset j, cell.row + i⟩ =
        some (((Leaves.ofValue payload).get? (l.key i j).text).bind Substitution.taken?)) ∧
      ∀ target value, contents.get? target = some value →
        ∃ i < rows, ∃ j < columns, target = ⟨cell.column.offset j, cell.row + i⟩ := by
  have hvalue : ∀ (target : Address) (i j : Nat), Substitution.value (Leaves.ofValue payload) target (l.keyMarker i j) =
      .ok (((Leaves.ofValue payload).get? (l.key i j).text).bind Substitution.taken?) :=
    fun target i j => Marker.value_text_ofPath (l.admits_key i j) target
  have hvalues : ∀ target text, grid.text? target = some text →
      ∃ v, Substitution.value (Leaves.ofValue payload) target text = .ok v := by
    intro target text htext
    rw [htexts] at htext
    obtain ⟨i, _, j, _, _, rfl⟩ := exists_of_sheetText? htext hcolumn
    exact ⟨_, hvalue target i j⟩
  obtain ⟨contents, hcontents⟩ := Substitution.exists_contents_iff.2 hvalues
  obtain ⟨hfilled, hempty⟩ := Substitution.get?_contents hcontents
  refine ⟨contents, hcontents, ?_, ?_⟩
  · intro i hi j hj
    obtain ⟨found, hfound, hget⟩ := hfilled _ _ ((htexts _).trans (sheetText?_at hi hj hcolumn))
    rw [hvalue] at hfound
    cases hfound
    exact hget
  · intro target value hwritten
    cases htext : grid.text? target with
    | none =>
      rw [hempty target htext] at hwritten
      cases hwritten
    | some text =>
      rw [htexts] at htext
      obtain ⟨i, hi, j, hj, hplace, -⟩ := exists_of_sheetText? htext hcolumn
      exact ⟨i, hi, j, hj, hplace⟩

/-- A template whose only cell is a marker for the elements of a list is compiled if its rows and columns fit on the sheet. A row comes
in for every further element with a value before the first gap, so there are as many rows as elements exactly if each element has one.
Each value in these rows and columns fills the cell as many rows below and columns to the right of the marker as its positions say, and
the other cells that are written are cleared. -/
theorem list_fills_rows (hs : l.Supplied payload rows columns) (hmerges : template.merges = [])
    (hcells : template.grid.cells = [(cell, l.marker)])
    (hfit : ∀ used ∈ template.grid.keys, 1 ≤ used ∧ used + (rows - 1) ≤ lastRow)
    (hcolumn : cell.column.index + (columns - 1) ≤ lastColumn) : ∃ plan, template.compile payload = .ok plan ∧
      plan.rows = (List.range' (cell.row + 1) (rows - 1)).map .add ∧
      (∀ items, Value.At payload l.list (.list items) → (rows = items.length ↔ ∀ i < items.length, l.HasLeaf payload i 0)) ∧
      (∀ i < rows, ∀ j < columns,
        (∀ v, Value.At payload (l.key i j).segments v → v.isLeaf = true →
          plan.contents.get? ⟨cell.column.offset j, cell.row + i⟩ = some (Substitution.taken? v)) ∧
        (¬l.HasLeaf payload i j → plan.contents.get? ⟨cell.column.offset j, cell.row + i⟩ = some none)) ∧
      ∀ target value, plan.contents.get? target = some value →
        ∃ i < rows, ∃ j < columns, target = ⟨cell.column.offset j, cell.row + i⟩ := by
  obtain ⟨layout, hlayout, hactions, htexts⟩ := hs.exists_layout hcells hfit hcolumn
  have hareas : template.areas = .ok [] := by
    rw [Template.areas, hmerges]
    rfl
  -- No marker is a formula.
  have hrebased : ∀ target, (Formula.rebase (layout.scaffold []).rows (layout.scaffold []).areas layout.grid).text? target =
      l.sheetText? cell rows columns target := by
    intro target
    rw [Formula.rebase, Grid.text?_mapTexts, htexts]
    cases htext : l.sheetText? cell rows columns target with
    | none => rfl
    | some text =>
      obtain ⟨i, _, j, _, _, rfl⟩ := exists_of_sheetText? htext hcolumn
      rw [Option.map_some, keyMarker, Marker.isFormula_text, if_neg Bool.false_ne_true]
  obtain ⟨contents, hcontents, hcell, hwritten⟩ := exists_contents_of_sheetText? hrebased hcolumn
  refine ⟨⟨layout.scaffold [], contents⟩, Template.compile_eq_ok_iff.2 ⟨[], layout, hareas, hlayout, rfl, hcontents⟩, hactions,
    fun items hlist => hs.rows_eq_length_iff hlist, ?_, hwritten⟩
  intro i hi j hj
  constructor
  · intro v hat hleaf
    rw [hcell i hi j hj, (get?_key_iff hs.plain_keys).2 ⟨hat, hleaf⟩, Option.bind_some]
  · intro hnone
    have hget : (Leaves.ofValue payload).get? (l.key i j).text = none := by
      rw [Option.eq_none_iff_forall_ne_some]
      intro v hv
      exact hnone ⟨v, (get?_key_iff hs.plain_keys).1 hv⟩
    rw [hcell i hi j hj, hget, Option.bind_none]

end Sheet

end ListPath

/-! ## A list of two tags -/

namespace ListPath

/-- The path of the tags. -/
def Sample.tags : ListPath where
  list := ["tags"]
  field := some []
  list_named := by decide
  field_named := by decide
  admitted := by decide +kernel

/-- Two tags. -/
def Sample.tagged : Value := .map [("tags", .list [.text "new", .text "red"])]

/-- The sample has both tags in a list of its own. -/
theorem Sample.supplied : tags.Supplied tagged 2 1 := by
  have hlist : Value.At tagged ["tags"] (.list [.text "new", .text "red"]) := .field List.mem_cons_self (.here _)
  have htag : ∀ i < 2, tags.HasLeaf tagged i 0 := by
    intro i hi
    obtain rfl | rfl : i = 0 ∨ i = 1 := by omega
    · exact ⟨.text "new", hlist.append (.item rfl (.here _)), rfl⟩
    · exact ⟨.text "red", hlist.append (.item rfl (.here _)), rfl⟩
  have hkeys : tagged.HasPlainKeys := by
    refine Value.hasPlainKeys_map (by decide) (by decide) ?_
    intro field hfield
    cases List.mem_singleton.1 hfield
    refine Value.hasPlainKeys_list ?_
    intro item hitem
    simp only [List.mem_cons, List.not_mem_nil, or_false] at hitem
    obtain rfl | rfl := hitem
    · exact Value.hasPlainKeys_of_isLeaf rfl
    · exact Value.hasPlainKeys_of_isLeaf rfl
  refine ⟨hkeys, ⟨_, hlist⟩, by decide, htag, ?_, ?_, rfl, ?_, ?_⟩
  · intro hleaf
    exact absurd (lt_length_of_hasLeaf hkeys hlist hleaf) (by decide)
  · intro j hj
    obtain rfl : j = 0 := by omega
    exact htag 0 (by decide)
  · -- Behind the name of the list only the position follows.
    intro front next more rest w hkey hne hnext
    cases front with
    | nil => exact absurd rfl hne
    | cons name front =>
      obtain ⟨-, hrest⟩ := List.cons.inj hkey
      cases front with
      | nil => exact absurd (List.cons.inj hrest).1.symm hnext
      | cons position front =>
        have hnone : [] = front ++ next :: more := (List.cons.inj hrest).2
        exact absurd hnone.symm (by simp)
  · intro field rest w _ _ hat
    have hnew : Value.At tagged (["tags"] ++ [Value.position 0]) (.text "new") := hlist.append (.item rfl (.here _))
    rw [Path.position_zero] at hnew
    obtain ⟨x, hx, hbelow⟩ := (show Value.At tagged ((["tags"] ++ ["0"]) ++ Path.wildcard :: rest) w from hat).exists_of_append
    obtain rfl := hkeys.at_unique hx hnew
    cases hbelow

/-- The tags fill two rows. -/
theorem tags_fill_rows : ∃ plan, (Template.empty.put ⟨Layout.Sample.columnB, 3⟩ "[tags.*]").compile Sample.tagged = .ok plan ∧
    plan.rows = [.add 4] ∧ plan.contents.get? ⟨Layout.Sample.columnB, 4⟩ = some (some (.text "red")) := by
  have hcells : (Template.empty.put ⟨Layout.Sample.columnB, 3⟩ "[tags.*]").grid.cells =
      [(⟨Layout.Sample.columnB, 3⟩, Sample.tags.marker)] := by decide +kernel
  obtain ⟨plan, hplan, hrows, -, hcontents, -⟩ := list_fills_rows Sample.supplied rfl hcells (by decide +kernel) (by decide +kernel)
  have hred := (hcontents 1 (by decide) 0 (by decide)).1 (.text "red") (.field List.mem_cons_self (.item rfl (.here _))) rfl
  exact ⟨plan, hplan, hrows, hred⟩

/-- An element without a value ends the rows, whatever follows it: the third element has a value that fills no cell. -/
theorem gap_ends_rows : ∃ plan, (Template.empty.put ⟨Layout.Sample.columnA, 1⟩ "[p.*.q]").compile
      (.map [("p", .list [.map [("q", .int 1)], .map [("r", .int 2)], .map [("q", .int 3)]])]) = .ok plan ∧
    (Leaves.ofValue (.map [("p", .list [.map [("q", .int 1)], .map [("r", .int 2)], .map [("q", .int 3)]])])).contains "p.2.q" = true ∧
    plan.rows = [] ∧ plan.writes ⟨Layout.Sample.columnA, 1⟩ = true ∧ plan.writes ⟨Layout.Sample.columnA, 3⟩ = false := by
  obtain ⟨plan, hplan, hfacts⟩ := Layout.exists_ok_of_any (show
    (((Template.empty.put ⟨Layout.Sample.columnA, 1⟩ "[p.*.q]").compile
      (.map [("p", .list [.map [("q", .int 1)], .map [("r", .int 2)], .map [("q", .int 3)]])])).toOption.any fun plan =>
        plan.rows = [] ∧ plan.writes ⟨Layout.Sample.columnA, 1⟩ = true ∧ plan.writes ⟨Layout.Sample.columnA, 3⟩ = false) = true
    by decide +kernel)
  exact ⟨plan, hplan, by decide +kernel, of_decide_eq_true hfacts⟩

end ListPath
end SheetTemplate

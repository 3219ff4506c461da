import SheetTemplate.Proofs.OutputTexts

/-!
# Templates with cells in one row

A template without merges whose cells all stand in one row is laid out whenever its rows fit on the sheet (`exists_layout_of_loneRow`).
The rows without cells keep their places, those below the row with the cells behind its copies, and only the copies are filled.
-/

namespace SheetTemplate

/-- A grid with one cell has it in a row by itself, and no cells in other rows. -/
theorem Grid.lines_of_single {grid : Grid} {cell : Address} {text : String}
    (h : ∀ other, grid.text? other = if other = cell then some text else none) :
    cell.row ∈ grid.keys ∧ grid.line cell.row = (∅ : Line).insert cell.column text ∧
      ∀ other, other ≠ cell.row → grid.line other = ∅ := by
  refine ⟨?_, ?_, ?_⟩
  · rw [SortedMap.mem_keys_iff]
    cases hget : SortedMap.get? grid cell.row with
    | some line => exact ⟨line, rfl⟩
    | none =>
      have hcell := h cell
      rw [text?, line, hget, if_pos rfl] at hcell
      cases hcell
  · apply SortedMap.ext_get?
    intro column
    have hsame : column = cell.column ↔ (⟨column, cell.row⟩ : Address) = cell := by
      constructor
      · rintro rfl
        rfl
      · exact congrArg Address.column
    simp only [SortedMap.get?_insert, Std.LawfulEqOrd.compare_eq_iff_eq, hsame]
    exact h ⟨column, cell.row⟩
  · intro other hother
    apply SortedMap.ext_get?
    intro column
    have htext := h ⟨column, other⟩
    rw [if_neg fun heq => hother (congrArg Address.row heq)] at htext
    exact htext

namespace Layout

variable {leaves : Leaves} {areas : List Area} {grid : Grid}

/-! ## Steps that go well -/

/-- A row stays if it is not refused and its copies fit on the sheet. -/
theorem step_of_fits {row origin : Nat} {cursor : Cursor} (horigin : (origin : Int) = row + cursor.shift)
    (hrow : 1 ≤ origin ∧ origin ≤ lastRow) (hstays : refuses leaves grid row = false)
    (hneeded : ∀ needed ∈ (expansion leaves areas grid cursor.block row).stacking.neededRows origin, needed ≤ lastRow) :
    step leaves areas row (grid.line row) cursor = .ok ((expansion leaves areas grid cursor.block row).strip cursor.block origin,
      ⟨cursor.shift + (cursor.block.advance (expansion leaves areas grid cursor.block row).stacking.copies
          (expansion leaves areas grid cursor.block row).height).1,
        (cursor.block.advance (expansion leaves areas grid cursor.block row).stacking.copies
          (expansion leaves areas grid cursor.block row).height).2⟩) := by
  have hat : rowAt (row + cursor.shift) = .ok origin := by
    rw [← horigin, rowAt, if_pos (by omega), Int.toNat_natCast]
  rw [step_eq_bind, hat]
  change (if _ then _ else (checkRows _).bind _) = _
  rw [hstays, checkRows_eq_ok_iff.2 hneeded, if_neg fun h => Bool.false_ne_true h.2]
  rfl

/-! ## Rows without merges -/

/-- Without merges the copies beside a cell have none. -/
theorem areas_of_widening {row : Nat} {w : Widening} (h : widening? leaves [] grid row = some w) : w.areas row = [] := by
  simp only [widening?, Widening.ofLine?, Option.bind_eq_bind, Option.bind_eq_some_iff, Option.some.injEq] at h
  obtain ⟨anchor, -, text, -, rfl⟩ := h
  rfl

/-- Without merges a row outside of blocks has its copies directly below it. -/
theorem expansion_of_no_merges (leaves : Leaves) (grid : Grid) (row : Nat) :
    (expansion leaves [] grid .idle row).height = 0 ∧
      (expansion leaves [] grid .idle row).stacking.copies = (repetition leaves grid row).rows ∧
      (expansion leaves [] grid .idle row).stacking.stride = 1 ∧ (expansion leaves [] grid .idle row).stacking.areas = [] := by
  have hareas : ([] : List Area) ++ (expansion leaves [] grid .idle row).widening.elim [] (fun w => w.areas row) = [] := by
    rw [expansion_widening, List.nil_append]
    cases hw : widening? leaves [] grid row with
    | none => rfl
    | some w => exact areas_of_widening hw
  have hheight : (expansion leaves [] grid .idle row).height = 0 := by
    change (if _ then 0 else Stacking.height (([] : List Area) ++
      (expansion leaves [] grid .idle row).widening.elim [] fun w => w.areas row) row _) = 0
    rw [hareas]
    split
    · rfl
    · exact Nat.le_zero.1 (height_le _ fun area harea => absurd harea List.not_mem_nil)
  refine ⟨hheight, rfl, ?_, ?_⟩
  · change (expansion leaves [] grid .idle row).height + 1 = 1
    rw [hheight]
  · change (Stacking.copied _ row _).keys.flatMap (fun column => areasFrom (([] : List Area) ++
      (expansion leaves [] grid .idle row).widening.elim [] fun w => w.areas row) ⟨column, row⟩) = []
    rw [hareas]
    exact List.flatMap_eq_nil_iff.2 fun _ _ => rfl

/-- The strip of a row that stays below `shift` rows that came in. -/
def plainStrip (leaves : Leaves) (grid : Grid) (shift row : Nat) : Strip :=
  (expansion leaves [] grid .idle row).strip .idle (row + shift)

/-- Without merges a row that stays moves the rest of the template behind its copies. -/
theorem step_of_no_merges {row shift : Nat} (hone : 1 ≤ row) (hlast : row + shift + (repetition leaves grid row).rows ≤ lastRow)
    (hstays : refuses leaves grid row = false) : step leaves [] row (grid.line row) ⟨shift, .idle⟩ =
      .ok (plainStrip leaves grid shift row, ⟨(shift + (repetition leaves grid row).rows : Nat), .idle⟩) := by
  obtain ⟨hheight, hcopies, hstride, hareas⟩ := expansion_of_no_merges leaves grid row
  have horigin : ((row + shift : Nat) : Int) = row + (⟨shift, .idle⟩ : Cursor).shift := Int.natCast_add row shift
  rw [step_of_fits horigin ⟨by omega, by omega⟩ hstays]
  · change Except.ok (_, Cursor.mk (shift + (Block.idle.advance (expansion leaves [] grid .idle row).stacking.copies
      (expansion leaves [] grid .idle row).height).1) (Block.idle.advance (expansion leaves [] grid .idle row).stacking.copies
      (expansion leaves [] grid .idle row).height).2) = _
    rw [hheight, hcopies, Block.advance, if_neg fun h => Nat.lt_irrefl 0 h.2, Int.natCast_add]
    rfl
  · intro needed hmem
    obtain ⟨copy, hcopy, hneeded⟩ := List.mem_flatMap.1 hmem
    change copy ∈ List.range' 1 (expansion leaves [] grid .idle row).stacking.copies at hcopy
    rw [List.mem_range'_1, hcopies] at hcopy
    change needed ∈ (row + shift + copy * (expansion leaves [] grid .idle row).stacking.stride) ::
      ((expansion leaves [] grid .idle row).stacking.areas.map _) at hneeded
    rw [hareas, hstride, List.map_nil, List.mem_singleton] at hneeded
    omega

/-! ## Rows without cells -/

/-- A row without cells asks for nothing. -/
theorem repetition_of_blank (leaves : Leaves) {row : Nat} (h : grid.line row = ∅) : repetition leaves grid row = ⟨0, 0, none⟩ := by
  rw [repetition, h]
  rfl

theorem refuses_of_blank {row : Nat} (h : grid.line row = ∅) : refuses leaves grid row = false := by
  rw [refuses, groundedLine, h]
  rfl

/-- A row without cells holds none anywhere. -/
theorem copyText?_of_blank {row : Nat} (h : grid.line row = ∅) (copies copy : Nat) (column : Column) :
    copyText? leaves [] grid row copies copy column = none := by
  have hown : ownText? leaves [] grid row copies column = none := by
    rw [ownText?, widening?, repetition_of_blank leaves h, groundedLine, h]
    rfl
  rw [copyText?, hown]
  split <;> rfl

/-- Rows without cells stay one below the other. -/
theorem walk_blank {rows : List Nat} {shift : Nat} (hblank : ∀ row ∈ rows, grid.line row = ∅)
    (hfit : ∀ row ∈ rows, 1 ≤ row ∧ row + shift ≤ lastRow) :
    walk leaves [] grid rows ⟨shift, .idle⟩ = .ok (rows.map (plainStrip leaves grid shift), ⟨shift, .idle⟩) := by
  induction rows with
  | nil => rfl
  | cons row rest ih =>
    have hrow := hblank row List.mem_cons_self
    obtain ⟨hone, hlast⟩ := hfit row List.mem_cons_self
    have hrepetition := repetition_of_blank leaves hrow
    have hfits : row + shift + (repetition leaves grid row).rows ≤ lastRow := by
      rw [hrepetition]
      exact hlast
    have hstep := step_of_no_merges hone hfits (refuses_of_blank hrow)
    rw [hrepetition] at hstep
    change (step leaves [] row (grid.line row) ⟨shift, .idle⟩).bind _ = _
    rw [hstep]
    change (walk leaves [] grid rest ⟨shift, .idle⟩).bind _ = _
    rw [ih (fun other hmem => hblank other (List.mem_cons_of_mem _ hmem)) fun other hmem => hfit other (List.mem_cons_of_mem _ hmem)]
    rfl

/-- The strips of rows without cells add no rows. -/
theorem actions_of_blank {rows : List Nat} (hblank : ∀ row ∈ rows, grid.line row = ∅) (shift : Nat) :
    (rows.map (plainStrip leaves grid shift)).flatMap (·.actions) = [] := by
  rw [List.flatMap_map]
  refine List.flatMap_eq_nil_iff.2 fun row hmem => ?_
  obtain ⟨hheight, hcopies, hstride, -⟩ := expansion_of_no_merges leaves grid row
  change ((expansion leaves [] grid .idle row).addedRows .idle (row + shift)).map RowAction.add = []
  rw [Expansion.addedRows, if_pos rfl, hcopies, repetition_of_blank leaves (hblank row hmem), Nat.zero_mul]
  rfl

/-! ## One row with cells -/

/-- Without merges the rows in use are those between rows of the template. -/
theorem mem_usedRows_nil {used : Nat} : used ∈ usedRows [] grid ↔
    (∃ first ∈ grid.keys, first ≤ used) ∧ ∃ last ∈ grid.keys, used ≤ last := by
  rw [mem_usedRows, List.flatMap_nil, List.append_nil]

/-- The walk goes over rows without cells, the row with the cells, and again rows without cells. -/
theorem walk_of_loneRow {above below : List Nat} {row : Nat} (hblank : ∀ other ∈ above ++ below, grid.line other = ∅)
    (hfit : ∀ used ∈ above ++ row :: below, 1 ≤ used ∧ used + (repetition leaves grid row).rows ≤ lastRow)
    (hstays : refuses leaves grid row = false) : walk leaves [] grid (above ++ row :: below) ⟨0, .idle⟩ =
      .ok (above.map (plainStrip leaves grid 0) ++
        plainStrip leaves grid 0 row :: below.map (plainStrip leaves grid (repetition leaves grid row).rows),
          ⟨(repetition leaves grid row).rows, .idle⟩) := by
  have habove : walk leaves [] grid above ⟨0, .idle⟩ = .ok (above.map (plainStrip leaves grid 0), ⟨0, .idle⟩) := by
    change walk leaves [] grid above ⟨((0 : Nat) : Int), .idle⟩ = _
    refine walk_blank (fun other hmem => hblank other (List.mem_append_left _ hmem)) ?_
    intro other hmem
    have hother := hfit other (List.mem_append_left _ hmem)
    omega
  have hstep : step leaves [] row (grid.line row) ⟨0, .idle⟩ =
      .ok (plainStrip leaves grid 0 row, ⟨(repetition leaves grid row).rows, .idle⟩) := by
    obtain ⟨hone, hlast⟩ := hfit row (by simp)
    have hnext := step_of_no_merges hone (show row + 0 + (repetition leaves grid row).rows ≤ lastRow from hlast) hstays
    rw [Nat.zero_add] at hnext
    exact hnext
  have hbelow : walk leaves [] grid below ⟨((repetition leaves grid row).rows : Nat), .idle⟩ =
      .ok (below.map (plainStrip leaves grid (repetition leaves grid row).rows), ⟨(repetition leaves grid row).rows, .idle⟩) :=
    walk_blank (fun other hmem => hblank other (List.mem_append_right above hmem)) fun other hmem => hfit other (by simp [hmem])
  rw [walk_append, habove]
  change ((step leaves [] row (grid.line row) ⟨0, .idle⟩).bind _).map _ = _
  rw [hstep]
  change ((walk leaves [] grid below ⟨(repetition leaves grid row).rows, .idle⟩).bind _).map _ = _
  rw [hbelow]
  rfl

/-- A template with cells in one row only, which is not refused, has a layout if all its rows fit on the sheet. -/
theorem exists_layout_of_loneRow {row : Nat} (hrow : row ∈ grid.keys) (hblank : ∀ other, other ≠ row → grid.line other = ∅)
    (hfit : ∀ used ∈ grid.keys, 1 ≤ used ∧ used + (repetition leaves grid row).rows ≤ lastRow)
    (hstays : refuses leaves grid row = false) :
    ∃ layout, ofTemplate leaves [] grid = .ok layout ∧
      layout.fate? row = some (.placed row (repetition leaves grid row).rows 1) ∧
      (layout.scaffold []).rows = (List.range' (row + 1) (repetition leaves grid row).rows).map .add := by
  obtain ⟨hheight, hcopies, hstride, -⟩ := expansion_of_no_merges leaves grid row
  have hused : row ∈ usedRows [] grid := mem_usedRows_nil.2 ⟨⟨row, hrow, Nat.le_refl _⟩, row, hrow, Nat.le_refl _⟩
  have hbounds : ∀ used ∈ usedRows [] grid, 1 ≤ used ∧ used + (repetition leaves grid row).rows ≤ lastRow := by
    intro used hmem
    obtain ⟨⟨first, hfirst, hle⟩, last, hlast, hle'⟩ := mem_usedRows_nil.1 hmem
    have h1 := hfit first hfirst
    have h2 := hfit last hlast
    omega
  have hzero : grid.contains 0 = false := by
    rw [Bool.eq_false_iff]
    intro hcontains
    rw [SortedMap.contains, Option.isSome_iff_exists] at hcontains
    have hpos := (hfit 0 ((SortedMap.mem_keys_iff _ _).2 hcontains)).1
    omega
  obtain ⟨above, below, hsplit⟩ := List.append_of_mem hused
  have hothers : ∀ other ∈ above ++ below, other ≠ row := by
    have hnodup : (above ++ row :: below).Nodup := by
      obtain ⟨first, stop, -, hrange, -⟩ := usedRows_eq [] grid
      rw [← hsplit, hrange]
      exact List.nodup_range' 1
    rintro other hmem rfl
    exact (List.nodup_cons.1 (List.nodup_middle.1 hnodup)).1 hmem
  rw [hsplit] at hbounds
  have hwalk := walk_of_loneRow (fun other hmem => hblank other (hothers other hmem)) hbounds hstays
  refine ⟨_, by rw [ofTemplate, hzero, if_neg Bool.false_ne_true, hsplit, hwalk]; rfl, ?_, ?_⟩
  · have hnone : (above.map (plainStrip leaves grid 0)).find? (fun strip => strip.row = row) = none := by
      rw [List.find?_eq_none]
      intro strip hmem
      obtain ⟨other, hother, rfl⟩ := List.mem_map.1 hmem
      exact fun heq => hothers other (List.mem_append_left _ hother) (of_decide_eq_true heq)
    have hfound : ∀ rest, (plainStrip leaves grid 0 row :: rest).find? (fun strip => strip.row = row) =
        some (plainStrip leaves grid 0 row) := fun _ => List.find?_cons_of_pos (decide_eq_true rfl)
    change (List.find? _ _).map Strip.fate = _
    rw [List.find?_append, hnone, Option.none_or, hfound]
    change some (Fate.placed row (expansion leaves [] grid .idle row).stacking.copies
      (expansion leaves [] grid .idle row).stacking.stride) = _
    rw [hcopies, hstride]
  · change List.flatMap Strip.actions _ = _
    rw [List.flatMap_append, List.flatMap_cons,
      actions_of_blank fun other hmem => hblank other (hothers other (List.mem_append_left _ hmem)),
      actions_of_blank fun other hmem => hblank other (hothers other (List.mem_append_right _ hmem)), List.nil_append, List.append_nil]
    change ((expansion leaves [] grid .idle row).addedRows .idle row).map RowAction.add = _
    rw [Expansion.addedRows, if_pos rfl, hheight, hcopies, hstride, Nat.mul_one, Nat.add_zero]

variable {layout : Layout}

/-- Only the copies of the row with cells are filled. -/
theorem text?_of_loneRow (h : ofTemplate leaves [] grid = .ok layout) {row copies : Nat}
    (hblank : ∀ other, other ≠ row → grid.line other = ∅) (hfate : layout.fate? row = some (.placed row copies 1))
    (hfits : ∀ w, widening? leaves [] grid row = some w → w.Fits) (column : Column) :
    (∀ copy ≤ copies, layout.grid.text? ⟨column, row + copy⟩ = copyText? leaves [] grid row copies copy column) ∧
      ∀ place, ¬(row ≤ place ∧ place ≤ row + copies) → layout.grid.text? ⟨column, place⟩ = none := by
  constructor
  · intro copy hcopy
    have htext := text?_of_placed h hfate hfits hcopy column
    rw [Nat.mul_one] at htext
    exact htext
  · intro place hplace
    by_cases hstands : ∃ other copy, layout.Stands other copy place
    · obtain ⟨other, copy, origin, copies', stride, hfate', hcopy, rfl⟩ := hstands
      by_cases hother : other = row
      · subst hother
        rw [hfate] at hfate'
        cases hfate'
        exact absurd ⟨by omega, by omega⟩ hplace
      · have hnone : ∀ w, widening? leaves [] grid other = some w → w.Fits := by
          intro w hw
          rw [widening?, repetition_of_blank leaves (hblank other hother)] at hw
          cases hw
        rw [text?_of_placed h hfate' hnone hcopy column]
        exact copyText?_of_blank (hblank other hother) _ _ _
    · exact text?_of_not_stands h (fun other copy hstands' => hstands ⟨other, copy, hstands'⟩) column

end Layout
end SheetTemplate

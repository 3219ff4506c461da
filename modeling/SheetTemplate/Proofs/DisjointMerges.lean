import Mathlib.Data.List.Pairwise
import SheetTemplate.Proofs.LoneRow
import SheetTemplate.Proofs.MergePlacement

/-!
# Merges of the output do not overlap

Where nothing repeats across and the merges of the template share no cells, the ranges of the output share none, with one exception: a
merge that begins in a block that is repeated and reaches past it. It stands over all copies of the block, so nothing that the block takes
along may have a column with it (`ranges_disjoint_iff`). A merge that the block takes along keeps its height in every copy, so it must
not reach past the block itself (`nested_merge_overlaps`).
-/

namespace SheetTemplate

/-! ## Areas without common cells -/

namespace Area

/-- Two areas have no cell in common. -/
def Disjoint (a b : Area) : Prop :=
  a.bottom < b.top ∨ b.bottom < a.top ∨ a.right.index < b.left.index ∨ b.right.index < a.left.index

instance (a b : Area) : Decidable (a.Disjoint b) := inferInstanceAs (Decidable (_ ∨ _))

/-- Two areas have a column in common. -/
def SharesColumn (a b : Area) : Prop := a.left.index ≤ b.right.index ∧ b.left.index ≤ a.right.index

theorem Disjoint.symm {a b : Area} (h : a.Disjoint b) : b.Disjoint a := by
  rw [Disjoint] at h ⊢
  omega

instance : Std.Symm Area.Disjoint := ⟨fun _ _ => Disjoint.symm⟩

theorem SharesColumn.refl (a : Area) : a.SharesColumn a := ⟨a.left_le, a.left_le⟩

/-- Disjoint areas with a common column lie one above the other. -/
theorem Disjoint.above_or_below {a b : Area} (h : a.Disjoint b) (hcolumn : a.SharesColumn b) :
    a.bottom < b.top ∨ b.bottom < a.top := by
  rw [Disjoint] at h
  rw [SharesColumn] at hcolumn
  omega

/-- The same area from another row on. -/
def startingAt (m : Area) (top : Nat) : Area := m.withRows top (top + m.height)

theorem startingAt_eq (m : Area) (top : Nat) :
    m.startingAt top = { m with top, bottom := top + m.height, top_le := Nat.le_add_right _ _ } :=
  m.withRows_eq (Nat.le_add_right _ _)

theorem bottom_eq (m : Area) : m.bottom = m.top + m.height := by
  have htop := m.top_le
  rw [height]
  omega

end Area

namespace Layout

variable {leaves : Leaves} {areas : List Area} {grid : Grid} {row origin row' origin' : Nat} {bands : List Band} {layout : Layout}
  {area range : Area} {top o height copies : Nat}

/-! ## Where a merge stands beside a band -/

section Bands

variable (h : Laid leaves areas grid row origin bands row' origin')
  (hs : layout.strips = bands.flatMap (Band.strips leaves areas grid))
  (hplace : layout.place? area = some range) (htop : row ≤ area.top) (hbottom : area.bottom < row')
include h hs hplace htop hbottom

/-- The band in which a merge begins to stand and the band in which it ends. -/
theorem Laid.ends_of_place : ∃ first last, layout.Spans area first last ∧ ∃ top o height copies place top' o' height' copies' place',
    .kept top o height copies ∈ bands ∧ place ≤ height ∧ first = top + place ∧
      .kept top' o' height' copies' ∈ bands ∧ place' ≤ height' ∧ last = top' + place' ∧
      range.left = area.left ∧ range.right = area.right ∧ range.top = o + place ∧
      ((last = area.bottom ∧ range.bottom = o' + place') ∨
        (last < area.bottom ∧ place' = height' ∧ range.bottom + 1 = o' + (copies' + 1) * (height' + 1))) := by
  have hex : ∃ row ∈ area.rows, layout.isDeleted row = false := by
    by_contra hnone
    have hall : ∀ row ∈ area.rows, layout.isDeleted row = true := by simpa using hnone
    rw [place?, List.all_eq_true.2 hall, if_pos rfl] at hplace
    cases hplace
  obtain ⟨first, last, hspans⟩ := exists_spans hex
  obtain ⟨top, o, height, copies, place, top', o', height', copies', place', bottom, hb, hle, hfirst, hb', hle', hlast, hbottom',
    hstands, hend, hrange⟩ := h.exists_place hs hspans htop hbottom
  rw [hrange, area.withRows_eq hstands] at hplace
  cases hplace
  refine ⟨first, last, hspans, top, o, height, copies, place, top', o', height', copies', place', hb, hle, hfirst, hb', hle', hlast, rfl,
    rfl, rfl, ?_⟩
  rcases Nat.eq_or_lt_of_le hspans.le_bottom with heq | hlt
  · rw [if_pos heq] at hbottom'
    exact Or.inl ⟨heq, hbottom'⟩
  · rw [if_neg (Nat.ne_of_lt hlt)] at hbottom'
    obtain ⟨rfl, -⟩ := hend hlt
    have hlowest : bottom + 1 = o' + (copies' + 1) * (place' + 1) := by rw [hbottom', end_of_kept]
    exact Or.inr ⟨hlt, rfl, hlowest⟩

/-- A merge stands in its own columns. -/
theorem Laid.columns_of_place : range.left = area.left ∧ range.right = area.right := by
  obtain ⟨_, _, -, _, _, _, _, _, _, _, _, _, _, -, -, -, -, -, -, hleft, hright, -⟩ := h.ends_of_place hs hplace htop hbottom
  exact ⟨hleft, hright⟩

/-- A merge below a band stands below its copies. -/
theorem Laid.place_below {b : Band} (hb : b ∈ bands) (hbelow : b.nextRow ≤ area.top) : b.nextOrigin ≤ range.top := by
  obtain ⟨first, last, hspans, top, o, height, copies, place, _, _, _, _, _, hfirst, hle, rfl, -, -, -, -, -, hrange, -⟩ :=
    h.ends_of_place hs hplace htop hbottom
  have hrow := hspans.top_le
  rw [hrange]
  rcases h.order hb hfirst with rfl | horder | horder
  · simp only [Band.nextRow] at hbelow
    omega
  · simp only [Band.origin] at horder
    omega
  · simp only [Band.nextRow] at horder
    have hlt := b.row_lt_nextRow
    omega

/-- A merge above a band stands above it. -/
theorem Laid.place_above {b : Band} (hb : b ∈ bands) (habove : area.bottom < b.row) : range.bottom < b.origin := by
  obtain ⟨first, last, hspans, _, _, _, _, _, top, o, height, copies, place, -, -, -, hlast, hle, rfl, -, -, -, hrange⟩ :=
    h.ends_of_place hs hplace htop hbottom
  have hrow := hspans.le_bottom
  have hlt : o + place < o + (copies + 1) * (height + 1) := place_lt hle
  rcases h.order hlast hb with rfl | horder | horder
  · simp only [Band.row] at habove
    omega
  · simp only [Band.nextOrigin] at horder
    omega
  · simp only [Band.row] at horder
    have hlt := b.row_lt_nextRow
    omega

/-- A merge that ends in a band that stays ends there with the rows of the band itself. -/
theorem Laid.place_ends (hb : .kept top o height copies ∈ bands) (hin : top ≤ area.bottom ∧ area.bottom ≤ top + height) :
    range.bottom ≤ o + height := by
  obtain ⟨first, last, hspans, _, _, _, _, _, top', o', height', copies', place', -, -, -, hlast, hle, rfl, -, -, -, hrange⟩ :=
    h.ends_of_place hs hplace htop hbottom
  have hstays := (h.isDeleted_eq hs).2 _ _ _ _ hb (area.bottom - top) (by omega)
  rw [show top + (area.bottom - top) = area.bottom by omega] at hstays
  rcases hrange with ⟨heq, hrange⟩ | ⟨hlt, -⟩
  · have hsame := h.eq_of_rows (r := area.bottom) hb hlast (by simp only [Band.row, Band.nextRow]; omega)
      (by simp only [Band.row, Band.nextRow]; omega)
    cases hsame
    omega
  · rw [hspans.gone_below area.bottom hlt (Nat.le_refl _)] at hstays
    cases hstays

/-- A merge that begins in a band that stays or above it, and reaches past it, stands over all copies of the band. -/
theorem Laid.place_over (hb : .kept top o height copies ∈ bands) (habove : area.top ≤ top + height)
    (hpast : top + height < area.bottom) : range.top ≤ o + height ∧ o + (copies + 1) * (height + 1) ≤ range.bottom + 1 := by
  obtain ⟨first, last, hspans, top', o', height', copies', place', top'', o'', height'', copies'', place'', hfirst, hle', rfl, hlast,
    hle'', rfl, -, -, hrange, hrange'⟩ := h.ends_of_place hs hplace htop hbottom
  have hstays := (h.isDeleted_eq hs).2 _ _ _ _ hb height (Nat.le_refl _)
  have hlt' : o' + place' < o' + (copies' + 1) * (height' + 1) := place_lt hle'
  have hlt'' : o'' + place'' < o'' + (copies'' + 1) * (height'' + 1) := place_lt hle''
  have habove' : top' + place' ≤ top + height := by
    by_contra hlt
    rw [hspans.gone_above (top + height) habove (by omega)] at hstays
    cases hstays
  have hpast' : top + height ≤ top'' + place'' := by
    by_contra hlt
    rw [hspans.gone_below (top + height) (by omega) (by omega)] at hstays
    cases hstays
  constructor
  · rw [hrange]
    rcases h.order hb hfirst with hsame | horder | horder
    · cases hsame
      omega
    · simp only [Band.nextRow, Band.row] at horder
      omega
    · simp only [Band.nextOrigin, Band.origin] at horder
      omega
  · rcases h.order hb hlast with hsame | horder | horder
    · cases hsame
      omega
    · simp only [Band.nextOrigin, Band.origin] at horder
      omega
    · simp only [Band.nextRow, Band.row] at horder
      omega

/-- Of two merges one of which ends above the other, the same holds of their places. -/
theorem Laid.range_lt {other range' : Area} (hplace' : layout.place? other = some range') (htop' : row ≤ other.top)
    (hbottom' : other.bottom < row') (hlt : area.bottom < other.top) : range.bottom < range'.top := by
  obtain ⟨first, last, hspans, _, _, _, _, _, top, o, height, copies, place, -, -, -, hlast, hle, rfl, -, -, -, hrange⟩ :=
    h.ends_of_place hs hplace htop hbottom
  obtain ⟨first', last', hspans', top', o', height', copies', place', _, _, _, _, _, hfirst', hle', rfl, -, -, -, -, -, hrange', -⟩ :=
    h.ends_of_place hs hplace' htop' hbottom'
  have hrow := hspans.le_bottom
  have hrow' := hspans'.top_le
  have hend : o + place < o + (copies + 1) * (height + 1) := place_lt hle
  rcases h.order hlast hfirst' with hsame | horder | horder
  · cases hsame
    -- In one band the upper merge ends with its own last row.
    rcases hrange with ⟨-, hrange⟩ | ⟨-, rfl, -⟩
    · omega
    · omega
  · simp only [Band.nextOrigin, Band.origin] at horder
    omega
  · simp only [Band.nextRow, Band.row] at horder
    omega

end Bands

/-! ## The ranges of the output -/

/-- Whether the cell that a merge begins in holds a value: then copies of its row take the merge along. -/
def HoldsValue (grid : Grid) (area : Area) : Prop := ∃ text, grid.text? area.anchor = some text ∧ Marker.valueInText text = true

/-- A range of the output that a copy of a row of a band has taken along. -/
structure Copied (grid : Grid) (bands : List Band) (area range : Area) (top o height copies place copy : Nat) : Prop where
  band : .kept top o height copies ∈ bands
  place_le : place ≤ height
  one_le : 1 ≤ copy
  copy_le : copy ≤ copies
  begins : area.top = top + place
  value : HoldsValue grid area
  range_eq : range = area.startingAt (o + place + copy * (height + 1))

/-- The cell that a merge begins in is copied exactly if it holds a value. -/
theorem exists_copied_iff (hcolumns : (repetition leaves grid area.top).columns = 0) (harea : area ∈ areas) {block : Block}
    (hcopies : (expansion leaves areas grid block area.top).stacking.copies ≠ 0) :
    (∃ text, (expansion leaves areas grid block area.top).stacking.line.get? area.left = some text) ↔ HoldsValue grid area := by
  have hnone : widening? leaves areas grid area.top = none := widening?_eq_none hcolumns
  have hbegins : (areasFrom areas ⟨area.left, area.top⟩).isEmpty = false :=
    List.isEmpty_eq_false_iff.2 (List.ne_nil_of_mem (List.mem_filter.2 ⟨harea, decide_eq_true rfl⟩))
  rw [get?_expansion_stacking block (by simp [hnone]), ownText?, hnone, hbegins, groundedLine, SortedMap.get?_mapValues, HoldsValue,
    Grid.text?, Area.anchor]
  cases (grid.line area.top).get? area.left with
  | none => simp
  | some text => simp [hcopies, Option.filter_some, Marker.valueInText_ground]

/-- Where nothing repeats across, the ranges of the output are the places of merges and the merges that copies take along. -/
theorem Laid.mem_scaffold_areas_iff (h : Laid leaves areas grid row origin bands row' origin')
    (hs : layout.strips = bands.flatMap (Band.strips leaves areas grid)) (hok : ofTemplate leaves areas grid = .ok layout)
    (hcolumns : ∀ row, (repetition leaves grid row).columns = 0) :
    range ∈ (layout.scaffold areas).areas.keys ↔ (∃ area ∈ areas, layout.place? area = some range) ∨
      ∃ area ∈ areas, ∃ top o height copies place copy, Copied grid bands area range top o height copies place copy := by
  rw [mem_scaffold_areas, or_comm]
  refine or_congr_right ?_
  constructor
  · rintro ⟨strip, hstrip, hmem⟩
    rcases strip_cases hok hstrip with ⟨row, origin, rfl⟩ | ⟨row, block, origin, copies, stride, hfate, hcopies, hstride, rfl⟩
    · cases hmem
    · rcases mem_strip_areas.1 hmem with ⟨w, hw, -⟩ | ⟨copy, hone, hcopy, area, htaken, rfl⟩
      · rw [widening?_eq_none (hcolumns row)] at hw
        cases hw
      · obtain ⟨harea | ⟨w, hw, -⟩, rfl, htext⟩ := mem_stacking_areas.1 htaken
        · obtain ⟨top, o, height, place, hb, hplace, hrow, rfl, rfl⟩ := (h.placed_iff hs).1 hfate
          have hvalue := (exists_copied_iff (hcolumns _) harea (Nat.one_le_iff_ne_zero.1 (hone.trans hcopy))).1 htext
          rw [hcopies] at hcopy
          rw [hstride]
          exact ⟨area, harea, top, o, height, copies, place, copy, hb, hplace, hone, hcopy, hrow, hvalue, rfl⟩
        · rw [widening?_eq_none (hcolumns _)] at hw
          cases hw
  · rintro ⟨area, harea, top, o, height, copies, place, copy, hcopied⟩
    have hfate := h.fate_kept hs hcopied.band hcopied.place_le
    rw [← hcopied.begins] at hfate
    obtain ⟨block, hcopies, hstride, hstrip⟩ := exists_strip hok hfate
    have hne : (expansion leaves areas grid block area.top).stacking.copies ≠ 0 := by
      rw [hcopies]
      exact Nat.one_le_iff_ne_zero.1 (hcopied.one_le.trans hcopied.copy_le)
    have htext := (exists_copied_iff (hcolumns _) harea hne).2 hcopied.value
    refine ⟨_, hstrip, mem_strip_areas.2 (Or.inr ⟨copy, hcopied.one_le, ?_, area,
      mem_stacking_areas.2 ⟨Or.inl harea, rfl, htext⟩, ?_⟩)⟩
    · rw [hcopies]
      exact hcopied.copy_le
    · rw [hcopied.range_eq, hstride, Area.startingAt]

/-! ## Blocks that are repeated -/

/-- Nothing that a repeated block takes along has a column in common with a merge that begins in the block and reaches past it. -/
def BlocksClear (leaves : Leaves) (areas : List Area) (grid : Grid) : Prop :=
  ∀ top, Opens leaves areas grid top → refuses leaves grid top = false → 1 ≤ (repetition leaves grid top).rows →
    ∀ area ∈ areas, top ≤ area.top → area.top ≤ top + ownHeight leaves areas grid top →
      top + ownHeight leaves areas grid top < area.bottom →
    ∀ copied ∈ areas, top ≤ copied.top → copied.top ≤ top + ownHeight leaves areas grid top → HoldsValue grid copied →
      ¬area.SharesColumn copied

variable {stop bottom : Nat} {other copied range' : Area} {top' o' height' copies' place place' copy copy' : Nat}

/-- A merge that a copy takes along keeps to the rows of that copy if it does not reach past its block. -/
theorem Copied.rows (h : Copied grid bands area range top o height copies place copy) (hin : area.bottom ≤ top + height) :
    range.left = area.left ∧ range.right = area.right ∧ range.top = o + place + copy * (height + 1) ∧
      range.bottom = range.top + area.height ∧ range.bottom ≤ o + height + copy * (height + 1) ∧ o + height < range.top ∧
      range.bottom < o + (copies + 1) * (height + 1) := by
  have hbegins := h.begins
  have hbottom := area.bottom_eq
  have hbelow : o + height < o + place + copy * (height + 1) := lt_copy h.one_le
  have hlast : o + height + copy * (height + 1) < o + (copies + 1) * (height + 1) := copy_lt (Nat.le_refl _) h.copy_le
  rw [h.range_eq, area.startingAt_eq]
  exact ⟨rfl, rfl, rfl, rfl, by simp only; omega, hbelow, by simp only; omega⟩

/-- Merges that copies take along have no cell in common. -/
theorem Laid.copied_disjoint (h : Laid leaves areas grid row origin bands row' origin')
    (hcopied : Copied grid bands area range top o height copies place copy) (hin : area.bottom ≤ top + height)
    (hcopied' : Copied grid bands other range' top' o' height' copies' place' copy') (hin' : other.bottom ≤ top' + height')
    (hdisjoint : area ≠ other → area.Disjoint other) (hne : range ≠ range') : range.Disjoint range' := by
  obtain ⟨hleft, hright, htop, hbottom, hcopy, hbelow, hend⟩ := hcopied.rows hin
  obtain ⟨hleft', hright', htop', hbottom', hcopy', hbelow', hend'⟩ := hcopied'.rows hin'
  have hbegins := hcopied.begins
  have hbegins' := hcopied'.begins
  rcases h.order hcopied.band hcopied'.band with hsame | horder | horder
  · cases hsame
    rcases Nat.lt_trichotomy copy copy' with hlt | rfl | hlt
    · -- An earlier copy of the block ends above a later one.
      have hmul : (copy + 1) * (height + 1) ≤ copy' * (height + 1) := Nat.mul_le_mul_right _ hlt
      rw [Nat.succ_mul] at hmul
      exact Or.inl (by omega)
    · have hareas : area ≠ other := by
        rintro rfl
        obtain rfl : place = place' := by omega
        exact hne (hcopied.range_eq.trans hcopied'.range_eq.symm)
      have hcells := hdisjoint hareas
      have hrows := area.bottom_eq
      have hrows' := other.bottom_eq
      rw [Area.Disjoint] at hcells ⊢
      rw [hleft, hright, hleft', hright']
      omega
    · have hmul : (copy' + 1) * (height + 1) ≤ copy * (height + 1) := Nat.mul_le_mul_right _ hlt
      rw [Nat.succ_mul] at hmul
      exact Or.inr (Or.inl (by omega))
  · simp only [Band.nextOrigin, Band.origin] at horder
    exact Or.inl (by omega)
  · simp only [Band.nextOrigin, Band.origin] at horder
    exact Or.inr (Or.inl (by omega))

/-- A merge that a copy takes along has no cell in common with the place of a merge, unless that begins in the block and reaches past
it. -/
theorem Laid.copied_disjoint_place (h : Laid leaves areas grid row origin bands row' origin')
    (hs : layout.strips = bands.flatMap (Band.strips leaves areas grid))
    (hcopied : Copied grid bands copied range top o height copies place copy) (hin : copied.bottom ≤ top + height)
    (hplace : layout.place? area = some range') (htop : row ≤ area.top) (hbottom : area.bottom < row')
    (hdisjoint : area ≠ copied → area.Disjoint copied)
    (hclear : top ≤ area.top → area.top ≤ top + height → top + height < area.bottom → ¬area.SharesColumn copied) :
    range.Disjoint range' := by
  obtain ⟨hleft, hright, -, -, -, hbelow, hend⟩ := hcopied.rows hin
  obtain ⟨hleft', hright'⟩ := h.columns_of_place hs hplace htop hbottom
  rcases Nat.lt_or_ge (top + height) area.top with hlt | hge
  · have hrange := h.place_below hs hplace htop hbottom hcopied.band (by simp only [Band.nextRow]; omega)
    simp only [Band.nextOrigin] at hrange
    exact Or.inl (by omega)
  · rcases Nat.lt_or_ge (top + height) area.bottom with hpast | hends
    · -- The merge stands over all copies of the block, so the columns have to differ.
      have hcolumns : ¬area.SharesColumn copied := by
        rcases Nat.lt_or_ge area.top top with habove | hbegins
        · intro hcolumn
          have hrow := hcopied.begins
          have hle := hcopied.place_le
          have hcopied' := copied.top_le
          have hcells : area.Disjoint copied := hdisjoint (by rintro rfl; omega)
          rcases hcells.above_or_below hcolumn with hlt | hlt
          · omega
          · omega
        · exact hclear hbegins hge hpast
      rw [Area.SharesColumn] at hcolumns
      rw [Area.Disjoint, hleft, hright, hleft', hright']
      omega
    · rcases Nat.lt_or_ge area.bottom top with habove | hin
      · have hrange := h.place_above hs hplace htop hbottom hcopied.band habove
        simp only [Band.origin] at hrange
        exact Or.inr (Or.inl (by omega))
      · have hrange := h.place_ends hs hplace htop hbottom hcopied.band ⟨hin, hends⟩
        exact Or.inr (Or.inl (by omega))

/-- The place of a merge that begins in a repeated block and reaches past it covers the first row of everything in its columns that the
block takes along. -/
theorem Laid.exists_overlap (h : Laid leaves areas grid row origin bands row' origin')
    (hs : layout.strips = bands.flatMap (Band.strips leaves areas grid)) (hb : .kept top o height copies ∈ bands)
    (hcopies : 1 ≤ copies) (htop : row ≤ area.top) (hbottom : area.bottom < row') (hbegins : top ≤ area.top ∧ area.top ≤ top + height)
    (hpast : top + height < area.bottom) (hbegins' : top ≤ copied.top ∧ copied.top ≤ top + height) (hvalue : HoldsValue grid copied)
    (hcolumn : area.SharesColumn copied) :
    ∃ range, layout.place? area = some range ∧ ∃ range', Copied grid bands copied range' top o height copies (copied.top - top) 1 ∧
      range ≠ range' ∧ ¬range.Disjoint range' := by
  have hstays : layout.isDeleted area.top = false := by
    rw [show area.top = top + (area.top - top) by omega]
    exact (h.isDeleted_eq hs).2 _ _ _ _ hb (area.top - top) (by omega)
  obtain ⟨first, last, hspans⟩ := exists_spans ⟨area.top, Area.mem_rows.2 ⟨Nat.le_refl _, area.top_le⟩, hstays⟩
  obtain ⟨_, _, _, _, _, _, _, _, _, _, _, -, -, -, -, -, -, -, -, -, hplace⟩ := h.exists_place hs hspans htop hbottom
  obtain ⟨hle, hge⟩ := h.place_over hs hplace htop hbottom hb hbegins.2 hpast
  obtain ⟨hleft, hright⟩ := h.columns_of_place hs hplace htop hbottom
  have hbelow : o + height < o + (copied.top - top) + 1 * (height + 1) := lt_copy (Nat.le_refl 1)
  have hlast : o + (copied.top - top) + 1 * (height + 1) < o + (copies + 1) * (height + 1) := copy_lt (by omega) hcopies
  have hcells := copied.startingAt_eq (o + (copied.top - top) + 1 * (height + 1))
  refine ⟨_, hplace, _, ⟨hb, by omega, Nat.le_refl 1, hcopies, by omega, hvalue, rfl⟩, ?_, ?_⟩
  · intro heq
    rw [heq, hcells] at hle
    simp only at hle
    omega
  · rw [Area.Disjoint, hleft, hright, hcells]
    rw [Area.SharesColumn] at hcolumn
    simp only
    omega

/-- Places of different merges have no cell in common. -/
theorem Laid.places_disjoint (h : Laid leaves areas grid row origin bands row' origin')
    (hs : layout.strips = bands.flatMap (Band.strips leaves areas grid)) (hplace : layout.place? area = some range)
    (htop : row ≤ area.top) (hbottom : area.bottom < row') (hplace' : layout.place? other = some range') (htop' : row ≤ other.top)
    (hbottom' : other.bottom < row') (hdisjoint : area.Disjoint other) : range.Disjoint range' := by
  obtain ⟨hleft, hright⟩ := h.columns_of_place hs hplace htop hbottom
  obtain ⟨hleft', hright'⟩ := h.columns_of_place hs hplace' htop' hbottom'
  rcases hdisjoint with hlt | hlt | hcolumns
  · exact Or.inl (h.range_lt hs hplace htop hbottom hplace' htop' hbottom' hlt)
  · exact Or.inr (Or.inl (h.range_lt hs hplace' htop' hbottom' hplace htop hbottom hlt))
  · rw [Area.Disjoint, hleft, hright, hleft', hright']
    exact Or.inr (Or.inr hcolumns)

section Blocks

variable (hlaid : Laid leaves areas grid (firstRow areas grid) (firstRow areas grid) bands stop bottom)
include hlaid

/-- What a clear block says of the band that it is. -/
theorem BlocksClear.band (hclear : BlocksClear leaves areas grid) (hb : .kept top o height copies ∈ bands) (hcopies : 1 ≤ copies)
    (harea : area ∈ areas) (hbegins : top ≤ area.top) (hin : area.top ≤ top + height) (hpast : top + height < area.bottom)
    (hmem : copied ∈ areas) (hbegins' : top ≤ copied.top) (hin' : copied.top ≤ top + height) (hvalue : HoldsValue grid copied) :
    ¬area.SharesColumn copied := by
  obtain ⟨hstays, hrows, rfl, -⟩ := hlaid.of_kept hb
  rw [hrows] at hcopies
  exact hclear top (hlaid.opens .first hb) hstays hcopies area harea hbegins hin hpast copied hmem hbegins' hin' hvalue

/-- Where blocks are clear, a merge that is copied does not reach past its block. -/
theorem BlocksClear.bottom_le (hclear : BlocksClear leaves areas grid)
    (hcopied : Copied grid bands area range top o height copies place copy) (harea : area ∈ areas) : area.bottom ≤ top + height := by
  by_contra hpast
  have hbegins := hcopied.begins
  have hle := hcopied.place_le
  exact hclear.band hlaid hcopied.band (hcopied.one_le.trans hcopied.copy_le) harea (by omega) (by omega) (by omega) harea (by omega)
    (by omega) hcopied.value (Area.SharesColumn.refl area)

end Blocks

/-- Where merges of the template share no cells and nothing repeats across, the ranges of the output share no cells if and only if no
merge that begins in a repeated block and reaches past it has a column in common with one that the block takes along. -/
theorem ranges_disjoint_iff (h : ofTemplate leaves areas grid = .ok layout) (hareas : areas.Pairwise Area.Disjoint)
    (hcolumns : ∀ row, (repetition leaves grid row).columns = 0) :
    (∀ range ∈ (layout.scaffold areas).areas.keys, ∀ range' ∈ (layout.scaffold areas).areas.keys,
        range ≠ range' → range.Disjoint range') ↔ BlocksClear leaves areas grid := by
  obtain ⟨stop, bands, bottom, hlaid, hstrips, hused⟩ := exists_laid_areas h
  have hdisjoint : ∀ area ∈ areas, ∀ other ∈ areas, area ≠ other → area.Disjoint other :=
    fun _ harea _ hother hne => hareas.forall harea hother hne
  simp only [hlaid.mem_scaffold_areas_iff hstrips h hcolumns]
  constructor
  · intro hranges top hopens hstays hcopies area harea hbegins hin hpast copied hmem hbegins' hin' hvalue hcolumn
    obtain ⟨htop, hbottom⟩ := hused area harea
    obtain ⟨o, hb⟩ := hlaid.kept_of_opens hopens hstays (by omega)
    obtain ⟨range, hplace, range', hcopied, hne, hcells⟩ :=
      hlaid.exists_overlap hstrips hb hcopies htop hbottom ⟨hbegins, hin⟩ hpast ⟨hbegins', hin'⟩ hvalue hcolumn
    exact hcells (hranges range (Or.inl ⟨area, harea, hplace⟩) range' (Or.inr ⟨copied, hmem, _, _, _, _, _, _, hcopied⟩) hne)
  · intro hclear range hrange range' hrange' hne
    rcases hrange with ⟨area, harea, hplace⟩ | ⟨area, harea, top, o, height, copies, place, copy, hcopied⟩
    · obtain ⟨htop, hbottom⟩ := hused area harea
      rcases hrange' with ⟨other, hother, hplace'⟩ | ⟨other, hother, top', o', height', copies', place', copy', hcopied'⟩
      · obtain ⟨htop', hbottom'⟩ := hused other hother
        refine hlaid.places_disjoint hstrips hplace htop hbottom hplace' htop' hbottom' (hdisjoint area harea other hother ?_)
        rintro rfl
        exact hne (Option.some.inj (hplace.symm.trans hplace'))
      · have hin := hclear.bottom_le hlaid hcopied' hother
        have hrow := hcopied'.begins
        have hle := hcopied'.place_le
        exact (hlaid.copied_disjoint_place hstrips hcopied' hin hplace htop hbottom (hdisjoint area harea other hother)
          fun hbegins hin' hpast => hclear.band hlaid hcopied'.band (hcopied'.one_le.trans hcopied'.copy_le) harea hbegins hin' hpast
            hother (by omega) (by omega) hcopied'.value).symm
    · have hin := hclear.bottom_le hlaid hcopied harea
      rcases hrange' with ⟨other, hother, hplace'⟩ | ⟨other, hother, top', o', height', copies', place', copy', hcopied'⟩
      · obtain ⟨htop', hbottom'⟩ := hused other hother
        have hrow := hcopied.begins
        have hle := hcopied.place_le
        exact hlaid.copied_disjoint_place hstrips hcopied hin hplace' htop' hbottom' (hdisjoint other hother area harea)
          fun hbegins hin' hpast => hclear.band hlaid hcopied.band (hcopied.one_le.trans hcopied.copy_le) hother hbegins hin' hpast
            harea (by omega) (by omega) hcopied.value
      · exact hlaid.copied_disjoint hcopied hin hcopied' (hclear.bottom_le hlaid hcopied' hother)
          (hdisjoint area harea other hother) hne

/-! ## Samples -/

/-- Rows without cells ask for no copies beside a cell. -/
theorem columns_eq_zero (h : ∀ row ∈ grid.keys, (repetition leaves grid row).columns = 0) (row : Nat) :
    (repetition leaves grid row).columns = 0 := by
  by_cases hrow : row ∈ grid.keys
  · exact h row hrow
  · have hnone : grid.get? row = none := by
      rw [SortedMap.mem_keys_iff] at hrow
      exact Option.eq_none_iff_forall_ne_some.2 fun line hline => hrow ⟨line, hline⟩
    rw [repetition_of_blank leaves (by rw [Grid.line, hnone]; rfl)]

/-- A block of two rows for every box. -/
def Sample.boxTexts : Grid :=
  SortedMap.ofList [
    (1, SortedMap.ofList [(columnA, "[boxes.*.id]"), (columnC, "Boxes")]),
    (2, SortedMap.ofList [(columnB, "[boxes.*.id]")])]

/-- The merge of the block, and a label beside it that reaches one row further. -/
def Sample.labelled : List Area := [Area.between ⟨columnA, 1⟩ ⟨columnA, 2⟩, Area.between ⟨columnC, 1⟩ ⟨columnC, 3⟩]

/-- The label stands beside both boxes. -/
theorem labelled_block_clear : ∃ layout, ofTemplate Sample.data Sample.labelled Sample.boxTexts = .ok layout ∧
    (layout.scaffold Sample.labelled).areas.keys = [Area.between ⟨Sample.columnA, 1⟩ ⟨Sample.columnA, 2⟩,
      Area.between ⟨Sample.columnC, 1⟩ ⟨Sample.columnC, 5⟩, Area.between ⟨Sample.columnA, 3⟩ ⟨Sample.columnA, 4⟩] ∧
    BlocksClear Sample.data Sample.labelled Sample.boxTexts := by
  obtain ⟨layout, hlayout, hkeys⟩ := exists_ok_of_any (show (ofTemplate Sample.data Sample.labelled Sample.boxTexts).toOption.any
    (fun layout => (layout.scaffold Sample.labelled).areas.keys = [Area.between ⟨Sample.columnA, 1⟩ ⟨Sample.columnA, 2⟩,
      Area.between ⟨Sample.columnC, 1⟩ ⟨Sample.columnC, 5⟩, Area.between ⟨Sample.columnA, 3⟩ ⟨Sample.columnA, 4⟩]) = true
    by decide +kernel)
  have hkeys' := of_decide_eq_true hkeys
  have hclear := (ranges_disjoint_iff hlayout (by decide) (columns_eq_zero (by decide +kernel))).1 (by rw [hkeys']; decide)
  exact ⟨layout, hlayout, hkeys', hclear⟩

/-- The merge of the block, and one that begins in its second row and reaches one row further. -/
def Sample.nested : List Area := [Area.between ⟨columnA, 1⟩ ⟨columnA, 2⟩, Area.between ⟨columnB, 2⟩ ⟨columnB, 3⟩]

/-- A merge of a value that begins in a repeated block and reaches past it overlaps its own copy. -/
theorem nested_merge_overlaps : ∃ layout, ofTemplate Sample.data Sample.nested Sample.boxTexts = .ok layout ∧
    Sample.nested.Pairwise Area.Disjoint ∧ (∀ row, (repetition Sample.data Sample.boxTexts row).columns = 0) ∧
    Area.between ⟨Sample.columnB, 2⟩ ⟨Sample.columnB, 5⟩ ∈ (layout.scaffold Sample.nested).areas.keys ∧
    Area.between ⟨Sample.columnB, 4⟩ ⟨Sample.columnB, 5⟩ ∈ (layout.scaffold Sample.nested).areas.keys ∧
    ¬(Area.between ⟨Sample.columnB, 2⟩ ⟨Sample.columnB, 5⟩).Disjoint (Area.between ⟨Sample.columnB, 4⟩ ⟨Sample.columnB, 5⟩) := by
  obtain ⟨layout, hlayout, hkeys⟩ := exists_ok_of_any (show (ofTemplate Sample.data Sample.nested Sample.boxTexts).toOption.any
    (fun layout => Area.between ⟨Sample.columnB, 2⟩ ⟨Sample.columnB, 5⟩ ∈ (layout.scaffold Sample.nested).areas.keys ∧
      Area.between ⟨Sample.columnB, 4⟩ ⟨Sample.columnB, 5⟩ ∈ (layout.scaffold Sample.nested).areas.keys) = true by decide +kernel)
  obtain ⟨hplace, hcopy⟩ := of_decide_eq_true hkeys
  exact ⟨layout, hlayout, by decide, columns_eq_zero (by decide +kernel), hplace, hcopy, by decide⟩

end Layout
end SheetTemplate

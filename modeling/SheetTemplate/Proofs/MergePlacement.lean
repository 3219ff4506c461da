import Mathlib.Data.Nat.Find
import SheetTemplate.Proofs.OutputTexts
import SheetTemplate.Proofs.Placement

/-!
# Where merges come to stand

A merge of the template is laid from the place of its first row that stays. It ends with its last row if that stays, and else with the
last copy of its last row that does: rows that go out at its ends leave no gap between the rows around them (`Laid.origin_eq`), so the
two rows at its ends tell where it stands (`merges_take_kept_rows`).
-/

namespace SheetTemplate

namespace Area

theorem mem_rows {area : Area} {row : Nat} : row ∈ area.rows ↔ area.top ≤ row ∧ row ≤ area.bottom := by
  have htop := area.top_le
  rw [rows, List.mem_range'_1, height]
  omega

end Area

namespace Layout

variable {leaves : Leaves} {areas : List Area} {grid : Grid} {row origin row' origin' : Nat} {bands : List Band} {layout : Layout}
  {area : Area} {first last : Nat}

/-! ## Rows that stay and rows that go out -/

/-- Bands that share a row of the template are the same. -/
theorem Laid.eq_of_rows (h : Laid leaves areas grid row origin bands row' origin') {a b : Band} (ha : a ∈ bands) (hb : b ∈ bands)
    {r : Nat} (hra : a.row ≤ r ∧ r < a.nextRow) (hrb : b.row ≤ r ∧ r < b.nextRow) : a = b := by
  rcases h.order ha hb with hsame | hbelow | habove
  · exact hsame
  · omega
  · omega

/-- Where all rows between two bands go out, the lower band stands right below the upper one. -/
theorem Laid.origin_eq (h : Laid leaves areas grid row origin bands row' origin') {a b : Band} (ha : a ∈ bands) (hb : b ∈ bands)
    (hle : a.nextRow ≤ b.row) (hgone : ∀ r, a.nextRow ≤ r → r < b.row → ∃ o, .deleted r o ∈ bands) : b.origin = a.nextOrigin := by
  obtain ⟨gap, hgap⟩ := Nat.exists_eq_add_of_le hle
  have hend := (h.bounds hb).2.1
  have hb' := b.row_lt_nextRow
  induction gap generalizing a with
  | zero =>
    obtain ⟨next, hnext, hrow, horigin⟩ := h.exists_next ha (by omega)
    have hnext' := next.row_lt_nextRow
    rw [h.eq_of_rows hb hnext ⟨Nat.le_refl _, hb'⟩ ⟨by omega, by omega⟩, horigin]
  | succ gap ih =>
    obtain ⟨o, hdeleted⟩ := hgone a.nextRow (Nat.le_refl _) (by omega)
    obtain ⟨next, hnext, hrow, horigin⟩ := h.exists_next ha (by omega)
    have hnext' := next.row_lt_nextRow
    have hbelow : Band.nextRow (.deleted a.nextRow o) = a.nextRow + 1 := rfl
    obtain rfl := h.eq_of_rows hnext hdeleted ⟨Nat.le_refl _, hnext'⟩ ⟨by rw [hrow]; exact Nat.le_refl _, by omega⟩
    rw [← horigin]
    exact ih hdeleted (by omega) (fun r hr hr' => hgone r (by omega) hr') (by omega)

/-- A layout consists of bands from the first row in use on, and every row of a merge of the template lies in one of them. -/
theorem exists_laid_areas (h : ofTemplate leaves areas grid = .ok layout) :
    ∃ stop bands bottom, Laid leaves areas grid (firstRow areas grid) (firstRow areas grid) bands stop bottom ∧
      layout.strips = bands.flatMap (Band.strips leaves areas grid) ∧
      ∀ area ∈ areas, firstRow areas grid ≤ area.top ∧ area.bottom < stop := by
  obtain ⟨stop, bands, bottom, hlaid, hstrips⟩ := exists_laid_firstRow h
  refine ⟨stop, bands, bottom, hlaid, hstrips, fun area harea => ?_⟩
  have hends : ∀ row ∈ [area.top, area.bottom], row ∈ usedRows areas grid := by
    intro row hrow
    have hmem : row ∈ grid.keys ++ areas.flatMap fun area => [area.top, area.bottom] :=
      List.mem_append_right _ (List.mem_flatMap.2 ⟨area, harea, hrow⟩)
    exact mem_usedRows.2 ⟨⟨row, hmem, Nat.le_refl row⟩, row, hmem, Nat.le_refl row⟩
  have htop := hends area.top (by simp)
  have hbottom := hends area.bottom (by simp)
  rw [hlaid.usedRows_eq hstrips h, List.mem_range'_1] at htop hbottom
  omega

/-- The row a band says goes out does. -/
theorem Laid.isDeleted_iff (h : Laid leaves areas grid row origin bands row' origin')
    (hs : layout.strips = bands.flatMap (Band.strips leaves areas grid)) {r : Nat} :
    layout.isDeleted r = true ↔ ∃ o, .deleted r o ∈ bands := by
  constructor
  · intro hgone
    rw [isDeleted, Option.any_eq_true] at hgone
    obtain ⟨fate, hfate, hgone⟩ := hgone
    cases fate with
    | placed => cases hgone
    | deleted o => exact ⟨o, (h.deleted_iff hs).1 hfate⟩
  · rintro ⟨o, hb⟩
    exact (h.isDeleted_eq hs).1 r o hb

/-- A row that stays lies in a band that stays. -/
theorem Laid.exists_of_stays (h : Laid leaves areas grid row origin bands row' origin')
    (hs : layout.strips = bands.flatMap (Band.strips leaves areas grid)) {r : Nat} (hr : row ≤ r) (hr' : r < row')
    (hstays : layout.isDeleted r = false) :
    ∃ top o height copies place, .kept top o height copies ∈ bands ∧ place ≤ height ∧ r = top + place := by
  obtain ⟨band, hb, hlies⟩ := h.exists_of_row hr hr'
  cases band with
  | deleted top o =>
    simp only [Band.row, Band.nextRow] at hlies
    obtain rfl : r = top := by omega
    rw [(h.isDeleted_eq hs).1 _ _ hb] at hstays
    cases hstays
  | kept top o height copies =>
    simp only [Band.row, Band.nextRow] at hlies
    exact ⟨top, o, height, copies, r - top, hb, by omega, by omega⟩

/-! ## The ends of a merge -/

/-- Of the rows of an area `first` is the first one that stays and `last` the last one. -/
structure Spans (layout : Layout) (area : Area) (first last : Nat) : Prop where
  top_le : area.top ≤ first
  first_le : first ≤ last
  le_bottom : last ≤ area.bottom
  first_stays : layout.isDeleted first = false
  last_stays : layout.isDeleted last = false
  gone_above : ∀ row, area.top ≤ row → row < first → layout.isDeleted row = true
  gone_below : ∀ row, last < row → row ≤ area.bottom → layout.isDeleted row = true

/-- Where a row of an area stays there are a first and a last one. -/
theorem exists_spans (h : ∃ row ∈ area.rows, layout.isDeleted row = false) : ∃ first last, layout.Spans area first last := by
  obtain ⟨row, hrow, hstays⟩ := h
  rw [Area.mem_rows] at hrow
  have hex : ∃ row, area.top ≤ row ∧ layout.isDeleted row = false := ⟨row, hrow.1, hstays⟩
  obtain ⟨htop, hfirst⟩ := Nat.find_spec hex
  have hmin : Nat.find hex ≤ row := Nat.find_min' hex ⟨hrow.1, hstays⟩
  have hlast := Nat.findGreatest_spec (P := fun r => layout.isDeleted r = false) hrow.2 hstays
  have hmax : row ≤ Nat.findGreatest (fun r => layout.isDeleted r = false) area.bottom := Nat.le_findGreatest hrow.2 hstays
  refine ⟨Nat.find hex, _, htop, hmin.trans hmax, Nat.findGreatest_le _, hfirst, hlast, ?_, ?_⟩
  · intro r hr hlt
    have hnot := Nat.find_min hex hlt
    exact Bool.not_eq_false _ ▸ fun hgone => hnot ⟨hr, hgone⟩
  · intro r hlt hr
    have hnot := Nat.findGreatest_is_greatest hlt hr
    exact Bool.not_eq_false _ ▸ hnot

/-- What the two rows at the ends of an area tell about its place. -/
theorem place?_eq {top bottom : Nat} (hstays : ∃ row ∈ area.rows, layout.isDeleted row = false)
    (htop : (∃ copies stride, layout.fate? area.top = some (.placed top copies stride)) ∨
      layout.fate? area.top = some (.deleted top))
    (hbottom : (∃ copies stride, layout.fate? area.bottom = some (.placed bottom copies stride)) ∨
      layout.fate? area.bottom = some (.deleted (bottom + 1))) (hle : top ≤ bottom) :
    layout.place? area = some (area.withRows top bottom) := by
  have hnot : area.rows.all layout.isDeleted = false := by
    obtain ⟨row, hrow, hrow'⟩ := hstays
    exact List.all_eq_false.2 ⟨row, hrow, by simp [hrow']⟩
  rw [place?, hnot, if_neg Bool.false_ne_true]
  rcases htop with ⟨_, _, htop⟩ | htop
  · rcases hbottom with ⟨_, _, hbottom⟩ | hbottom
    · simp [htop, hbottom, Nat.max_eq_left hle]
    · simp [htop, hbottom, Nat.max_eq_left hle]
  · rcases hbottom with ⟨_, _, hbottom⟩ | hbottom
    · simp [htop, hbottom, Nat.max_eq_left hle]
    · simp [htop, hbottom, Nat.max_eq_left hle]

section Bands

variable (h : Laid leaves areas grid row origin bands row' origin')
  (hs : layout.strips = bands.flatMap (Band.strips leaves areas grid))
include h hs

/-- Rows of a merge that go out above the first one that stays go out where that one comes to stand. -/
theorem Laid.fate_top {top o height copies place : Nat} (hb : .kept top o height copies ∈ bands) (hplace : place ≤ height)
    (hspans : layout.Spans area (top + place) last) :
    area.top = top + place ∨ layout.fate? area.top = some (.deleted (o + place)) := by
  rcases Nat.eq_or_lt_of_le hspans.top_le with heq | hlt
  · exact Or.inl heq
  · obtain ⟨stood, hgone⟩ := (h.isDeleted_iff hs).1 (hspans.gone_above area.top (Nat.le_refl _) hlt)
    obtain rfl : place = 0 := by
      by_contra hne
      have hstays := (h.isDeleted_eq hs).2 _ _ _ _ hb (place - 1) (by omega)
      rw [hspans.gone_above (top + (place - 1)) (by omega) (by omega)] at hstays
      cases hstays
    have horigin := h.origin_eq hgone hb (by simp only [Band.nextRow, Band.row]; omega) fun r hr hr' =>
      (h.isDeleted_iff hs).1 (hspans.gone_above r (by simp only [Band.nextRow] at hr; omega) hr')
    simp only [Band.origin, Band.nextOrigin] at horigin
    rw [(h.deleted_iff hs).2 hgone, Nat.add_zero, horigin]
    exact Or.inr rfl

/-- Rows of a merge that go out below the last one that stays go out below the copies of its band, which it ends. -/
theorem Laid.fate_bottom {top o height copies place : Nat} (hb : .kept top o height copies ∈ bands) (hplace : place ≤ height)
    (hspans : layout.Spans area first (top + place)) :
    area.bottom = top + place ∨ (top + place < area.bottom ∧ place = height ∧
      layout.fate? area.bottom = some (.deleted (o + (copies + 1) * (height + 1)))) := by
  rcases Nat.eq_or_lt_of_le hspans.le_bottom with heq | hlt
  · exact Or.inl heq.symm
  · obtain ⟨stood, hgone⟩ := (h.isDeleted_iff hs).1 (hspans.gone_below area.bottom hlt (Nat.le_refl _))
    obtain rfl : place = height := by
      by_contra hne
      have hstays := (h.isDeleted_eq hs).2 _ _ _ _ hb (place + 1) (by omega)
      rw [hspans.gone_below (top + (place + 1)) (by omega) (by omega)] at hstays
      cases hstays
    have horigin := h.origin_eq hb hgone (by simp only [Band.nextRow, Band.row]; omega) fun r hr hr' =>
      (h.isDeleted_iff hs).1 (hspans.gone_below r (by simp only [Band.nextRow] at hr; omega)
        (by simp only [Band.row] at hr'; omega))
    simp only [Band.origin, Band.nextOrigin] at horigin
    rw [(h.deleted_iff hs).2 hgone, horigin]
    exact Or.inr ⟨hlt, rfl, rfl⟩

/-- A merge stands between the row of its first row that stays, and the row of its last row if that stays or else the last copy of the
last one that does. -/
theorem Laid.exists_place (hspans : layout.Spans area first last) (htop : row ≤ area.top) (hbottom : area.bottom < row') :
    ∃ top o height copies place top' o' height' copies' place' bottom,
      .kept top o height copies ∈ bands ∧ place ≤ height ∧ first = top + place ∧
      .kept top' o' height' copies' ∈ bands ∧ place' ≤ height' ∧ last = top' + place' ∧
      bottom = (if last = area.bottom then o' + place' else o' + place' + copies' * (height' + 1)) ∧ o + place ≤ bottom ∧
      (last < area.bottom → place' = height' ∧ layout.fate? area.bottom = some (.deleted (bottom + 1))) ∧
      layout.place? area = some (area.withRows (o + place) bottom) := by
  have h1 := hspans.top_le
  have h2 := hspans.first_le
  have h3 := hspans.le_bottom
  obtain ⟨top, o, height, copies, place, hb, hplace, rfl⟩ := h.exists_of_stays hs (by omega) (by omega) hspans.first_stays
  obtain ⟨top', o', height', copies', place', hb', hplace', rfl⟩ := h.exists_of_stays hs (by omega) (by omega) hspans.last_stays
  have hstands : o + place ≤ o' + place' := by
    rcases h.order hb hb' with hsame | hbelow | habove
    · cases hsame
      omega
    · simp only [Band.nextOrigin, Band.origin] at hbelow
      have hlt : o + place < o + (copies + 1) * (height + 1) := place_lt hplace
      omega
    · simp only [Band.nextRow, Band.row] at habove
      omega
  have hstays : ∃ row ∈ area.rows, layout.isDeleted row = false :=
    ⟨_, Area.mem_rows.2 ⟨h1, h2.trans h3⟩, hspans.first_stays⟩
  have hfirst : (∃ copies stride, layout.fate? area.top = some (.placed (o + place) copies stride)) ∨
      layout.fate? area.top = some (.deleted (o + place)) := by
    rcases h.fate_top hs hb hplace hspans with heq | hgone
    · exact Or.inl ⟨_, _, by rw [heq]; exact h.fate_kept hs hb hplace⟩
    · exact Or.inr hgone
  rcases h.fate_bottom hs hb' hplace' hspans with heq | ⟨hlt, hend, hgone⟩
  · refine ⟨top, o, height, copies, place, top', o', height', copies', place', o' + place', hb, hplace, rfl, hb', hplace', rfl, ?_,
      hstands, fun hlt => absurd hlt (by omega), ?_⟩
    · rw [if_pos heq.symm]
    · exact place?_eq hstays hfirst (Or.inl ⟨_, _, by rw [heq]; exact h.fate_kept hs hb' hplace'⟩) hstands
  · subst hend
    have hbelow : layout.fate? area.bottom = some (.deleted (o' + place' + copies' * (place' + 1) + 1)) := by
      rw [hgone, end_of_kept]
    refine ⟨top, o, height, copies, place, top', o', place', copies', place', o' + place' + copies' * (place' + 1), hb, hplace, rfl,
      hb', hplace', rfl, ?_, hstands.trans (Nat.le_add_right _ _), fun _ => ⟨rfl, hbelow⟩, ?_⟩
    · rw [if_neg (by omega)]
    · exact place?_eq hstays hfirst (Or.inr hbelow) (hstands.trans (Nat.le_add_right _ _))

end Bands

/-! ## The merges of the output -/

/-- A range of the output that comes from a merge of the template: it is where the merge stands, or it takes as many rows as the merge
from a copy of the row in which that begins. -/
def Brings (layout : Layout) (area range : Area) : Prop :=
  layout.place? area = some range ∨ (∃ copy, layout.Stands area.top copy range.top) ∧ range.height = area.height

/-- The merges of a layout are those of its strips and the places of those of the template. -/
theorem mem_scaffold_areas {range : Area} : range ∈ (layout.scaffold areas).areas.keys ↔
    (∃ strip ∈ layout.strips, range ∈ strip.areas) ∨ ∃ area ∈ areas, layout.place? area = some range := by
  rw [scaffold, SortedSet.mem_keys_ofMembers, List.mem_append, List.mem_flatMap, List.mem_filterMap]

/-- The merges that a row takes along are those that begin in one of its copied cells, those of copies beside a cell among them. -/
theorem mem_stacking_areas {block : Block} : area ∈ (expansion leaves areas grid block row).stacking.areas ↔
    (area ∈ areas ∨ ∃ w, widening? leaves areas grid row = some w ∧ area ∈ w.areas row) ∧ area.top = row ∧
      ∃ text, (expansion leaves areas grid block row).stacking.line.get? area.left = some text := by
  have hareas : (expansion leaves areas grid block row).stacking.areas =
      (expansion leaves areas grid block row).stacking.line.keys.flatMap fun column =>
        areasFrom (areas ++ (expansion leaves areas grid block row).widening.elim [] fun w => w.areas row) ⟨column, row⟩ := rfl
  have hwidening : area ∈ (widening? leaves areas grid row).elim [] (fun w => w.areas row) ↔
      ∃ w, widening? leaves areas grid row = some w ∧ area ∈ w.areas row := by
    cases widening? leaves areas grid row with
    | none => simp
    | some w => simp
  rw [hareas, expansion_widening, List.mem_flatMap]
  simp only [areasFrom, List.mem_filter, List.mem_append, hwidening, decide_eq_true_eq, SortedMap.mem_keys_iff]
  constructor
  · rintro ⟨column, htext, hmem, hanchor⟩
    obtain ⟨rfl, rfl⟩ := Address.mk.inj hanchor
    exact ⟨hmem, rfl, htext⟩
  · rintro ⟨hmem, rfl, htext⟩
    exact ⟨area.left, htext, hmem, rfl⟩

/-- The merges of the strip of a row that stays: those of the copies beside a cell, and those that the copies of the row take along. -/
theorem mem_strip_areas {block : Block} {range : Area} :
    range ∈ ((expansion leaves areas grid block row).strip block origin).areas ↔
      (∃ w, widening? leaves areas grid row = some w ∧ range ∈ w.areas origin) ∨
        ∃ copy, 1 ≤ copy ∧ copy ≤ (expansion leaves areas grid block row).stacking.copies ∧
          ∃ area ∈ (expansion leaves areas grid block row).stacking.areas,
            range = area.withRows (origin + copy * (expansion leaves areas grid block row).stacking.stride)
              (origin + copy * (expansion leaves areas grid block row).stacking.stride + area.height) := by
  change range ∈ ((expansion leaves areas grid block row).widening.elim [] fun w => w.areas origin) ++
    (expansion leaves areas grid block row).stacking.copiedAreas origin ↔ _
  rw [expansion_widening, List.mem_append]
  refine or_congr ?_ ?_
  · cases widening? leaves areas grid row with
    | none => simp
    | some w => simp
  · simp only [Stacking.copiedAreas, Stacking.row, List.mem_flatMap, List.mem_map, Stacking.mem_numbers]
    constructor
    · rintro ⟨copy, ⟨hone, hcopy⟩, area, harea, rfl⟩
      exact ⟨copy, hone, hcopy, area, harea, rfl⟩
    · rintro ⟨copy, hone, hcopy, area, harea, rfl⟩
      exact ⟨copy, ⟨hone, hcopy⟩, area, harea, rfl⟩

/-- Copies beside a cell are merged only if the cell is. -/
theorem exists_source_of_widening {w : Widening} (hw : widening? leaves areas grid row = some w) {place : Nat} {range : Area}
    (hrange : range ∈ w.areas place) :
    range.top = place ∧ range.height = 0 ∧ ∃ source ∈ areas, source.top = row ∧ source.height = 0 := by
  refine ⟨?_, height_of_mem_widening hrange, ?_⟩
  · obtain ⟨copy, -, hanchor⟩ := Widening.anchor_of_mem_areas hrange
    exact congrArg Address.row hanchor
  · have hextra : w.extra ≠ 0 := by
      intro hzero
      rw [Widening.areas, if_pos hzero] at hrange
      cases hrange
    simp only [widening?, Widening.ofLine?, Option.bind_eq_bind, Option.bind_eq_some_iff, Option.some.injEq] at hw
    obtain ⟨anchor, -, text, -, rfl⟩ := hw
    cases hfind : (areasFrom areas ⟨anchor, row⟩).find? Area.isSingleRow with
    | none =>
      rw [hfind] at hextra
      exact absurd rfl hextra
    | some source =>
      obtain ⟨hmem, hanchor⟩ := List.mem_filter.1 (List.mem_of_find?_eq_some hfind)
      have hsingle : source.top = source.bottom := by simpa [Area.isSingleRow] using List.find?_some hfind
      refine ⟨source, hmem, congrArg Address.row (of_decide_eq_true hanchor), ?_⟩
      rw [Area.height, hsingle, Nat.sub_self]

/-- Every range of the output comes from a merge of the template. -/
theorem exists_brings (h : ofTemplate leaves areas grid = .ok layout) {range : Area}
    (hrange : range ∈ (layout.scaffold areas).areas.keys) : ∃ source ∈ areas, layout.Brings source range := by
  rcases mem_scaffold_areas.1 hrange with ⟨strip, hstrip, hmem⟩ | ⟨source, hsource, hplace⟩
  · rcases strip_cases h hstrip with ⟨row, origin, rfl⟩ | ⟨row, block, origin, copies, stride, hfate, rfl, rfl, rfl⟩
    · cases hmem
    · rcases mem_strip_areas.1 hmem with ⟨w, hw, hrange⟩ | ⟨copy, -, hcopy, area, harea, rfl⟩
      · obtain ⟨htop, hheight, source, hsource, rfl, hsingle⟩ := exists_source_of_widening hw hrange
        refine ⟨source, hsource, Or.inr ⟨⟨0, origin, _, _, hfate, Nat.zero_le _, by omega⟩, by rw [hheight, hsingle]⟩⟩
      · obtain ⟨hmem, rfl, -⟩ := mem_stacking_areas.1 harea
        have hrows := area.withRows_eq (Nat.le_add_right
          (origin + copy * (expansion leaves areas grid block area.top).stacking.stride) area.height)
        have hstands : layout.Stands area.top copy
            (origin + copy * (expansion leaves areas grid block area.top).stacking.stride) := ⟨origin, _, _, hfate, hcopy, rfl⟩
        rw [hrows]
        rcases hmem with hmem | ⟨w, hw, hbeside⟩
        · exact ⟨area, hmem, Or.inr ⟨⟨copy, hstands⟩, Nat.add_sub_cancel_left _ _⟩⟩
        · obtain ⟨-, hheight, source, hsource, htop, hsingle⟩ := exists_source_of_widening hw hbeside
          refine ⟨source, hsource, Or.inr ⟨⟨copy, by rw [htop]; exact hstands⟩, ?_⟩⟩
          rw [hsingle, ← hheight]
          exact Nat.add_sub_cancel_left _ _
  · exact ⟨source, hsource, Or.inl hplace⟩

/-- A merge of which a row stays stands from the row of its first row that stays to that of its last row, or where that goes out to the
last copy of its last row that stays: a range in order, for which neither end has to be corrected. A merge of which no row stays
brings in no range, and every range of the output comes from a merge of the template. -/
theorem merges_take_kept_rows (h : ofTemplate leaves areas grid = .ok layout) (harea : area ∈ areas) :
    (∀ first last, layout.Spans area first last → ∃ top copies stride origin copies' stride' bottom,
      layout.fate? first = some (.placed top copies stride) ∧ layout.fate? last = some (.placed origin copies' stride') ∧
        bottom = (if last = area.bottom then origin else origin + copies' * stride') ∧
        (∃ hle : top ≤ bottom, layout.place? area = some { area with top, bottom, top_le := hle } ∧
          { area with top, bottom, top_le := hle } ∈ (layout.scaffold areas).areas.keys) ∧
        ∀ gone, layout.fate? area.bottom = some (.deleted gone) → gone = bottom + 1) ∧
      ((∃ first last, layout.Spans area first last) ∨
        (∀ row ∈ area.rows, layout.isDeleted row = true) ∧ layout.place? area = none ∧ ∀ range, ¬layout.Brings area range) ∧
      ∀ range ∈ (layout.scaffold areas).areas.keys, ∃ source ∈ areas, layout.Brings source range := by
  obtain ⟨stop, bands, bottom, hlaid, hstrips, hareas⟩ := exists_laid_areas h
  refine ⟨?_, ?_, fun range hrange => exists_brings h hrange⟩
  · intro first last hspans
    obtain ⟨top, o, height, copies, place, top', o', height', copies', place', bottom, hb, hplace, rfl, hb', hplace', rfl, hbottom,
      hle, hgone, harea'⟩ := hlaid.exists_place hstrips hspans (hareas area harea).1 (hareas area harea).2
    have hfirst := hlaid.fate_kept hstrips hb hplace
    have hlast := hlaid.fate_kept hstrips hb' hplace'
    rw [area.withRows_eq hle] at harea'
    refine ⟨_, _, _, _, _, _, bottom, hfirst, hlast, hbottom, ⟨hle, harea', mem_scaffold_areas.2 (Or.inr ⟨area, harea, harea'⟩)⟩, ?_⟩
    intro gone hfate
    rcases Nat.eq_or_lt_of_le hspans.le_bottom with heq | hlt
    · rw [← heq, hlast] at hfate
      cases hfate
    · rw [(hgone hlt).2] at hfate
      cases hfate
      rfl
  · by_cases hex : ∃ row ∈ area.rows, layout.isDeleted row = false
    · exact Or.inl (exists_spans hex)
    · have hall : ∀ row ∈ area.rows, layout.isDeleted row = true := by simpa using hex
      have hnone : layout.place? area = none := by
        rw [place?, List.all_eq_true.2 hall, if_pos rfl]
      refine Or.inr ⟨hall, hnone, ?_⟩
      rintro range (hplace | ⟨⟨copy, origin, copies, stride, hfate, -⟩, -⟩)
      · rw [hnone] at hplace
        cases hplace
      · have hgone := hall area.top (Area.mem_rows.2 ⟨Nat.le_refl _, area.top_le⟩)
        rw [isDeleted, hfate] at hgone
        cases hgone

/-- A list between two rows that go out, beside a cell that is merged over all three. -/
def Sample.sideTexts : Grid :=
  SortedMap.ofList [
    (1, SortedMap.ofList [(columnA, "[=vip]VIP")]),
    (2, SortedMap.ofList [(columnA, "[items.*.n]")]),
    (3, SortedMap.ofList [(columnA, "[=vip]Total")])]

def Sample.side : Area := Area.between ⟨columnB, 1⟩ ⟨columnB, 3⟩

/-- On the sample the merge takes the rows of the two elements. -/
theorem side_takes_elements : ∃ layout, ofTemplate Sample.data [Sample.side] Sample.sideTexts = .ok layout ∧
    layout.Spans Sample.side 2 2 ∧ Area.between ⟨Sample.columnB, 1⟩ ⟨Sample.columnB, 2⟩ ∈ (layout.scaffold [Sample.side]).areas.keys := by
  obtain ⟨layout, hlayout, hfates⟩ := exists_ok_of_any (show (ofTemplate Sample.data [Sample.side] Sample.sideTexts).toOption.any
    (fun layout => layout.fate? 1 = some (.deleted 1) ∧ layout.fate? 2 = some (.placed 1 1 1) ∧
      layout.fate? 3 = some (.deleted 3)) = true by decide +kernel)
  obtain ⟨h1, h2, h3⟩ := of_decide_eq_true hfates
  have hspans : layout.Spans Sample.side 2 2 := by
    refine ⟨by decide, Nat.le_refl 2, by decide, by rw [isDeleted, h2]; rfl, by rw [isDeleted, h2]; rfl, ?_, ?_⟩
    · intro row hrow hlt
      obtain rfl : row = 1 := Nat.le_antisymm (Nat.le_of_lt_succ hlt) hrow
      rw [isDeleted, h1]
      rfl
    · intro row hlt hrow
      obtain rfl : row = 3 := Nat.le_antisymm hrow hlt
      rw [isDeleted, h3]
      rfl
  obtain ⟨hplaced, -, -⟩ := merges_take_kept_rows hlayout (List.mem_singleton_self Sample.side)
  obtain ⟨top, copies, stride, origin, copies', stride', bottom, hfirst, hlast, rfl, ⟨hle, -, hmem⟩, -⟩ := hplaced 2 2 hspans
  rw [h2] at hfirst hlast
  cases hfirst
  cases hlast
  exact ⟨layout, hlayout, hspans, hmem⟩

end Layout
end SheetTemplate

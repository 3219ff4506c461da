import SheetTemplate.Proofs.Sheet
import SheetTemplate.Proofs.Walk

/-!
# Row actions carry a layout out

`actions_realise_layout`: on a sheet whose rows bear their numbers, the row actions of a layout bring every row of the template
where the layout says it stands, take out the rows that go out, and leave blank exactly the rows of copies.

The induction goes over the bands. Above a band the sheet is as it stays, and from where the band begins on it still holds the
rows of the template one below the other (`Laid.sheet`).
-/

namespace SheetTemplate
namespace Layout

variable {leaves : Leaves} {areas : List Area} {grid : Grid} {row origin row' origin' : Nat} {bands : List Band}

namespace Band

/-- The row of the template that a band takes out. -/
def deletedRow? : Band → Option Nat
  | .deleted row _ => some row
  | .kept .. => none

/-- Above a band nothing moves. -/
theorem actAll_above (band : Band) (sheet : Sheet) {place : Nat} (h : place < band.origin) :
    sheet.actAll band.actions place = sheet place := by
  cases band with
  | deleted row origin => exact if_pos h
  | kept row origin height copies =>
    have h' : place < origin := h
    rw [actions, Sheet.actAll_adds, if_pos (by omega)]

/-- The rows of the template below a band come to stand below it. -/
theorem actAll_below (band : Band) {sheet : Sheet} (h : ∀ d, sheet (band.origin + d) = some (band.row + d)) (d : Nat) :
    sheet.actAll band.actions (band.nextOrigin + d) = some (band.nextRow + d) := by
  cases band with
  | deleted row origin =>
    have hnext := h (1 + d)
    simp only [Band.origin, Band.row] at hnext
    change (if origin + d < origin then _ else sheet (origin + d + 1)) = some (row + 1 + d)
    rw [if_neg (by omega)]
    rw [← Nat.add_assoc, ← Nat.add_assoc] at hnext
    rw [← hnext]
    congr 1
    omega
  | kept row origin height copies =>
    have hnext := h (height + 1 + d)
    simp only [Band.origin, Band.row] at hnext
    have e1 := end_of_kept origin height copies
    have e2 : origin + (copies + 1) * (height + 1) + d - copies * (height + 1) = origin + (height + 1 + d) := by omega
    rw [actions, nextOrigin, nextRow, Sheet.actAll_adds, if_neg (by omega), if_neg (by omega), e2, hnext]
    congr 1
    omega

/-- A band takes out what it says. -/
theorem removed_eq (band : Band) {sheet : Sheet} (h : ∀ d, sheet (band.origin + d) = some (band.row + d)) :
    sheet.removed band.actions = band.deletedRow?.toList.map some := by
  cases band with
  | deleted row origin =>
    have h0 := h 0
    change [sheet origin] = [some row]
    simpa [Band.origin, Band.row] using h0
  | kept row origin height copies => exact Sheet.removed_adds _ _

/-- The rows of a band that stays stand one below the other. -/
theorem actAll_kept {r o height copies : Nat} {sheet : Sheet} (h : ∀ d, sheet (o + d) = some (r + d)) {place : Nat}
    (hp : place ≤ height) : sheet.actAll (actions (.kept r o height copies)) (o + place) = some (r + place) := by
  rw [actions, Sheet.actAll_adds, if_pos (by omega), h]

/-- The rows of the copies are blank. -/
theorem actAll_copies {r o height copies : Nat} (sheet : Sheet) {place : Nat} (h1 : o + height < place)
    (h2 : place < o + (copies + 1) * (height + 1)) : sheet.actAll (actions (.kept r o height copies)) place = none := by
  have e := end_of_kept o height copies
  rw [actions, Sheet.actAll_adds, if_neg (by omega), if_pos (by omega)]

end Band

/-- What the actions of bands make of a sheet that holds the rows of the template, from where they stand on. -/
theorem Laid.sheet (h : Laid leaves areas grid row origin bands row' origin') {sheet : Sheet}
    (hs : ∀ d, sheet (origin + d) = some (row + d)) :
    (∀ place < origin, sheet.actAll (bands.flatMap Band.actions) place = sheet place) ∧
      (∀ d, sheet.actAll (bands.flatMap Band.actions) (origin' + d) = some (row' + d)) ∧
      sheet.removed (bands.flatMap Band.actions) = (bands.filterMap Band.deletedRow?).map some := by
  induction bands generalizing row origin sheet with
  | nil =>
    cases h
    exact ⟨fun _ _ => rfl, hs, rfl⟩
  | cons band rest ih =>
    obtain ⟨rfl, rfl⟩ := h.head
    obtain ⟨habove, hbelow, hremoved⟩ := ih h.tail (band.actAll_below hs)
    rw [List.flatMap_cons, Sheet.actAll_append, Sheet.removed_append]
    refine ⟨?_, hbelow, ?_⟩
    · intro place hp
      rw [habove place (Nat.lt_of_lt_of_le hp band.origin_le_nextOrigin), band.actAll_above sheet hp]
    · rw [hremoved, band.removed_eq hs]
      cases hd : band.deletedRow? <;> simp [hd]

/-- What stands in the rows of a band in the end. Bands below it leave them alone. -/
theorem Laid.sheet_at (h : Laid leaves areas grid row origin bands row' origin') {sheet : Sheet}
    (hs : ∀ d, sheet (origin + d) = some (row + d)) {band : Band} (hb : band ∈ bands) :
    ∃ before : Sheet, (∀ d, before (band.origin + d) = some (band.row + d)) ∧
      ∀ place < band.nextOrigin, sheet.actAll (bands.flatMap Band.actions) place = before.actAll band.actions place := by
  obtain ⟨above, below, rfl, habove, hbelow⟩ := h.split hb
  refine ⟨sheet.actAll (above.flatMap Band.actions), (habove.sheet hs).2.1, ?_⟩
  intro place hp
  rw [List.flatMap_append, List.flatMap_cons, Sheet.actAll_append, Sheet.actAll_append]
  exact (hbelow.tail.sheet (band.actAll_below (habove.sheet hs).2.1)).1 place hp

/-- The rows of a band that stays come to stand one below the other. -/
theorem Laid.sheet_kept (h : Laid leaves areas grid row origin bands row' origin') {sheet : Sheet}
    (hs : ∀ d, sheet (origin + d) = some (row + d)) {r o height copies place : Nat} (hb : .kept r o height copies ∈ bands)
    (hp : place ≤ height) : sheet.actAll (bands.flatMap Band.actions) (o + place) = some (r + place) := by
  obtain ⟨before, hbefore, hafter⟩ := h.sheet_at hs hb
  rw [hafter (o + place) (place_lt hp)]
  exact Band.actAll_kept hbefore hp

/-- A row of the sheet that a band takes is blank in the end exactly if it is the row of a copy. -/
theorem Laid.sheet_eq_none_iff (h : Laid leaves areas grid row origin bands row' origin') {sheet : Sheet}
    (hs : ∀ d, sheet (origin + d) = some (row + d)) {place : Nat} (h1 : origin ≤ place) (h2 : place < origin') :
    sheet.actAll (bands.flatMap Band.actions) place = none ↔
      ∃ r o height copies below copy, .kept r o height copies ∈ bands ∧ below ≤ height ∧ 1 ≤ copy ∧ copy ≤ copies ∧
        place = o + below + copy * (height + 1) := by
  obtain ⟨band, hb, hlies⟩ := h.exists_of_origin h1 h2
  obtain ⟨before, hbefore, hafter⟩ := h.sheet_at hs hb
  rw [hafter place hlies.2]
  clear hafter
  cases band with
  | deleted r o =>
    simp only [Band.origin, Band.nextOrigin] at hlies
    omega
  | kept r o height copies =>
    simp only [Band.row, Band.origin, Band.nextOrigin] at hbefore hlies
    obtain ⟨below, hbelow, copy, hcopy, rfl⟩ := exists_copy hlies.1 hlies.2
    rcases Nat.eq_zero_or_pos copy with rfl | hpos
    · rw [Nat.zero_mul, Nat.add_zero, Band.actAll_kept hbefore hbelow]
      constructor
      · intro hsome
        cases hsome
      · rintro ⟨r', o', height', copies', below', copy', hb', hbelow', hpos', hcopy', heq⟩
        -- A row of a band that stays is in no other band, and in its own band it is not the row of a copy.
        have hsame := h.eq_of_origins hb hb' hlies ⟨by simp only [Band.origin]; omega, by
          rw [Nat.zero_mul, Nat.add_zero, heq]
          exact copy_lt hbelow' hcopy'⟩
        cases hsame
        have heq' : o + below + 0 * (height + 1) = o + below' + copy' * (height + 1) := by omega
        have := (copy_inj hbelow hbelow' heq').2
        omega
    · rw [Band.actAll_copies _ (lt_copy hpos) (copy_lt hbelow hcopy)]
      exact ⟨fun _ => ⟨r, o, height, copies, below, copy, hb, hbelow, hpos, hcopy, rfl⟩, fun _ => rfl⟩

/-- On a sheet whose rows bear their numbers, blank in the end are exactly the rows of copies. -/
theorem Laid.blank_iff (h : Laid leaves areas grid row row bands row' origin') {place : Nat} :
    Sheet.numbered.actAll (bands.flatMap Band.actions) place = none ↔
      ∃ r o height copies below copy, .kept r o height copies ∈ bands ∧ below ≤ height ∧ 1 ≤ copy ∧ copy ≤ copies ∧
        place = o + below + copy * (height + 1) := by
  have hnumbered : ∀ d, Sheet.numbered (row + d) = some (row + d) := fun _ => rfl
  by_cases hlies : row ≤ place ∧ place < origin'
  · exact h.sheet_eq_none_iff hnumbered hlies.1 hlies.2
  · obtain ⟨habove, hbelow, -⟩ := h.sheet hnumbered
    have hle := h.le.2
    constructor
    · intro hnone
      rcases Nat.lt_or_ge place row with hlt | hge
      · rw [habove place hlt] at hnone
        cases hnone
      · rw [show place = origin' + (place - origin') by omega, hbelow] at hnone
        cases hnone
    · rintro ⟨r, o, height, copies, below, copy, hb, hbelow', -, hcopy, rfl⟩
      have hbounds := h.bounds hb
      have hlt : o + below + copy * (height + 1) < o + (copies + 1) * (height + 1) := copy_lt hbelow' hcopy
      simp only [Band.origin, Band.nextOrigin] at hbounds
      omega

/-- The rows that go out are those of the bands that do, in order. -/
theorem Laid.filter_eq (h : Laid leaves areas grid row origin bands row' origin') {p : Nat → Bool}
    (hdeleted : ∀ r o, .deleted r o ∈ bands → p r = true)
    (hkept : ∀ r o height copies, .kept r o height copies ∈ bands → ∀ place ≤ height, p (r + place) = false) :
    (List.range' row (row' - row)).filter p = bands.filterMap Band.deletedRow? := by
  induction bands generalizing row origin with
  | nil =>
    cases h
    simp
  | cons band rest ih =>
    obtain ⟨rfl, rfl⟩ := h.head
    have hrest := ih h.tail (fun r o hb => hdeleted r o (List.mem_cons_of_mem _ hb))
      (fun r o height copies hb => hkept r o height copies (List.mem_cons_of_mem _ hb))
    have hlt := band.row_lt_nextRow
    have hle := h.tail.le.1
    have hsplit : List.range' band.row (row' - band.row) =
        List.range' band.row (band.nextRow - band.row) ++ List.range' band.nextRow (row' - band.nextRow) := by
      have e1 : band.nextRow = band.row + (band.nextRow - band.row) := by omega
      have e2 : row' - band.row = (band.nextRow - band.row) + (row' - band.nextRow) := by omega
      rw [e2, ← List.range'_append_1, ← e1]
    rw [hsplit, List.filter_append, hrest, List.filterMap_cons]
    cases band with
    | deleted r o =>
      have hr := hdeleted r o List.mem_cons_self
      simp [Band.row, Band.nextRow, Band.deletedRow?, hr]
    | kept r o height copies =>
      have hnone : (List.range' r (r + height + 1 - r)).filter p = [] := by
        rw [List.filter_eq_nil_iff]
        intro q hq
        rw [List.mem_range'_1] at hq
        have := hkept r o height copies List.mem_cons_self (q - r) (by omega)
        rw [show r + (q - r) = q by omega] at this
        simp [this]
      simp only [Band.row, Band.nextRow, Band.deletedRow?, hnone, List.nil_append]

/-- A row is counted as gone if and only if it is a band that goes out. -/
theorem Laid.isDeleted_eq {layout : Layout} (h : Laid leaves areas grid row origin bands row' origin')
    (hs : layout.strips = bands.flatMap (Band.strips leaves areas grid)) :
    (∀ r o, .deleted r o ∈ bands → layout.isDeleted r = true) ∧
      ∀ r o height copies, .kept r o height copies ∈ bands → ∀ place ≤ height, layout.isDeleted (r + place) = false := by
  constructor
  · intro r o hb
    rw [isDeleted, (h.deleted_iff hs).2 hb]
    rfl
  · intro r o height copies hb place hplace
    rw [isDeleted, h.fate_kept hs hb hplace]
    rfl

/-- The row actions of a layout carry it out on a sheet whose rows bear their numbers. Every row of the template that stays comes
to stand where the layout has it. The deletions take out the rows that go out, in order. Rows above those of the template keep
their places, and rows below them move by the shift of the layout. Blank are exactly the rows of copies. -/
theorem actions_realise_layout {layout : Layout} (h : ofTemplate leaves areas grid = .ok layout) :
    (∀ row origin copies stride, layout.fate? row = some (.placed origin copies stride) →
        Sheet.numbered.actAll (layout.scaffold areas).rows origin = some row) ∧
      Sheet.numbered.removed (layout.scaffold areas).rows = ((usedRows areas grid).filter layout.isDeleted).map some ∧
      (∀ row, (∀ used ∈ usedRows areas grid, row < used) →
        Sheet.numbered.actAll (layout.scaffold areas).rows row = some row) ∧
      (∀ row : Nat, (∀ used ∈ usedRows areas grid, used < row) → ∃ place : Nat, (place : Int) = row + layout.shift ∧
        Sheet.numbered.actAll (layout.scaffold areas).rows place = some row) ∧
      ∀ place, Sheet.numbered.actAll (layout.scaffold areas).rows place = none ↔
        ∃ row origin copies stride copy, layout.fate? row = some (.placed origin copies stride) ∧ 1 ≤ copy ∧ copy ≤ copies ∧
          place = origin + copy * stride := by
  obtain ⟨first, stop, bands, bottom, hle, hused, hlaid, hstrips, hshift⟩ := exists_laid h
  have hnumbered : ∀ d, Sheet.numbered (first + d) = some (first + d) := fun _ => rfl
  obtain ⟨habove, hbelow, hremoved⟩ := hlaid.sheet hnumbered
  have hbottom := hlaid.le.2
  rw [hlaid.scaffold_rows hstrips]
  refine ⟨?_, ?_, ?_, ?_, ?_⟩
  · intro row origin copies stride hfate
    obtain ⟨top, o, height, place, hb, hplace, rfl, rfl, -⟩ := (hlaid.placed_iff hstrips).1 hfate
    exact hlaid.sheet_kept hnumbered hb hplace
  · rw [hremoved, hused, hlaid.filter_eq (hlaid.isDeleted_eq hstrips).1 (hlaid.isDeleted_eq hstrips).2]
  · intro row hrow
    rcases Nat.eq_or_lt_of_le hle with rfl | hlt
    · rw [hlaid.eq_nil.1]
      rfl
    · have hmem : first ∈ usedRows areas grid := by
        rw [hused, List.mem_range'_1]
        omega
      exact habove row (hrow first hmem)
  · intro row hrow
    rcases Nat.eq_or_lt_of_le hle with rfl | hlt
    · obtain ⟨rfl, rfl⟩ := hlaid.eq_nil
      exact ⟨row, by omega, rfl⟩
    · have hmem : stop - 1 ∈ usedRows areas grid := by
        rw [hused, List.mem_range'_1]
        omega
      have hstop := hrow _ hmem
      refine ⟨bottom + (row - stop), by omega, ?_⟩
      rw [hbelow]
      congr 1
      omega
  · intro place
    rw [hlaid.blank_iff]
    constructor
    · rintro ⟨r, o, height, copies, below, copy, hb, hbelow', hpos, hcopy, rfl⟩
      exact ⟨r + below, o + below, copies, height + 1, copy, hlaid.fate_kept hstrips hb hbelow', hpos, hcopy, rfl⟩
    · rintro ⟨row, origin, copies, stride, copy, hfate, hpos, hcopy, rfl⟩
      obtain ⟨r, o, height, below, hb, hbelow', rfl, rfl, rfl⟩ := (hlaid.placed_iff hstrips).1 hfate
      exact ⟨r, o, height, copies, below, copy, hb, hbelow', hpos, hcopy, rfl⟩

/-- On the sample one row goes out, and the copies of the list and of the two rows of the block come in. -/
theorem actions_realise_sample : ∃ layout, ofTemplate Sample.data Sample.merges Sample.texts = .ok layout ∧
    Sheet.numbered.removed (layout.scaffold Sample.merges).rows = [some 1] ∧
      Sheet.numbered.actAll (layout.scaffold Sample.merges).rows 5 = some 5 ∧
        ∀ place ∈ [2, 6, 7], Sheet.numbered.actAll (layout.scaffold Sample.merges).rows place = none := by
  obtain ⟨layout, hlayout, hdeleted, hlist, hacross, hupper, hlower⟩ := Sample.exists_layout
  obtain ⟨hplaced, hremoved, -, -, hblank⟩ := actions_realise_layout hlayout
  have hused : usedRows Sample.merges Sample.texts = [1, 2, 3, 4, 5] := by decide +kernel
  refine ⟨layout, hlayout, ?_, hplaced 5 5 1 2 hlower, ?_⟩
  · rw [hremoved, hused]
    simp [isDeleted, hdeleted, hlist, hacross, hupper, hlower]
  · intro place hplace
    rw [hblank]
    simp only [List.mem_cons, List.not_mem_nil, or_false] at hplace
    rcases hplace with rfl | rfl | rfl
    · exact ⟨2, 1, 1, 1, 1, hlist, by decide, by decide, by decide⟩
    · exact ⟨4, 4, 1, 2, 1, hupper, by decide, by decide, by decide⟩
    · exact ⟨5, 5, 1, 2, 1, hlower, by decide, by decide, by decide⟩

end Layout
end SheetTemplate

import SheetTemplate.Proofs.Walk

/-!
# The rows of the output

Which rows of the sheet a layout fills. `Layout.Stands` says that a copy of a row of the template stands in a row of the sheet; the
row itself counts as copy 0. Different copies stand in different rows (`stands_inj`), and together they take the rows from the
first one on without a gap (`exists_stands_iff`).

`Layout.Opens` names the rows that are met outside of blocks. A row that stays has the copies and the distance of the row that
opens its block (`opens_of_placed`).
-/

namespace SheetTemplate
namespace Layout

/-- The first row in use; 0 where there is none. -/
def firstRow (areas : List Area) (grid : Grid) : Nat := (usedRows areas grid).headD 0

/-- The rows of a template that are met outside of blocks: the first one, the row below one that goes out, and the row below a row
that stays and the block that it opens. -/
inductive Opens (leaves : Leaves) (areas : List Area) (grid : Grid) : Nat → Prop
  | first : Opens leaves areas grid (firstRow areas grid)
  | deleted {row : Nat} (above : Opens leaves areas grid row) (refused : refuses leaves grid row = true) :
      Opens leaves areas grid (row + 1)
  | kept {row : Nat} (above : Opens leaves areas grid row) (stays : refuses leaves grid row = false) :
      Opens leaves areas grid (row + ownHeight leaves areas grid row + 1)

/-- Copy `copy` of row `row` of the template stands in row `place` of the sheet. -/
def Stands (layout : Layout) (row copy place : Nat) : Prop :=
  ∃ origin copies stride, layout.fate? row = some (.placed origin copies stride) ∧ copy ≤ copies ∧ place = origin + copy * stride

variable {leaves : Leaves} {areas : List Area} {grid : Grid} {row origin row' origin' : Nat} {bands : List Band}

/-- A layout consists of bands from the first row in use on. The row below them stands where the shift of the layout moves it. -/
theorem exists_laid_shift {layout : Layout} (h : ofTemplate leaves areas grid = .ok layout) :
    ∃ stop bands bottom, Laid leaves areas grid (firstRow areas grid) (firstRow areas grid) bands stop bottom ∧
      layout.strips = bands.flatMap (Band.strips leaves areas grid) ∧ layout.shift = (bottom : Int) - stop := by
  obtain ⟨first, stop, bands, bottom, hle, hused, hlaid, hstrips, hshift⟩ := exists_laid h
  rcases Nat.eq_or_lt_of_le hle with rfl | hlt
  · obtain ⟨rfl, rfl⟩ := hlaid.eq_nil
    exact ⟨_, [], _, .nil _ _, hstrips, by omega⟩
  · have hfirst : firstRow areas grid = first := by
      rw [firstRow, hused, show stop - first = stop - first - 1 + 1 by omega, List.range'_succ, List.headD_cons]
    rw [hfirst]
    exact ⟨stop, bands, bottom, hlaid, hstrips, hshift⟩

/-- A layout consists of bands from the first row in use on, and every band begins with a row that is met outside of blocks. -/
theorem exists_laid_firstRow {layout : Layout} (h : ofTemplate leaves areas grid = .ok layout) :
    ∃ stop bands bottom, Laid leaves areas grid (firstRow areas grid) (firstRow areas grid) bands stop bottom ∧
      layout.strips = bands.flatMap (Band.strips leaves areas grid) := by
  obtain ⟨stop, bands, bottom, hlaid, hstrips, -⟩ := exists_laid_shift h
  exact ⟨stop, bands, bottom, hlaid, hstrips⟩

/-- The bands of a layout cover the rows in use. -/
theorem Laid.usedRows_eq {layout : Layout} {stop bottom : Nat}
    (hlaid : Laid leaves areas grid (firstRow areas grid) (firstRow areas grid) bands stop bottom)
    (hs : layout.strips = bands.flatMap (Band.strips leaves areas grid)) (h : ofTemplate leaves areas grid = .ok layout) :
    usedRows areas grid = List.range' (firstRow areas grid) (stop - firstRow areas grid) := by
  obtain ⟨first, last, walked, _, -, hused, hwalked, hstrips, -⟩ := exists_laid h
  rw [hused, ← hwalked.rows_eq, ← hstrips, hs, hlaid.rows_eq]

/-- Bands begin with rows that are met outside of blocks. -/
theorem Laid.opens (h : Laid leaves areas grid row origin bands row' origin') (hrow : Opens leaves areas grid row) {band : Band}
    (hb : band ∈ bands) : Opens leaves areas grid band.row := by
  induction h with
  | nil => cases hb
  | deleted refused _ _ _ ih =>
    rcases List.mem_cons.1 hb with rfl | hmem
    · exact hrow
    · exact ih (.deleted hrow refused) hmem
  | kept stays _ height_eq _ _ _ ih =>
    rcases List.mem_cons.1 hb with rfl | hmem
    · exact hrow
    · subst height_eq
      exact ih (.kept hrow stays) hmem

/-- The row below a band begins the next one, which stands below it. -/
theorem Laid.exists_next (h : Laid leaves areas grid row origin bands row' origin') {band : Band} (hb : band ∈ bands)
    (hlt : band.nextRow < row') : ∃ next ∈ bands, next.row = band.nextRow ∧ next.origin = band.nextOrigin := by
  obtain ⟨above, below, rfl, -, hbelow⟩ := h.split hb
  have htail := hbelow.tail
  cases below with
  | nil =>
    obtain ⟨next, hmem, -⟩ := htail.exists_of_row (Nat.le_refl _) hlt
    cases hmem
  | cons next below =>
    exact ⟨next, List.mem_append_right _ (List.mem_cons_of_mem _ List.mem_cons_self), htail.head⟩

/-- Every row in use that is met outside of blocks begins a band. -/
theorem Laid.exists_of_opens (h : Laid leaves areas grid (firstRow areas grid) origin bands row' origin') {top : Nat}
    (hopens : Opens leaves areas grid top) (hlt : top < row') : ∃ band ∈ bands, band.row = top := by
  induction hopens with
  | first =>
    obtain ⟨band, hb, hlies⟩ := h.exists_of_row (Nat.le_refl _) hlt
    have hbounds := h.bounds hb
    exact ⟨band, hb, by omega⟩
  | @deleted r _ refused ih =>
    obtain ⟨band, hb, rfl⟩ := ih (by omega)
    cases band with
    | deleted top o =>
      obtain ⟨next, hmem, hnext, -⟩ := h.exists_next hb hlt
      exact ⟨next, hmem, hnext⟩
    | kept top o height copies =>
      have hstays := (h.of_kept hb).1
      simp only [Band.row] at refused
      rw [hstays] at refused
      cases refused
  | @kept r _ stays ih =>
    obtain ⟨band, hb, rfl⟩ := ih (by omega)
    cases band with
    | deleted top o =>
      have hrefused := (h.of_deleted hb).1
      simp only [Band.row] at stays
      rw [hrefused] at stays
      cases stays
    | kept top o height copies =>
      obtain ⟨-, -, rfl, -⟩ := h.of_kept hb
      obtain ⟨next, hmem, hnext, -⟩ := h.exists_next hb hlt
      exact ⟨next, hmem, hnext⟩

/-- A row in use that is met outside of blocks and stays begins a band with its copies and its height. -/
theorem Laid.kept_of_opens (h : Laid leaves areas grid (firstRow areas grid) origin bands row' origin') {top : Nat}
    (hopens : Opens leaves areas grid top) (hstays : refuses leaves grid top = false) (hlt : top < row') :
    ∃ o, .kept top o (ownHeight leaves areas grid top) (repetition leaves grid top).rows ∈ bands := by
  obtain ⟨band, hb, rfl⟩ := h.exists_of_opens hopens hlt
  cases band with
  | deleted top o =>
    have hrefused := (h.of_deleted hb).1
    simp only [Band.row] at hstays
    rw [hrefused] at hstays
    cases hstays
  | kept top o height copies =>
    obtain ⟨-, rfl, rfl, -⟩ := h.of_kept hb
    exact ⟨o, hb⟩

/-- A row that stays is in the block of a row that is met outside of blocks, with its copies and their distance. -/
theorem opens_of_placed {layout : Layout} (h : ofTemplate leaves areas grid = .ok layout) {row origin copies stride : Nat}
    (hfate : layout.fate? row = some (.placed origin copies stride)) :
    ∃ top, Opens leaves areas grid top ∧ refuses leaves grid top = false ∧ top ≤ row ∧ row ≤ top + ownHeight leaves areas grid top ∧
      copies = (repetition leaves grid top).rows ∧ stride = ownHeight leaves areas grid top + 1 := by
  obtain ⟨stop, bands, bottom, hlaid, hstrips⟩ := exists_laid_firstRow h
  obtain ⟨top, o, height, place, hb, hplace, rfl, rfl, rfl⟩ := (hlaid.placed_iff hstrips).1 hfate
  obtain ⟨hstays, hcopies, hheight, -⟩ := hlaid.of_kept hb
  exact ⟨top, hlaid.opens .first hb, hstays, by omega, by omega, hcopies, by omega⟩

/-- Copies stand in the rows that bands which stay take. -/
theorem Laid.stands_iff {layout : Layout} (h : Laid leaves areas grid row origin bands row' origin')
    (hs : layout.strips = bands.flatMap (Band.strips leaves areas grid)) {r copy p : Nat} :
    layout.Stands r copy p ↔ ∃ top o height copies place, .kept top o height copies ∈ bands ∧ place ≤ height ∧ copy ≤ copies ∧
      r = top + place ∧ p = o + place + copy * (height + 1) := by
  constructor
  · rintro ⟨stood, copies, stride, hfate, hcopy, rfl⟩
    obtain ⟨top, o, height, place, hb, hplace, rfl, rfl, rfl⟩ := (h.placed_iff hs).1 hfate
    exact ⟨top, o, height, copies, place, hb, hplace, hcopy, rfl, rfl⟩
  · rintro ⟨top, o, height, copies, place, hb, hplace, hcopy, rfl, rfl⟩
    exact ⟨o + place, copies, height + 1, h.fate_kept hs hb hplace, hcopy, rfl⟩

/-- Different copies stand in different rows. -/
theorem stands_inj {layout : Layout} (h : ofTemplate leaves areas grid = .ok layout) {r r' copy copy' p : Nat}
    (h1 : layout.Stands r copy p) (h2 : layout.Stands r' copy' p) : r = r' ∧ copy = copy' := by
  obtain ⟨stop, bands, bottom, hlaid, hstrips⟩ := exists_laid_firstRow h
  obtain ⟨top, o, height, copies, place, hb, hplace, hcopy, rfl, hp⟩ := (hlaid.stands_iff hstrips).1 h1
  obtain ⟨top', o', height', copies', place', hb', hplace', hcopy', rfl, hp'⟩ := (hlaid.stands_iff hstrips).1 h2
  have hlies : o ≤ p ∧ p < o + (copies + 1) * (height + 1) := ⟨by omega, by rw [hp]; exact copy_lt hplace hcopy⟩
  have hlies' : o' ≤ p ∧ p < o' + (copies' + 1) * (height' + 1) := ⟨by omega, by rw [hp']; exact copy_lt hplace' hcopy'⟩
  cases hlaid.eq_of_origins hb hb' hlies hlies'
  obtain ⟨rfl, rfl⟩ := copy_inj hplace hplace' (hp.symm.trans hp')
  exact ⟨rfl, rfl⟩

/-- Copies take the rows from the first one in use on, without a gap. -/
theorem exists_stands_iff {layout : Layout} (h : ofTemplate leaves areas grid = .ok layout) :
    ∃ bottom, ∀ place, (∃ row copy, layout.Stands row copy place) ↔ firstRow areas grid ≤ place ∧ place < bottom := by
  obtain ⟨stop, bands, bottom, hlaid, hstrips⟩ := exists_laid_firstRow h
  refine ⟨bottom, fun p => ⟨?_, ?_⟩⟩
  · rintro ⟨r, copy, hstands⟩
    obtain ⟨top, o, height, copies, place, hb, hplace, hcopy, rfl, rfl⟩ := (hlaid.stands_iff hstrips).1 hstands
    have hbounds := hlaid.bounds hb
    have hlt : o + place + copy * (height + 1) < o + (copies + 1) * (height + 1) := copy_lt hplace hcopy
    simp only [Band.origin, Band.nextOrigin] at hbounds
    omega
  · rintro ⟨h1, h2⟩
    obtain ⟨band, hb, hlies⟩ := hlaid.exists_of_origin h1 h2
    cases band with
    | deleted r o =>
      simp only [Band.origin, Band.nextOrigin] at hlies
      omega
    | kept top o height copies =>
      obtain ⟨place, hplace, copy, hcopy, rfl⟩ := exists_copy hlies.1 hlies.2
      exact ⟨top + place, copy, (hlaid.stands_iff hstrips).2 ⟨top, o, height, copies, place, hb, hplace, hcopy, rfl, rfl⟩⟩

end Layout
end SheetTemplate

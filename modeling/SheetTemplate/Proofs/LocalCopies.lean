import SheetTemplate.Proofs.Runs
import SheetTemplate.Proofs.ShiftedReferences

/-!
# Formulas on copies

Where the references of a formula on a copy point after all steps. `reference_in_copy`: of the rows that are repeated together only
the last one is pointed elsewhere, to the row of the formula itself, and references to the others go on naming the original. So a
reference names the row of its own copy if and only if it stands in the last row of the block and names that row, as it does in
every list of single rows. No reference of the formula is pushed past the last row of the sheet on the way, which `Laid.reference_kept`
needs: such a one would be a reference no more.
-/

namespace SheetTemplate
namespace Layout

variable {leaves : Leaves} {areas : List Area} {grid : Grid} {layout : Layout}

/-- A row that is met outside of blocks begins a band if a row of the template below it stays. -/
theorem Laid.exists_kept {bands : List Band} {stop bottom : Nat}
    (h : Laid leaves areas grid (firstRow areas grid) (firstRow areas grid) bands stop bottom)
    (hs : layout.strips = bands.flatMap (Band.strips leaves areas grid)) {top row origin copies stride : Nat}
    (hopens : Opens leaves areas grid top) (hstays : refuses leaves grid top = false) (htop : top ≤ row)
    (hfate : layout.fate? row = some (.placed origin copies stride)) :
    ∃ o, .kept top o (ownHeight leaves areas grid top) (repetition leaves grid top).rows ∈ bands := by
  obtain ⟨top', o, height, place, hb, hplace, rfl, -⟩ := (h.placed_iff hs).1 hfate
  have hbounds := h.bounds hb
  simp only [Band.nextRow] at hbounds
  exact h.kept_of_opens hopens hstays (by omega)

/-- A reference that the row actions keep on the sheet stays a reference to the same column in all steps. -/
theorem Laid.reference_kept {bands : List Band} {row row' origin origin' : Nat}
    (h : Laid leaves areas grid row origin bands row' origin') {own : Nat} (hown : 1 ≤ own ∧ own ≤ lastRow) {text : String}
    {expanded : Grid} {merges : SortedSet Area} {place : Nat} {r : Formula.Reference}
    (hr : (Formula.pieces text)[place]? = some (.reference r))
    (hstays : RowAction.StaysOnSheet (bands.flatMap Band.actions) r.row) :
    ∃ r', (Formula.pieces (Formula.grow (Formula.growths (bands.filterMap Band.run?) expanded merges)
          (Formula.localize (bands.filterMap Band.run?) own (Formula.shift (bands.flatMap Band.actions) text))))[place]? =
        some (.reference r') ∧ r'.head = r.head :=
  Formula.reference_rebase hown h.growth_bounds hr
    ⟨RowAction.one_le_moveAll (fun _ => h.one_le_of_delete) (Formula.row_of_mem_references (Formula.mem_references hr)).1, hstays.le⟩

/-- The reference in a formula on a copy, once rows have moved and formulas point to their own rows: instead of the last row of the
band it names the row of the formula, and it names any other row of the band where that stands. -/
theorem Laid.reference_local {bands : List Band} {row row' origin' : Nat} (h : Laid leaves areas grid row row bands row' origin')
    {top o height copies place named copy : Nat} (hb : .kept top o height copies ∈ bands) (hplace : place ≤ height)
    (hnamed : named ≤ height) (hcopy : 1 ≤ copy ∧ copy ≤ copies) {text : String} {i : Nat} {r : Formula.Reference}
    (hr : (Formula.pieces text)[i]? = some (.reference r)) (hrow : r.row = top + named) :
    ∃ r', (Formula.pieces (Formula.localize (bands.filterMap Band.run?) (o + place + copy * (height + 1))
          (Formula.shift (bands.flatMap Band.actions) text)))[i]? = some (.reference r') ∧ r'.head = r.head ∧
      r'.row = if named = height then o + place + copy * (height + 1) else o + named := by
  have hnamed_bounds := h.copy_bounds hb hnamed (Nat.zero_le copies)
  have hown := h.copy_bounds hb hplace hcopy.2
  have hmoved : RowAction.moveAll (bands.flatMap Band.actions) r.row = o + named := by
    rw [hrow, h.moveAll_kept hb hnamed]
  obtain ⟨r1, hr1, hhead1, hrow1⟩ := Formula.reference_shift hr (by rw [hmoved]; omega)
  obtain ⟨r2, hr2, hhead2, hrow2⟩ :=
    Formula.reference_localize (h.filter_runs_copy hb hplace hcopy.1 hcopy.2) (by omega) hr1
  refine ⟨r2, hr2, hhead2.trans hhead1, hrow2.trans ?_⟩
  -- The row above the run is the last row of the band.
  rw [hrow1, hmoved]
  by_cases hat : named = height
  · rw [if_pos hat, if_pos (by simp only; omega)]
  · rw [if_neg hat, if_neg (by simp only; omega)]

/-- Where a reference in a copy points, in a formula whose references all stay on the sheet while rows come and go; they stay references
to the same columns. Of the rows that are repeated together, those from `top` on, a reference names the row of the formula itself in
place of the last one and the original in place of any other. It names the row of the same copy exactly if the formula stands in the
last of these rows and names that row. -/
theorem reference_in_copy (h : ofTemplate leaves areas grid = .ok layout)
    {top row other origin origin' copies copies' stride stride' copy : Nat} (hopens : Opens leaves areas grid top)
    (hstays : refuses leaves grid top = false) (hrow : top ≤ row ∧ row ≤ top + ownHeight leaves areas grid top)
    (hother : top ≤ other ∧ other ≤ top + ownHeight leaves areas grid top)
    (hfate : layout.fate? row = some (.placed origin copies stride))
    (hfate' : layout.fate? other = some (.placed origin' copies' stride')) (hcopy : 1 ≤ copy ∧ copy ≤ copies) {column : Column}
    {text : String} (htext : layout.grid.text? ⟨column, origin + copy * stride⟩ = some text)
    (hformula : Formula.isFormula text = true)
    (hsheet : ∀ r ∈ Formula.references text, RowAction.StaysOnSheet (layout.scaffold areas).rows r.row) {place : Nat}
    {r : Formula.Reference} (hr : (Formula.pieces text)[place]? = some (.reference r)) (hnames : r.row = other) :
    ∃ rebased r', (Formula.rebase (layout.scaffold areas).rows (layout.scaffold areas).areas layout.grid).text?
          ⟨column, origin + copy * stride⟩ = some rebased ∧
        (∀ (i : Nat) (s : Formula.Reference), (Formula.pieces text)[i]? = some (.reference s) →
          ∃ s', (Formula.pieces rebased)[i]? = some (.reference s') ∧ s'.head = s.head) ∧
        (Formula.pieces rebased)[place]? = some (.reference r') ∧ r'.head = r.head ∧
        r'.row = (if other = top + ownHeight leaves areas grid top then origin + copy * stride else origin') ∧
        (r'.row = origin' + copy * stride' ↔
          row = top + ownHeight leaves areas grid top ∧ other = top + ownHeight leaves areas grid top) := by
  obtain ⟨stop, bands, bottom, hlaid, hstrips⟩ := exists_laid_firstRow h
  obtain ⟨o, hb⟩ := hlaid.exists_kept hstrips hopens hstays hrow.1 hfate
  generalize ownHeight leaves areas grid top = height at *
  generalize (repetition leaves grid top).rows = count at *
  obtain ⟨below, rfl⟩ : ∃ below, row = top + below := ⟨row - top, by omega⟩
  obtain ⟨named, rfl⟩ : ∃ named, other = top + named := ⟨other - top, by omega⟩
  have hbelow : below ≤ height := by omega
  have hnamed : named ≤ height := by omega
  rw [hlaid.fate_kept hstrips hb hbelow] at hfate
  rw [hlaid.fate_kept hstrips hb hnamed] at hfate'
  cases hfate
  cases hfate'
  -- The row of the copy and the row that the reference moves to are rows of the band.
  have hlt : o + below + copy * (height + 1) < o + (copies + 1) * (height + 1) := copy_lt hbelow hcopy.2
  have hlt' : o + named < o + (copies + 1) * (height + 1) := place_lt hnamed
  have hfirst : o + height < o + below + copy * (height + 1) := lt_copy hcopy.1
  rw [hlaid.scaffold_rows hstrips] at hsheet
  rw [Formula.text?_rebase htext hformula, hlaid.scaffold_rows hstrips, hlaid.runs_eq]
  obtain ⟨r', hr', hhead, hrow'⟩ := hlaid.reference_local hb hbelow hnamed hcopy hr hnames
  have hmoved : o ≤ r'.row ∧ r'.row < o + (copies + 1) * (height + 1) ∧ r'.row ≠ o + height := by
    rw [hrow']
    split <;> omega
  refine ⟨_, r', rfl, ?_, ?_, hhead, ?_, ?_⟩
  · intro i s hs
    exact hlaid.reference_kept (hlaid.copy_bounds hb hbelow hcopy.2) hs (hsheet s (Formula.mem_references hs))
  · refine Formula.getElem?_grow_of_not _ hr' ?_
    rintro first r'' - ⟨⟩ -
    rw [hlaid.find?_growths _ _ hb hmoved.1 hmoved.2.1, if_neg fun hgrows => hmoved.2.2 hgrows.1]
  · rw [hrow']
    simp only [Nat.add_left_cancel_iff]
  · rw [hrow']
    split <;> omega

/-- In the sample the block is met outside of other blocks, and it has two rows. -/
theorem Sample.opens_block : Opens Sample.data Sample.merges Sample.texts 4 ∧ refuses Sample.data Sample.texts 4 = false ∧
    ownHeight Sample.data Sample.merges Sample.texts 4 = 1 := by
  have hrows : firstRow Sample.merges Sample.texts = 1 ∧ refuses Sample.data Sample.texts 1 = true ∧
      (refuses Sample.data Sample.texts 2 = false ∧ ownHeight Sample.data Sample.merges Sample.texts 2 = 0) ∧
      (refuses Sample.data Sample.texts 3 = false ∧ ownHeight Sample.data Sample.merges Sample.texts 3 = 0) ∧
      refuses Sample.data Sample.texts 4 = false ∧ ownHeight Sample.data Sample.merges Sample.texts 4 = 1 := by decide +kernel
  obtain ⟨hfirst, hrefused, ⟨hlist, hlist'⟩, ⟨htotal, htotal'⟩, hblock⟩ := hrows
  have h1 : Opens Sample.data Sample.merges Sample.texts 1 := hfirst ▸ .first
  have h2 : Opens Sample.data Sample.merges Sample.texts 2 := .deleted h1 hrefused
  have h3 := h2.kept hlist
  rw [hlist'] at h3
  have h4 := h3.kept htotal
  rw [htotal'] at h4
  exact ⟨h4, hblock⟩

/-- On the sample the copy of the first row of the block points to itself in place of the last row. -/
theorem reference_in_sample : ∃ layout rebased r', ofTemplate Sample.data Sample.merges Sample.texts = .ok layout ∧
    (Formula.rebase (layout.scaffold Sample.merges).rows (layout.scaffold Sample.merges).areas layout.grid).text?
        ⟨Sample.columnB, 6⟩ = some rebased ∧
      (Formula.pieces rebased)[1]? = some (.reference r') ∧ r'.row = 6 := by
  obtain ⟨layout, hlayout, hfacts⟩ := exists_ok_of_any (show (ofTemplate Sample.data Sample.merges Sample.texts).toOption.any
    (fun layout => layout.fate? 4 = some (.placed 4 1 2) ∧ layout.fate? 5 = some (.placed 5 1 2) ∧
      layout.grid.text? ⟨Sample.columnB, 4 + 1 * 2⟩ = some "=A5*2" ∧
        ∀ r ∈ Formula.references "=A5*2", RowAction.StaysOnSheet (layout.scaffold Sample.merges).rows r.row) = true by decide +kernel)
  obtain ⟨hfate, hfate', htext, hsheet⟩ := of_decide_eq_true hfacts
  obtain ⟨hopens, hstays, hheight⟩ := Sample.opens_block
  obtain ⟨rebased, r', hrebased, -, hr', -, hrow, -⟩ := reference_in_copy hlayout hopens hstays
    (show 4 ≤ 4 ∧ 4 ≤ 4 + ownHeight Sample.data Sample.merges Sample.texts 4 by omega)
    (show 4 ≤ 5 ∧ 5 ≤ 4 + ownHeight Sample.data Sample.merges Sample.texts 4 by omega) hfate hfate'
    (show 1 ≤ 1 ∧ 1 ≤ 1 by omega) htext (by decide) hsheet
    (show (Formula.pieces "=A5*2")[1]? = some (.reference ⟨['A'], ['5'], 5⟩) by decide +kernel) rfl
  rw [hheight] at hrow
  exact ⟨layout, rebased, r', hlayout, hrebased, hr', hrow⟩

/-- A template with a block of two rows, of which the first computes from its own cells. -/
def Sample.orderTexts : Grid :=
  SortedMap.ofList [
    (1, SortedMap.ofList [(columnA, "[orders.*.id]"), (columnB, "[orders.*.net]"), (columnC, "=B1*2")]),
    (2, SortedMap.ofList [(columnB, "[orders.*.tax]"), (columnC, "=B1+B2")])]

def Sample.orderMerges : List Area := [Area.between ⟨columnA, 1⟩ ⟨columnA, 2⟩]

def Sample.orders : Leaves :=
  Leaves.ofValue (.map [("orders", .list [.map [("id", .int 1), ("net", .int 5), ("tax", .int 1)],
    .map [("id", .int 2), ("net", .int 7), ("tax", .int 2)]])])

/-- A copy need not compute from its own cells: in a block of two rows the copy of the first row goes on reading the original. -/
theorem copy_reads_original : ∃ layout, ofTemplate Sample.orders Sample.orderMerges Sample.orderTexts = .ok layout ∧
    layout.fate? 1 = some (.placed 1 1 2) ∧ layout.grid.text? ⟨Sample.columnC, 3⟩ = some "=B1*2" ∧
      (Formula.rebase (layout.scaffold Sample.orderMerges).rows (layout.scaffold Sample.orderMerges).areas layout.grid).text?
        ⟨Sample.columnC, 3⟩ = some "=B1*2" ∧
      (Formula.rebase (layout.scaffold Sample.orderMerges).rows (layout.scaffold Sample.orderMerges).areas layout.grid).text?
        ⟨Sample.columnC, 3⟩ ≠ some "=B3*2" := by
  obtain ⟨layout, hlayout, hfacts⟩ := exists_ok_of_any (show
    (ofTemplate Sample.orders Sample.orderMerges Sample.orderTexts).toOption.any (fun layout =>
      layout.fate? 1 = some (.placed 1 1 2) ∧ layout.grid.text? ⟨Sample.columnC, 3⟩ = some "=B1*2" ∧
        (Formula.rebase (layout.scaffold Sample.orderMerges).rows (layout.scaffold Sample.orderMerges).areas layout.grid).text?
          ⟨Sample.columnC, 3⟩ = some "=B1*2") = true by decide +kernel)
  obtain ⟨hfate, htext, hrebased⟩ := of_decide_eq_true hfacts
  refine ⟨layout, hlayout, hfate, htext, hrebased, ?_⟩
  rw [hrebased]
  decide

end Layout
end SheetTemplate

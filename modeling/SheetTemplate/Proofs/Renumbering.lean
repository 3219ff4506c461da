import SheetTemplate.Proofs.Placement
import SheetTemplate.Proofs.RangeGrowth

/-!
# References keep naming the same row

Row numbers of a template are renumbered when its rows come to stand elsewhere (`Layout.renumber?`). `references_follow_rows`: on a
row of the template itself a formula has the same pieces as before, and each of its references names the row that its own row has
become. Only the end of a range of one row may name another one, the last row of the copies directly below.

A reference moves to where the label of its row stands on the sheet (`Laid.moveAll_renumber`), so references to different rows stay
apart, and a range lies in one row afterwards only if it did before.
-/

namespace SheetTemplate

namespace Layout

/-- The number of a row of the template after all row actions: where it stands if it stays, none if it goes out. Rows above those in
use keep their numbers, and rows below them move by the shift of the layout. -/
def renumber? (layout : Layout) (areas : List Area) (grid : Grid) (row : Nat) : Option Int :=
  match layout.fate? row with
  | some (.placed origin _ _) => some origin
  | some (.deleted _) => none
  | none => some (if row < firstRow areas grid then row else row + layout.shift)

variable {leaves : Leaves} {areas : List Area} {grid : Grid} {layout : Layout} {bands : List Band} {row row' origin' : Nat}

/-- Nothing becomes of rows that are not in use. -/
theorem Laid.row_of_fate?_eq_none (h : Laid leaves areas grid row row bands row' origin')
    (hs : layout.strips = bands.flatMap (Band.strips leaves areas grid)) {r : Nat} (hfate : layout.fate? r = none) :
    r < row ∨ row' ≤ r := by
  by_contra hused
  obtain ⟨band, hb, hlies⟩ := h.exists_of_row (r := r) (by omega) (by omega)
  cases band with
  | deleted top o =>
    simp only [Band.row, Band.nextRow] at hlies
    obtain rfl : r = top := by omega
    rw [(h.deleted_iff hs).2 hb] at hfate
    cases hfate
  | kept top o height copies =>
    simp only [Band.row, Band.nextRow] at hlies
    obtain ⟨place, rfl⟩ : ∃ place, r = top + place := ⟨r - top, by omega⟩
    rw [h.fate_kept hs hb (by omega)] at hfate
    cases hfate

/-- A reference moves to the new number of its row, and there the label of the row stands on the sheet. -/
theorem Laid.moveAll_renumber (h : Laid leaves areas grid (firstRow areas grid) (firstRow areas grid) bands row' origin')
    (hs : layout.strips = bands.flatMap (Band.strips leaves areas grid)) (hshift : layout.shift = (origin' : Int) - row') {r : Nat}
    {o : Int} (hr : layout.renumber? areas grid r = some o) :
    (RowAction.moveAll (bands.flatMap Band.actions) r : Int) = o ∧
      Sheet.numbered.actAll (bands.flatMap Band.actions) (RowAction.moveAll (bands.flatMap Band.actions) r) = some r := by
  have hnumbered : ∀ d, Sheet.numbered (firstRow areas grid + d) = some (firstRow areas grid + d) := fun _ => rfl
  obtain ⟨habove, hbelow, -⟩ := h.sheet hnumbered
  obtain ⟨hstays, hmoves⟩ := h.moveAll_eq
  unfold renumber? at hr
  split at hr
  · rename_i stood copies stride hfate
    cases hr
    obtain ⟨top, o, height, place, hb, hplace, rfl, rfl, -⟩ := (h.placed_iff hs).1 hfate
    rw [h.moveAll_kept hb hplace]
    exact ⟨rfl, h.sheet_kept hnumbered hb hplace⟩
  · cases hr
  · rename_i hfate
    cases hr
    have houtside := h.row_of_fate?_eq_none hs hfate
    have hle := h.le.1
    split
    · rename_i hlt
      rw [hstays r hlt, habove r hlt]
      exact ⟨rfl, rfl⟩
    · have hstop : row' ≤ r := by omega
      have hmoved := hmoves r hstop
      rw [show firstRow areas grid + (r - firstRow areas grid) = r by omega] at hmoved
      rw [hmoved, hbelow, hshift]
      refine ⟨by omega, congrArg some ?_⟩
      omega

/-- Different rows have different numbers after all row actions. -/
theorem Laid.renumber_inj (h : Laid leaves areas grid (firstRow areas grid) (firstRow areas grid) bands row' origin')
    (hs : layout.strips = bands.flatMap (Band.strips leaves areas grid)) (hshift : layout.shift = (origin' : Int) - row')
    {r r' : Nat} {o o' : Int} (hr : layout.renumber? areas grid r = some o) (hr' : layout.renumber? areas grid r' = some o')
    (hsame : RowAction.moveAll (bands.flatMap Band.actions) r = RowAction.moveAll (bands.flatMap Band.actions) r') : r = r' := by
  have hlabel := (h.moveAll_renumber hs hshift hr).2
  rw [hsame, (h.moveAll_renumber hs hshift hr').2] at hlabel
  exact (Option.some.inj hlabel).symm

/-- References keep naming the same row. A formula on a row of the template itself, all of whose references name rows that stay or
rows that are not in use and are pushed past the last row of the sheet at no time, has the same pieces as before: what is no
reference stays as it is, and a reference keeps its column and names the new number of its row. Only one that ends a range of one row
may name another row instead: where that row is directly above a run of added rows, the last row of the run. -/
theorem references_follow_rows (h : ofTemplate leaves areas grid = .ok layout) {row origin copies stride : Nat}
    (hfate : layout.fate? row = some (.placed origin copies stride)) {column : Column} {text : String}
    (htext : layout.grid.text? ⟨column, origin⟩ = some text) (hformula : Formula.isFormula text = true)
    (hnames : ∀ r ∈ Formula.references text, (∃ o : Int, layout.renumber? areas grid r.row = some o) ∧
      RowAction.StaysOnSheet (layout.scaffold areas).rows r.row) :
    ∃ rebased, (Formula.rebase (layout.scaffold areas).rows (layout.scaffold areas).areas layout.grid).text?
          ⟨column, origin⟩ = some rebased ∧
        (Formula.pieces rebased).length = (Formula.pieces text).length ∧
        ∀ place,
          (∀ lexeme, (Formula.pieces text)[place]? = some (.other lexeme) →
            (Formula.pieces rebased)[place]? = some (.other lexeme)) ∧
          ∀ r, (Formula.pieces text)[place]? = some (.reference r) →
            ∃ r', (Formula.pieces rebased)[place]? = some (.reference r') ∧ r'.head = r.head ∧
              (layout.renumber? areas grid r.row = some (r'.row : Int) ∨
                Formula.EndsRange [] text place r.row ∧ ∃ run ∈ RowAction.runs (layout.scaffold areas).rows,
                  layout.renumber? areas grid r.row = some ((run.first : Int) - 1) ∧ r'.row = run.last) := by
  obtain ⟨stop, bands, bottom, hlaid, hstrips, hshift⟩ := exists_laid_shift h
  obtain ⟨top, o, height, below, hown, hbelow, -, rfl, -⟩ := (hlaid.placed_iff hstrips).1 hfate
  rw [hlaid.scaffold_rows hstrips] at hnames
  rw [Formula.text?_rebase htext hformula, hlaid.scaffold_rows hstrips, hlaid.runs_eq,
    Formula.localize_of_nil (hlaid.filter_runs_own hown hbelow)]
  generalize (layout.scaffold areas).areas = merges
  refine ⟨_, rfl, ?_, ?_⟩
  · rw [Formula.length_pieces_grow, Formula.length_pieces_shift]
  · intro place
    refine ⟨?_, ?_⟩
    · intro lexeme hlexeme
      refine Formula.getElem?_grow_of_not _ (Formula.other_shift hlexeme) ?_
      rintro first r - ⟨⟩ -
    · intro r hr
      -- Every reference of the formula has a new number that is a row of the sheet, and it moves there.
      have hmoved : ∀ {i : Nat} {other : Formula.Reference}, (Formula.pieces text)[i]? = some (.reference other) →
          ∃ number : Int, layout.renumber? areas grid other.row = some number ∧
            (RowAction.moveAll (bands.flatMap Band.actions) other.row : Int) = number ∧
            1 ≤ RowAction.moveAll (bands.flatMap Band.actions) other.row ∧
            RowAction.moveAll (bands.flatMap Band.actions) other.row ≤ lastRow := by
        intro i other hother
        have hmem := Formula.mem_references hother
        obtain ⟨⟨number, hnumber⟩, hstays⟩ := hnames other hmem
        have hone := RowAction.one_le_moveAll (fun _ => hlaid.one_le_of_delete) (Formula.row_of_mem_references hmem).1
        exact ⟨number, hnumber, (hlaid.moveAll_renumber hstrips hshift hnumber).1, hone, hstays.le⟩
      obtain ⟨number, hnumber, heq, hrow⟩ := hmoved hr
      obtain ⟨r1, hr1, hhead1, hrow1⟩ := Formula.reference_shift hr hrow
      rcases Formula.reference_grow_cases hr1 hlaid.growth_bounds with hstays | ⟨first, g, hg, hopener, hfirst, habove, hgrows⟩
      · refine ⟨r1, hstays, hhead1, Or.inl ?_⟩
        rw [hnumber, hrow1, heq]
      · refine ⟨_, hgrows, hhead1, Or.inr ⟨?_, ?_⟩⟩
        · obtain ⟨before, rfl, hbefore, hcolon⟩ := Formula.openerAt_eq_some_iff.1 hopener
          obtain ⟨opening, hopening, hopens⟩ := Formula.reference_of_shift hbefore
          obtain ⟨number', hnumber', -⟩ := hmoved hopening
          have hsame : RowAction.moveAll (bands.flatMap Band.actions) opening.row
              = RowAction.moveAll (bands.flatMap Band.actions) r.row := by
            rw [← hopens, hfirst, hrow1]
          exact ⟨before, opening, rfl, hopening, Formula.mark_shift.1 hcolon,
            hlaid.renumber_inj hstrips hshift hnumber' hnumber hsame⟩
        · obtain ⟨top', o', height', copies', hb', hpos, -, rfl⟩ := (mem_growths hlaid).1 hg
          have hrun := mem_filterMap_run?.2 ⟨top', o', height', copies', hb', hpos, rfl⟩
          have habove' : number = ((o' + height' : Nat) : Int) := by rw [← heq, ← hrow1, ← habove]
          refine ⟨_, hrun, ?_, by rw [Formula.Reference.withRow]⟩
          have hnext : number = ((o' + height' + 1 : Nat) : Int) - 1 := by omega
          rw [hnumber, hnext]

/-- On the sample the total below the list names the list where it stands, and its end goes on to the last copy. -/
theorem references_follow_sample : ∃ layout rebased r, ofTemplate Sample.data Sample.merges Sample.texts = .ok layout ∧
    layout.renumber? Sample.merges Sample.texts 2 = some 1 ∧
      (Formula.rebase (layout.scaffold Sample.merges).rows (layout.scaffold Sample.merges).areas layout.grid).text?
        ⟨Sample.columnC, 3⟩ = some rebased ∧
      (Formula.pieces rebased)[3]? = some (.reference r) ∧ r.head = ['A'] ∧ r.row = 1 := by
  obtain ⟨layout, hlayout, hfacts⟩ := exists_ok_of_any (show (ofTemplate Sample.data Sample.merges Sample.texts).toOption.any
    (fun layout => layout.fate? 3 = some (.placed 3 0 1) ∧ layout.grid.text? ⟨Sample.columnC, 3⟩ = some "=SUM(A2:A2)" ∧
      layout.renumber? Sample.merges Sample.texts 2 = some 1 ∧
        RowAction.StaysOnSheet (layout.scaffold Sample.merges).rows 2) = true by decide +kernel)
  obtain ⟨hfate, htext, hnumber, hsheet⟩ := of_decide_eq_true hfacts
  have hreferences : ∀ r ∈ Formula.references "=SUM(A2:A2)", r.row = 2 := by decide +kernel
  have hpieces : (Formula.pieces "=SUM(A2:A2)")[1]? = some (.other (.word ['S', 'U', 'M'])) ∧
      (Formula.pieces "=SUM(A2:A2)")[3]? = some (.reference ⟨['A'], ['2'], 2⟩) := by decide +kernel
  obtain ⟨rebased, hrebased, -, hplaces⟩ := references_follow_rows hlayout hfate htext (by decide) (by
    intro r hr
    rw [hreferences r hr]
    exact ⟨⟨1, hnumber⟩, hsheet⟩)
  obtain ⟨r, hr, hhead, hrow⟩ := (hplaces 3).2 _ hpieces.2
  refine ⟨layout, rebased, r, hlayout, hnumber, hrebased, hr, hhead, ?_⟩
  rcases hrow with hrow | ⟨⟨before, first, hbefore, hfirst, -⟩, -⟩
  · rw [hnumber] at hrow
    have := Option.some.inj hrow
    omega
  · obtain rfl : before = 1 := by omega
    rw [hpieces.1] at hfirst
    cases hfirst

end Layout
end SheetTemplate

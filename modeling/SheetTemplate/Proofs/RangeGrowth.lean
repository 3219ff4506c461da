import SheetTemplate.Proofs.LocalCopies

/-!
# Ranges over lists

What becomes of a range of one row over a row that is repeated as a list. `range_over_list`: its end goes on to the last copy exactly
if the row where the list begins lies in no merge of several rows whose first cell holds a value; whether that merge is repeated
with the list does not matter. Its start stays, unless the range begins where another one ends.
-/

namespace SheetTemplate

namespace Formula

/-- Piece `place` of a formula ends a range that begins in row `row` after row actions. -/
def EndsRange (actions : List RowAction) (s : String) (place row : Nat) : Prop :=
  ∃ before first, place = before + 2 ∧ (pieces s)[before]? = some (.reference first) ∧
    (pieces s)[before + 1]? = some (.other (.mark ':')) ∧ RowAction.moveAll actions first.row = row

/-- The opener of a range is a reference two pieces before its end, with a colon in between. -/
theorem openerAt_eq_some_iff {ps : List Piece} {place : Nat} {first : Reference} :
    openerAt ps place = some first ↔
      ∃ before, place = before + 2 ∧ ps[before]? = some (.reference first) ∧ ps[before + 1]? = some (.other (.mark ':')) := by
  match place with
  | 0 => simp [openerAt]
  | 1 => simp [openerAt]
  | before + 2 =>
    simp only [openerAt, Nat.add_right_cancel_iff, exists_eq_left']
    constructor
    · intro h
      unfold opener at h
      split at h
      · rename_i hfirst hcolon
        cases h
        exact ⟨hfirst, hcolon⟩
      · cases h
    · rintro ⟨hfirst, hcolon⟩
      rw [hfirst, hcolon]
      rfl

/-- After its references moved a range ends where it did, and it begins in the row to which its opener moved. -/
theorem endsRange_iff {actions : List RowAction} {s : String} {place row : Nat} (hrow : 1 ≤ row ∧ row ≤ lastRow) :
    EndsRange actions s place row ↔ ∃ first, openerAt (pieces (shift actions s)) place = some first ∧ first.row = row := by
  constructor
  · rintro ⟨before, first, rfl, hfirst, hcolon, rfl⟩
    obtain ⟨moved, hmoved, -, hmovedrow⟩ := reference_shift hfirst hrow
    exact ⟨moved, openerAt_eq_some_iff.2 ⟨before, rfl, hmoved, mark_shift.2 hcolon⟩, hmovedrow⟩
  · rintro ⟨moved, hopener, rfl⟩
    obtain ⟨before, rfl, hmoved, hcolon⟩ := openerAt_eq_some_iff.1 hopener
    obtain ⟨first, hfirst, hmovedrow⟩ := reference_of_shift hmoved
    exact ⟨before, first, rfl, hfirst, mark_shift.1 hcolon, hmovedrow.symm⟩

/-- A range of one row moves with the row. -/
theorem range_shift {actions : List RowAction} {s : String} {place row : Nat} {a b : Reference}
    (ha : (pieces s)[place]? = some (.reference a)) (hcolon : (pieces s)[place + 1]? = some (.other (.mark ':')))
    (hb : (pieces s)[place + 2]? = some (.reference b)) (hends : a.row = row ∧ b.row = row)
    (hrow : 1 ≤ RowAction.moveAll actions row ∧ RowAction.moveAll actions row ≤ lastRow) :
    ∃ a' b', (pieces (shift actions s))[place]? = some (.reference a') ∧
      (pieces (shift actions s))[place + 1]? = some (.other (.mark ':')) ∧
      (pieces (shift actions s))[place + 2]? = some (.reference b') ∧ a'.head = a.head ∧ b'.head = b.head ∧
      a'.row = RowAction.moveAll actions row ∧ b'.row = RowAction.moveAll actions row := by
  obtain ⟨rfl, hsame⟩ := hends
  obtain ⟨a', ha', hahead, harow⟩ := reference_shift ha hrow
  rw [← hsame] at hrow ⊢
  obtain ⟨b', hb', hbhead, hbrow⟩ := reference_shift hb hrow
  rw [← hsame] at harow
  exact ⟨a', b', ha', mark_shift.2 hcolon, hb', hahead, hbhead, harow, hbrow⟩

section Growth

variable {growths : List Growth} {s : String} {place row last : Nat} {grows ends : Prop} [Decidable grows]

/-- A reference to a row with a growth below it goes on to the last row of the growth if it ends a range of that row. -/
theorem reference_grow_or {r : Reference} (hr : (pieces s)[place]? = some (.reference r)) (hrow : r.row = row)
    (hlast : 1 ≤ last ∧ last ≤ lastRow)
    (hfind : growths.find? (fun g => g.above = row) = if grows then some ⟨row, last⟩ else none)
    (hends : ends ↔ ∃ first, openerAt (pieces s) place = some first ∧ first.row = row) :
    ∃ r', (pieces (grow growths s))[place]? = some (.reference r') ∧ r'.head = r.head ∧
      (grows ∧ ends → r'.row = last) ∧ (¬(grows ∧ ends) → r'.row = row) := by
  by_cases h : grows ∧ ends
  · obtain ⟨first, hopener, hfirst⟩ := hends.1 h.2
    rw [if_pos h.1] at hfind
    refine ⟨r.withRow last, ?_, rfl, fun _ => rfl, fun hn => absurd h hn⟩
    exact reference_grow hr hopener (hfirst.trans hrow.symm) (by rw [hrow]; exact hfind) hlast
  · refine ⟨r, getElem?_grow_of_not growths hr ?_, rfl, fun hn => absurd hn h, fun _ => hrow⟩
    intro first r' hopener hr' hsame
    cases hr'
    rw [hrow] at hsame ⊢
    rw [hfind, if_neg]
    intro hgrows
    exact h ⟨hgrows, hends.2 ⟨first, hopener, hsame⟩⟩

/-- A range of a row with a growth below it ends in the last row of the growth. It goes on beginning in the row, unless another
range ends where it begins. -/
theorem range_grow {a b : Reference} (ha : (pieces s)[place]? = some (.reference a))
    (hcolon : (pieces s)[place + 1]? = some (.other (.mark ':'))) (hb : (pieces s)[place + 2]? = some (.reference b))
    (hrows : a.row = row ∧ b.row = row) (hlast : 1 ≤ last ∧ last ≤ lastRow)
    (hfind : growths.find? (fun g => g.above = row) = if grows then some ⟨row, last⟩ else none)
    (hends : ends ↔ ∃ first, openerAt (pieces s) place = some first ∧ first.row = row) :
    ∃ a' b', (pieces (grow growths s))[place]? = some (.reference a') ∧
      (pieces (grow growths s))[place + 1]? = some (.other (.mark ':')) ∧
      (pieces (grow growths s))[place + 2]? = some (.reference b') ∧ a'.head = a.head ∧ b'.head = b.head ∧
      b'.row = (if grows then last else row) ∧ (grows ∧ ends → a'.row = last) ∧ (¬(grows ∧ ends) → a'.row = row) := by
  obtain ⟨a', ha', hahead, haends, hastays⟩ := reference_grow_or ha hrows.1 hlast hfind hends
  have hopener : ∃ first, openerAt (pieces s) (place + 2) = some first ∧ first.row = row :=
    ⟨a, openerAt_eq_some_iff.2 ⟨place, rfl, ha, hcolon⟩, hrows.1⟩
  obtain ⟨b', hb', hbhead, hbends, hbstays⟩ := reference_grow_or hb hrows.2 hlast hfind (iff_of_true trivial hopener)
  have hcolon' : (pieces (grow growths s))[place + 1]? = some (.other (.mark ':')) := by
    apply getElem?_grow_of_not growths hcolon
    intro first r _ hr
    cases hr
  refine ⟨a', b', ha', hcolon', hb', hahead, hbhead, ?_, haends, hastays⟩
  split
  · rename_i hgrows
    exact hbends ⟨hgrows, trivial⟩
  · rename_i hgrows
    exact hbstays fun h => hgrows h.1

end Growth

end Formula

namespace Layout

variable {leaves : Leaves} {areas : List Area} {grid : Grid} {layout : Layout}

/-- A row that is repeated as a list is a band by itself. -/
theorem Laid.kept_of_list {bands : List Band} {first start row' bottom : Nat}
    (h : Laid leaves areas grid first start bands row' bottom)
    (hs : layout.strips = bands.flatMap (Band.strips leaves areas grid)) {row origin copies : Nat}
    (hfate : layout.fate? row = some (.placed origin copies 1)) : .kept row origin 0 copies ∈ bands := by
  obtain ⟨top, o, height, place, hb, hplace, rfl, rfl, hheight⟩ := (h.placed_iff hs).1 hfate
  obtain rfl : height = 0 := by omega
  obtain rfl : place = 0 := by omega
  exact hb

/-- What becomes of a range over a row that is repeated as a list, in a formula on a row of the template itself whose references all stay
on the sheet while rows come and go; they stay references to the same columns. Both ends of the range move to where the list begins.
The end goes on to the last copy unless that row is in a block, and so does the start where it ends another range of the same row. The
range covers the list with all its copies exactly if its first row is in no block and it does not begin where another range ends. -/
theorem range_over_list (h : ofTemplate leaves areas grid = .ok layout) {row origin copies : Nat}
    (hfate : layout.fate? row = some (.placed origin copies 1)) (hcopies : 1 ≤ copies) {other stood copies' stride' : Nat}
    (hfate' : layout.fate? other = some (.placed stood copies' stride')) {column : Column} {text : String}
    (htext : layout.grid.text? ⟨column, stood⟩ = some text) (hformula : Formula.isFormula text = true)
    (hsheet : ∀ r ∈ Formula.references text, RowAction.StaysOnSheet (layout.scaffold areas).rows r.row) {place : Nat}
    {a b : Formula.Reference} (ha : (Formula.pieces text)[place]? = some (.reference a))
    (hcolon : (Formula.pieces text)[place + 1]? = some (.other (.mark ':')))
    (hb : (Formula.pieces text)[place + 2]? = some (.reference b)) (hrow : a.row = row ∧ b.row = row) :
    ∃ rebased a' b', (Formula.rebase (layout.scaffold areas).rows (layout.scaffold areas).areas layout.grid).text?
          ⟨column, stood⟩ = some rebased ∧
        (∀ (i : Nat) (s : Formula.Reference), (Formula.pieces text)[i]? = some (.reference s) →
          ∃ s', (Formula.pieces rebased)[i]? = some (.reference s') ∧ s'.head = s.head) ∧
        (Formula.pieces rebased)[place]? = some (.reference a') ∧
        (Formula.pieces rebased)[place + 1]? = some (.other (.mark ':')) ∧
        (Formula.pieces rebased)[place + 2]? = some (.reference b') ∧ a'.head = a.head ∧ b'.head = b.head ∧
        b'.row = (if Formula.isInBlock layout.grid (layout.scaffold areas).areas origin then origin else origin + copies) ∧
        (Formula.isInBlock layout.grid (layout.scaffold areas).areas origin = false ∧
          Formula.EndsRange (layout.scaffold areas).rows text place origin → a'.row = origin + copies) ∧
        (¬(Formula.isInBlock layout.grid (layout.scaffold areas).areas origin = false ∧
          Formula.EndsRange (layout.scaffold areas).rows text place origin) → a'.row = origin) ∧
        (a'.row = origin ∧ b'.row = origin + copies ↔
          Formula.isInBlock layout.grid (layout.scaffold areas).areas origin = false ∧
            ¬Formula.EndsRange (layout.scaffold areas).rows text place origin) := by
  obtain ⟨stop, bands, bottom, hlaid, hstrips⟩ := exists_laid_firstRow h
  have hlist := hlaid.kept_of_list hstrips hfate
  obtain ⟨top, o, height, below, hown, hbelow, -, rfl, -⟩ := (hlaid.placed_iff hstrips).1 hfate'
  obtain ⟨-, -, -, hone, hlast⟩ := hlaid.of_kept hlist
  have hmoved : RowAction.moveAll (bands.flatMap Band.actions) row = origin := hlaid.moveAll_kept hlist (Nat.le_refl 0)
  have hstood := hlaid.copy_bounds hown hbelow (Nat.zero_le _)
  rw [Nat.zero_mul, Nat.add_zero] at hstood
  rw [hlaid.scaffold_rows hstrips] at hsheet
  rw [Formula.text?_rebase htext hformula, hlaid.scaffold_rows hstrips, hlaid.runs_eq]
  generalize (layout.scaffold areas).areas = merges
  have hkept : ∀ (i : Nat) (s : Formula.Reference), (Formula.pieces text)[i]? = some (.reference s) →
      ∃ s', (Formula.pieces (Formula.grow (Formula.growths (bands.filterMap Band.run?) layout.grid merges)
            (Formula.localize (bands.filterMap Band.run?) (o + below) (Formula.shift (bands.flatMap Band.actions) text))))[i]? =
          some (.reference s') ∧ s'.head = s.head :=
    fun i s hs => hlaid.reference_kept hstood hs (hsheet s (Formula.mem_references hs))
  rw [Formula.localize_of_nil (hlaid.filter_runs_own hown hbelow)] at hkept ⊢
  have hfind := hlaid.find?_growths layout.grid merges hlist (Nat.le_refl origin) (place_lt (Nat.zero_le 0))
  have hpos : 0 < copies := hcopies
  simp only [Nat.add_zero, Nat.zero_add, Nat.mul_one, true_and, hpos] at hfind hlast
  obtain ⟨a1, b1, ha1, hcolon1, hb1, hahead1, hbhead1, hrows1⟩ :=
    Formula.range_shift ha hcolon hb hrow (show _ ∧ _ by rw [hmoved]; omega)
  rw [hmoved] at hrows1
  obtain ⟨a2, b2, ha2, hcolon2, hb2, hahead2, hbhead2, hbrow, haends, hastays⟩ := Formula.range_grow ha1 hcolon1 hb1 hrows1
    (by omega) hfind (Formula.endsRange_iff (by omega))
  refine ⟨_, a2, b2, rfl, hkept, ha2, hcolon2, hb2, hahead2.trans hahead1, hbhead2.trans hbhead1, ?_, haends, hastays, ?_⟩
  · rw [hbrow]
    cases Formula.isInBlock layout.grid merges origin <;> rfl
  · constructor
    · rintro ⟨hastart, hbend⟩
      have hblock : Formula.isInBlock layout.grid merges origin = false := by
        by_contra hblock
        rw [hbrow, if_neg hblock] at hbend
        omega
      refine ⟨hblock, ?_⟩
      intro hends
      have := haends ⟨hblock, hends⟩
      omega
    · rintro ⟨hblock, hends⟩
      rw [hbrow, if_pos hblock]
      exact ⟨hastays fun hgrows => hends hgrows.2, rfl⟩

/-- On the sample the total goes on to the second row of the list. -/
theorem range_over_sample : ∃ layout rebased b', ofTemplate Sample.data Sample.merges Sample.texts = .ok layout ∧
    (Formula.rebase (layout.scaffold Sample.merges).rows (layout.scaffold Sample.merges).areas layout.grid).text?
        ⟨Sample.columnC, 3⟩ = some rebased ∧
      (Formula.pieces rebased)[5]? = some (.reference b') ∧ b'.row = 2 := by
  obtain ⟨layout, hlayout, hfacts⟩ := exists_ok_of_any (show (ofTemplate Sample.data Sample.merges Sample.texts).toOption.any
    (fun layout => layout.fate? 2 = some (.placed 1 1 1) ∧ layout.fate? 3 = some (.placed 3 0 1) ∧
      layout.grid.text? ⟨Sample.columnC, 3⟩ = some "=SUM(A2:A2)" ∧
        Formula.isInBlock layout.grid (layout.scaffold Sample.merges).areas 1 = false ∧
          ∀ r ∈ Formula.references "=SUM(A2:A2)", RowAction.StaysOnSheet (layout.scaffold Sample.merges).rows r.row) = true
    by decide +kernel)
  obtain ⟨hfate, hfate', htext, hblock, hsheet⟩ := of_decide_eq_true hfacts
  have hpieces : (Formula.pieces "=SUM(A2:A2)")[3]? = some (.reference ⟨['A'], ['2'], 2⟩) ∧
      (Formula.pieces "=SUM(A2:A2)")[4]? = some (.other (.mark ':')) ∧
        (Formula.pieces "=SUM(A2:A2)")[5]? = some (.reference ⟨['A'], ['2'], 2⟩) := by decide +kernel
  obtain ⟨rebased, a', b', hrebased, -, -, -, hb', -, -, hrow, -⟩ := range_over_list hlayout hfate (Nat.le_refl 1) hfate' htext
    (by decide) hsheet hpieces.1 hpieces.2.1 hpieces.2.2 ⟨rfl, rfl⟩
  rw [hblock] at hrow
  exact ⟨layout, rebased, b', hlayout, hrebased, hb', hrow⟩

/-- A template with a title that is merged down beside a list, and a total of the list. -/
def Sample.titleTexts : Grid :=
  SortedMap.ofList [
    (1, SortedMap.ofList [(columnA, "[title]")]),
    (2, SortedMap.ofList [(columnB, "[items.*.v]")]),
    (3, SortedMap.ofList [(columnB, "=SUM(B2:B2)")])]

def Sample.titleMerges : List Area := [Area.between ⟨columnA, 1⟩ ⟨columnA, 3⟩]

def Sample.titled : Leaves :=
  Leaves.ofValue (.map [("items", .list [.map [("v", .int 1)], .map [("v", .int 2)]]), ("title", .text "T")])

/-- A range over a list need not grow, although no block is repeated: a title that is merged down beside the list stops it. -/
theorem title_stops_growth : ∃ layout, ofTemplate Sample.titled Sample.titleMerges Sample.titleTexts = .ok layout ∧
    layout.fate? 2 = some (.placed 2 1 1) ∧ layout.fate? 3 = some (.placed 4 0 1) ∧
      layout.grid.text? ⟨Sample.columnB, 4⟩ = some "=SUM(B2:B2)" ∧
      (Formula.rebase (layout.scaffold Sample.titleMerges).rows (layout.scaffold Sample.titleMerges).areas layout.grid).text?
        ⟨Sample.columnB, 4⟩ = some "=SUM(B2:B2)" ∧
      (Formula.rebase (layout.scaffold Sample.titleMerges).rows (layout.scaffold Sample.titleMerges).areas layout.grid).text?
        ⟨Sample.columnB, 4⟩ ≠ some "=SUM(B2:B3)" := by
  obtain ⟨layout, hlayout, hfacts⟩ := exists_ok_of_any (show
    (ofTemplate Sample.titled Sample.titleMerges Sample.titleTexts).toOption.any (fun layout =>
      layout.fate? 2 = some (.placed 2 1 1) ∧ layout.fate? 3 = some (.placed 4 0 1) ∧
        layout.grid.text? ⟨Sample.columnB, 4⟩ = some "=SUM(B2:B2)" ∧
        (Formula.rebase (layout.scaffold Sample.titleMerges).rows (layout.scaffold Sample.titleMerges).areas layout.grid).text?
          ⟨Sample.columnB, 4⟩ = some "=SUM(B2:B2)") = true by decide +kernel)
  obtain ⟨hfate, hfate', htext, hrebased⟩ := of_decide_eq_true hfacts
  refine ⟨layout, hlayout, hfate, hfate', htext, hrebased, ?_⟩
  rw [hrebased]
  decide

end Layout
end SheetTemplate

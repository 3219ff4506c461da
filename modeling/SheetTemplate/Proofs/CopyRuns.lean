import SheetTemplate.Proofs.Placement
import SheetTemplate.Proofs.Runs

/-!
# Runs are the rows of copies

All that the steps on formulas know of a layout are its runs of added rows, read off the flat list of row actions.
`runs_are_expansions`: these are the rows of copies, one run for every row that repeats outside of blocks, in the numbering of the
finished sheet. Between two runs there is at least one row that was there before, so none is joined to the next, and nothing comes in
or goes out while the copies of one row are added.
-/

namespace SheetTemplate
namespace Layout

open RowAction

variable {leaves : Leaves} {areas : List Area} {grid : Grid} {layout : Layout} {row origin row' origin' : Nat} {bands : List Band}

/-- A row of the template in use that is met outside of blocks, stays, and has copies. -/
structure Repeats (leaves : Leaves) (areas : List Area) (grid : Grid) (row : Nat) : Prop where
  used : row ∈ usedRows areas grid
  opens : Opens leaves areas grid row
  stays : refuses leaves grid row = false
  repeated : 0 < (repetition leaves grid row).rows

/-- The rows that the copies of a row and of the block below it fill when the row stands at `origin`. -/
def expansionRun (leaves : Leaves) (areas : List Area) (grid : Grid) (row origin : Nat) : Run :=
  let height := ownHeight leaves areas grid row
  ⟨origin + height + 1, origin + height + (repetition leaves grid row).rows * (height + 1)⟩

/-- The runs of added rows of a layout, for a template with the given areas. -/
def runs (layout : Layout) (areas : List Area) : List Run := RowAction.runs (layout.scaffold areas).rows

/-! ## Bands with copies -/

/-- The row of the template that a band with copies begins with. -/
def Band.repeated? : Band → Option Nat
  | .deleted .. => none
  | .kept row _ _ copies => if copies = 0 then none else some row

theorem Band.row_of_repeated? {band : Band} {top : Nat} (h : band.repeated? = some top) : top = band.row := by
  cases band with
  | deleted row o => cases h
  | kept row o height copies =>
    rw [Band.repeated?, Option.ite_none_left_eq_some] at h
    obtain ⟨-, ⟨⟩⟩ := h
    rfl

theorem mem_filterMap_repeated? {top : Nat} :
    top ∈ bands.filterMap Band.repeated? ↔ ∃ o height copies, .kept top o height copies ∈ bands ∧ 0 < copies := by
  rw [List.mem_filterMap]
  constructor
  · rintro ⟨band, hb, htop⟩
    cases band with
    | deleted row o => cases htop
    | kept row o height copies =>
      rw [Band.repeated?, Option.ite_none_left_eq_some] at htop
      obtain ⟨hpos, ⟨⟩⟩ := htop
      exact ⟨o, height, copies, hb, Nat.pos_of_ne_zero hpos⟩
  · rintro ⟨o, height, copies, hb, hpos⟩
    exact ⟨_, hb, if_neg (Nat.pos_iff_ne_zero.1 hpos)⟩

/-- Bands follow each other down the template and down the sheet. -/
theorem Laid.pairwise (h : Laid leaves areas grid row origin bands row' origin') :
    bands.Pairwise fun a b => a.nextRow ≤ b.row ∧ a.nextOrigin ≤ b.origin := by
  induction bands generalizing row origin with
  | nil => exact .nil
  | cons band rest ih =>
    refine .cons (fun below hmem => ?_) (ih h.tail)
    have hbounds := h.tail.bounds hmem
    exact ⟨hbounds.1, hbounds.2.2.1⟩

/-- The run of a band lies within the band and ends with it. -/
theorem Band.bounds_of_run? {band : Band} {run : Run} (h : band.run? = some run) :
    band.origin < run.first ∧ run.last + 1 = band.nextOrigin := by
  cases band with
  | deleted row o => cases h
  | kept row o height copies =>
    rw [Band.run?, Option.ite_none_left_eq_some] at h
    obtain ⟨-, ⟨⟩⟩ := h
    have hend := end_of_kept o height copies
    simp only [Band.origin, Band.nextOrigin]
    omega

/-- Between the runs of two bands lies a row of the band below. -/
theorem Laid.runs_pairwise (h : Laid leaves areas grid row origin bands row' origin') :
    (bands.filterMap Band.run?).Pairwise fun a b => a.last + 1 < b.first := by
  rw [List.pairwise_filterMap]
  refine h.pairwise.imp fun {above below} horder a ha b hb => ?_
  have habove := Band.bounds_of_run? ha
  have hbelow := Band.bounds_of_run? hb
  omega

/-- The insertions of a run follow each other without a break. -/
theorem Laid.run_isInfix (h : Laid leaves areas grid row origin bands row' origin') {run : Run}
    (hrun : run ∈ bands.filterMap Band.run?) :
    (List.range' run.first (run.last + 1 - run.first)).map .add <:+: bands.flatMap Band.actions := by
  obtain ⟨top, o, height, copies, hb, -, rfl⟩ := mem_filterMap_run?.1 hrun
  obtain ⟨above, below, rfl, -⟩ := h.split hb
  have hlength : o + height + copies * (height + 1) + 1 - (o + height + 1) = copies * (height + 1) := by omega
  refine ⟨above.flatMap Band.actions, below.flatMap Band.actions, ?_⟩
  rw [List.flatMap_append, List.flatMap_cons, Band.actions, List.append_assoc, hlength]

/-- A row of the sheet is in a run exactly if it is the row of a copy. -/
theorem exists_run_iff {place : Nat} : (∃ run ∈ bands.filterMap Band.run?, run.contains place = true) ↔
    ∃ top o height copies below copy, .kept top o height copies ∈ bands ∧ below ≤ height ∧ 1 ≤ copy ∧ copy ≤ copies ∧
      place = o + below + copy * (height + 1) := by
  constructor
  · rintro ⟨run, hrun, hcontains⟩
    obtain ⟨top, o, height, copies, hb, -, rfl⟩ := mem_filterMap_run?.1 hrun
    simp only [Run.contains, Bool.and_eq_true, decide_eq_true_eq] at hcontains
    have hend := end_of_kept o height copies
    have hlt : place < o + (copies + 1) * (height + 1) := by omega
    obtain ⟨below, hbelow, copy, hcopy, rfl⟩ := exists_copy (show o ≤ place by omega) hlt
    refine ⟨top, o, height, copies, below, copy, hb, hbelow, Nat.pos_of_ne_zero ?_, hcopy, rfl⟩
    rintro rfl
    omega
  · rintro ⟨top, o, height, copies, below, copy, hb, hbelow, hpos, hcopy, rfl⟩
    refine ⟨_, mem_filterMap_run?.2 ⟨top, o, height, copies, hb, by omega, rfl⟩, ?_⟩
    have hend := end_of_kept o height copies
    have hlt : o + below + copy * (height + 1) < o + (copies + 1) * (height + 1) := copy_lt hbelow hcopy
    have hbelow' : o + height < o + below + copy * (height + 1) := lt_copy hpos
    simp only [Run.contains, Bool.and_eq_true, decide_eq_true_eq]
    omega

/-- The rows that repeat are those that bands with copies begin with. -/
theorem Laid.repeats_iff {stop bottom : Nat}
    (hlaid : Laid leaves areas grid (firstRow areas grid) (firstRow areas grid) bands stop bottom)
    (hs : layout.strips = bands.flatMap (Band.strips leaves areas grid)) (h : ofTemplate leaves areas grid = .ok layout) {top : Nat} :
    top ∈ bands.filterMap Band.repeated? ↔ Repeats leaves areas grid top := by
  have hused : ∀ r, r ∈ usedRows areas grid ↔ firstRow areas grid ≤ r ∧ r < stop := by
    intro r
    rw [hlaid.usedRows_eq hs h, List.mem_range'_1]
    omega
  rw [mem_filterMap_repeated?]
  constructor
  · rintro ⟨o, height, copies, hb, hpos⟩
    obtain ⟨hstays, rfl, -⟩ := hlaid.of_kept hb
    have hbounds := hlaid.bounds hb
    simp only [Band.row, Band.nextRow] at hbounds
    exact ⟨(hused top).2 (by omega), hlaid.opens .first hb, hstays, hpos⟩
  · rintro ⟨hmem, hopens, hstays, hpos⟩
    obtain ⟨o, hb⟩ := hlaid.kept_of_opens hopens hstays ((hused top).1 hmem).2
    exact ⟨o, _, _, hb, hpos⟩

/-- Every band with copies has the run of the row that it begins with. -/
theorem Laid.forall₂_runs (hlaid : Laid leaves areas grid row origin bands row' origin')
    (hs : layout.strips = bands.flatMap (Band.strips leaves areas grid)) :
    List.Forall₂ (fun top run => ∃ o, layout.fate? top = some (.placed o (repetition leaves grid top).rows
        (ownHeight leaves areas grid top + 1)) ∧ run = expansionRun leaves areas grid top o)
      (bands.filterMap Band.repeated?) (bands.filterMap Band.run?) := by
  refine List.rel_filterMap (R := fun a b => a = b ∧ a ∈ bands) ?_ (List.forall₂_same.2 fun _ hb => ⟨rfl, hb⟩)
  rintro band _ ⟨rfl, hb⟩
  cases band with
  | deleted r o => exact .none
  | kept r o height copies =>
    obtain ⟨-, rfl, rfl, -⟩ := hlaid.of_kept hb
    have hfate := hlaid.fate_kept hs hb (Nat.zero_le _)
    simp only [Band.repeated?, Band.run?]
    split
    · exact .none
    · exact .some ⟨o, hfate, rfl⟩

/-! ## Runs -/

/-- The runs of added rows are exactly the expansions, in the numbering of the finished sheet. There is one for every row that repeats
outside of blocks, in order, over the rows of all its copies; its insertions follow each other without a break, and between it and the
next run lies at least one other row. A row with a copy is in exactly one run and a row of the template itself in none. On a sheet
whose rows bore their numbers to begin with, the rows in runs are those that came in blank. -/
theorem runs_are_expansions (h : ofTemplate leaves areas grid = .ok layout) :
    (∃ tops : List Nat, tops.Pairwise (· < ·) ∧ (∀ top, top ∈ tops ↔ Repeats leaves areas grid top) ∧
      List.Forall₂ (fun top run => ∃ origin, layout.fate? top = some (.placed origin (repetition leaves grid top).rows
        (ownHeight leaves areas grid top + 1)) ∧ run = expansionRun leaves areas grid top origin) tops (layout.runs areas)) ∧
      (layout.runs areas).Pairwise (fun a b => a.last + 1 < b.first) ∧
      (∀ run ∈ layout.runs areas,
        (List.range' run.first (run.last + 1 - run.first)).map .add <:+: (layout.scaffold areas).rows) ∧
      (∀ row copy place, layout.Stands row copy place → 1 ≤ copy → ∃! run, run ∈ layout.runs areas ∧ run.contains place = true) ∧
      (∀ row place, layout.Stands row 0 place → ∀ run ∈ layout.runs areas, run.contains place = false) ∧
      ∀ place, Sheet.numbered.actAll (layout.scaffold areas).rows place = none ↔
        ∃ run ∈ layout.runs areas, run.contains place = true := by
  obtain ⟨stop, bands, bottom, hlaid, hstrips⟩ := exists_laid_firstRow h
  have hruns : layout.runs areas = bands.filterMap Band.run? := by
    rw [runs, hlaid.scaffold_rows hstrips, hlaid.runs_eq]
  rw [hruns, hlaid.scaffold_rows hstrips]
  refine ⟨⟨bands.filterMap Band.repeated?, ?_, fun top => hlaid.repeats_iff hstrips h, hlaid.forall₂_runs hstrips⟩,
    hlaid.runs_pairwise, fun run => hlaid.run_isInfix, ?_, ?_, ?_⟩
  · rw [List.pairwise_filterMap]
    refine hlaid.pairwise.imp fun {above below} horder a ha b hb => ?_
    rw [Band.row_of_repeated? ha, Band.row_of_repeated? hb]
    exact Nat.lt_of_lt_of_le above.row_lt_nextRow horder.1
  · intro row copy place hstands hpos
    obtain ⟨top, o, height, copies, below, hb, hbelow, hcopy, -, rfl⟩ := (hlaid.stands_iff hstrips).1 hstands
    have hfilter := hlaid.filter_runs_copy hb hbelow hpos hcopy
    refine ⟨_, List.mem_filter.1 (hfilter ▸ List.mem_singleton_self _), fun run hrun => ?_⟩
    have hmem : run ∈ (bands.filterMap Band.run?).filter (·.contains (o + below + copy * (height + 1))) := List.mem_filter.2 hrun
    rwa [hfilter, List.mem_singleton] at hmem
  · intro row place hstands run hrun
    obtain ⟨top, o, height, copies, below, hb, hbelow, -, -, rfl⟩ := (hlaid.stands_iff hstrips).1 hstands
    have hnot := List.filter_eq_nil_iff.1 (hlaid.filter_runs_own hb hbelow) run hrun
    rw [Nat.zero_mul, Nat.add_zero]
    simpa using hnot
  · intro place
    rw [hlaid.blank_iff, exists_run_iff]

/-- On the sample the list in row 2 and the block in rows 4 and 5 each have a run, in rows 2 and 6 to 7. -/
theorem runs_of_sample : ∃ layout, ofTemplate Sample.data Sample.merges Sample.texts = .ok layout ∧
    layout.runs Sample.merges = [⟨2, 2⟩, ⟨6, 7⟩] ∧
      (∃! run, run ∈ layout.runs Sample.merges ∧ run.contains 7 = true) ∧
      ∀ place, Sheet.numbered.actAll (layout.scaffold Sample.merges).rows place = none ↔
        ∃ run ∈ layout.runs Sample.merges, run.contains place = true := by
  obtain ⟨layout, hlayout, hfacts⟩ := exists_ok_of_any (show (ofTemplate Sample.data Sample.merges Sample.texts).toOption.any
    (fun layout => layout.fate? 5 = some (.placed 5 1 2) ∧ layout.runs Sample.merges = [⟨2, 2⟩, ⟨6, 7⟩]) = true by decide +kernel)
  obtain ⟨hfate, hruns⟩ := of_decide_eq_true hfacts
  obtain ⟨-, -, -, hcopies, -, hblank⟩ := runs_are_expansions hlayout
  exact ⟨layout, hlayout, hruns, hcopies 5 1 7 ⟨5, 1, 2, hfate, Nat.le_refl 1, rfl⟩ (Nat.le_refl 1), hblank⟩

end Layout
end SheetTemplate

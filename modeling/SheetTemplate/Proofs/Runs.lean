import SheetTemplate.Formula.Rebase
import SheetTemplate.Proofs.OutputRows

/-!
# Runs of a layout

What the row actions of a layout are to formulas. Every band with copies has one run of added rows, which begins below the last row
of the band (`Laid.runs_eq`), a reference to a row that stays moves to where the row stands (`Laid.moveAll_kept`), and ranges grow
below the last row of a band alone (`Laid.find?_growths`).
-/

namespace SheetTemplate

namespace RowAction

/-- Insertions one below the other move a reference at or below the first of them. -/
theorem moveAll_adds (first count row : Nat) :
    moveAll ((List.range' first count).map .add) row = if first ≤ row then row + count else row := by
  induction count generalizing first row with
  | zero => simp [moveAll]
  | succ count ih =>
    rw [List.range'_succ, List.map_cons]
    change moveAll _ (move row (.add first)) = _
    rw [ih, move]
    by_cases h : first ≤ row
    · rw [if_pos h, if_pos (by omega), if_pos h]
      omega
    · rw [if_neg h, if_neg (by omega), if_neg h]

/-- Insertions that go on where a run ends belong to it. -/
theorem runsFrom_continue (run : Run) (count : Nat) (rest : List RowAction) :
    runsFrom (some run) ((List.range' (run.last + 1) count).map .add ++ rest) =
      runsFrom (some ⟨run.first, run.last + count⟩) rest := by
  induction count generalizing run with
  | zero => rfl
  | succ count ih =>
    rw [List.range'_succ, List.map_cons, List.cons_append, runsFrom, if_pos rfl, ih]
    simp only
    rw [Nat.add_assoc, Nat.add_comm 1]

/-- Insertions that do not go on where the last run ended are a run of their own. -/
theorem runsFrom_adds {current : Option Run} {first count : Nat} (h : ∀ run, current = some run → run.last + 1 ≠ first)
    (hcount : 0 < count) (rest : List RowAction) :
    runsFrom current ((List.range' first count).map .add ++ rest) =
      current.toList ++ runsFrom (some ⟨first, first + count - 1⟩) rest := by
  obtain ⟨count, rfl⟩ := Nat.exists_eq_succ_of_ne_zero (Nat.pos_iff_ne_zero.1 hcount)
  rw [List.range'_succ, List.map_cons, List.cons_append]
  have hgo : runsFrom (some ⟨first, first⟩) ((List.range' (first + 1) count).map .add ++ rest) =
      runsFrom (some ⟨first, first + count⟩) rest :=
    runsFrom_continue ⟨first, first⟩ count rest
  cases current with
  | none =>
    rw [runsFrom, hgo]
    rfl
  | some run =>
    rw [runsFrom, if_neg (h run rfl), hgo]
    rfl

end RowAction

namespace Layout

open RowAction

variable {leaves : Leaves} {areas : List Area} {grid : Grid} {row origin row' origin' : Nat} {bands : List Band}

/-! ## Runs -/

/-- The run of rows that a band adds. -/
def Band.run? : Band → Option Run
  | .deleted .. => none
  | .kept _ origin height copies =>
    if copies = 0 then none else some ⟨origin + height + 1, origin + height + copies * (height + 1)⟩

/-- The rows that bands add make up one run for every band that has copies: a row that stays lies between two runs. -/
theorem Laid.runsFrom_eq (h : Laid leaves areas grid row origin bands row' origin') {current : Option Run}
    (hcurrent : ∀ run, current = some run → run.last < origin) :
    runsFrom current (bands.flatMap Band.actions) = current.toList ++ bands.filterMap Band.run? := by
  induction h generalizing current with
  | nil => simp [runsFrom]
  | @deleted r o _ _ rest _ _ _ _ ih =>
    rw [List.flatMap_cons, Band.actions, List.singleton_append, runsFrom, ih (by simp), List.filterMap_cons, Band.run?]
    rfl
  | @kept r o height copies _ _ rest _ _ _ _ _ _ ih =>
    rw [List.flatMap_cons, Band.actions, List.filterMap_cons]
    rcases Nat.eq_zero_or_pos copies with rfl | hpos
    · have hrest : runsFrom current (rest.flatMap Band.actions) = current.toList ++ rest.filterMap Band.run? :=
        ih fun run hrun => by
          have := hcurrent run hrun
          omega
      rw [Nat.zero_mul, Band.run?, if_pos rfl]
      exact hrest
    · have hmul : height + 1 ≤ copies * (height + 1) := Nat.le_mul_of_pos_left _ hpos
      have hend := end_of_kept o height copies
      rw [runsFrom_adds, ih, Band.run?, if_neg (Nat.pos_iff_ne_zero.1 hpos)]
      · have hlast : o + height + 1 + copies * (height + 1) - 1 = o + height + copies * (height + 1) := by omega
        rw [hlast]
        rfl
      · rintro run ⟨⟩
        simp only
        omega
      · intro run hrun
        have := hcurrent run hrun
        omega
      · omega

theorem Laid.runs_eq (h : Laid leaves areas grid row origin bands row' origin') :
    runs (bands.flatMap Band.actions) = bands.filterMap Band.run? :=
  h.runsFrom_eq (by simp)

/-- A band with copies adds the rows from below its last row up to before the next band. -/
theorem mem_filterMap_run? {run : Run} : run ∈ bands.filterMap Band.run? ↔
    ∃ top o height copies, .kept top o height copies ∈ bands ∧ 0 < copies ∧
      run = ⟨o + height + 1, o + height + copies * (height + 1)⟩ := by
  rw [List.mem_filterMap]
  constructor
  · rintro ⟨band, hb, hrun⟩
    cases band with
    | deleted top o => cases hrun
    | kept top o height copies =>
      simp only [Band.run?, Option.ite_none_left_eq_some, Option.some.injEq] at hrun
      exact ⟨top, o, height, copies, hb, Nat.pos_iff_ne_zero.2 hrun.1, hrun.2.symm⟩
  · rintro ⟨top, o, height, copies, hb, hpos, rfl⟩
    exact ⟨_, hb, if_neg (Nat.pos_iff_ne_zero.1 hpos)⟩

/-- A row of the sheet outside of bands is in none of their runs. -/
theorem Laid.filter_runs_eq_nil (h : Laid leaves areas grid row origin bands row' origin') {place : Nat}
    (hplace : place < origin ∨ origin' ≤ place) : (bands.filterMap Band.run?).filter (·.contains place) = [] := by
  rw [List.filter_eq_nil_iff]
  intro run hrun hcontains
  obtain ⟨top, o, height, copies, hb, -, rfl⟩ := mem_filterMap_run?.1 hrun
  have hbounds := h.bounds hb
  have hend := end_of_kept o height copies
  simp only [Band.origin, Band.nextOrigin] at hbounds
  simp only [Run.contains, Bool.and_eq_true, decide_eq_true_eq] at hcontains
  omega

/-- Of all runs a row of a band can only be in that of the band. -/
theorem Laid.filter_runs_eq (h : Laid leaves areas grid row origin bands row' origin') {band : Band} (hb : band ∈ bands)
    {place : Nat} (h1 : band.origin ≤ place) (h2 : place < band.nextOrigin) :
    (bands.filterMap Band.run?).filter (·.contains place) = band.run?.toList.filter (·.contains place) := by
  obtain ⟨above, below, rfl, habove, hbelow⟩ := h.split hb
  have hsplit : (above ++ band :: below).filterMap Band.run? =
      above.filterMap Band.run? ++ (band.run?.toList ++ below.filterMap Band.run?) := by
    rw [List.filterMap_append, List.filterMap_cons]
    cases band.run? <;> rfl
  rw [hsplit, List.filter_append, List.filter_append, habove.filter_runs_eq_nil (Or.inr h1),
    hbelow.tail.filter_runs_eq_nil (Or.inl h2), List.nil_append, List.append_nil]

/-- The row of a copy is in the run of its band and in no other. -/
theorem Laid.filter_runs_copy (h : Laid leaves areas grid row origin bands row' origin') {top o height copies place copy : Nat}
    (hb : .kept top o height copies ∈ bands) (hplace : place ≤ height) (hpos : 1 ≤ copy) (hcopy : copy ≤ copies) :
    (bands.filterMap Band.run?).filter (·.contains (o + place + copy * (height + 1))) =
      [⟨o + height + 1, o + height + copies * (height + 1)⟩] := by
  have hlt : o + place + copy * (height + 1) < o + (copies + 1) * (height + 1) := copy_lt hplace hcopy
  have hend := end_of_kept o height copies
  have hbelow : o + height < o + place + copy * (height + 1) := lt_copy hpos
  rw [h.filter_runs_eq hb (by simp only [Band.origin]; omega) hlt, Band.run?, if_neg (by omega)]
  have hcontains : (⟨o + height + 1, o + height + copies * (height + 1)⟩ : Run).contains (o + place + copy * (height + 1)) = true := by
    simp only [Run.contains, Bool.and_eq_true, decide_eq_true_eq]
    omega
  simp [hcontains]

/-- A row of the template that stays stands in no run. -/
theorem Laid.filter_runs_own (h : Laid leaves areas grid row origin bands row' origin') {top o height copies place : Nat}
    (hb : .kept top o height copies ∈ bands) (hplace : place ≤ height) :
    (bands.filterMap Band.run?).filter (·.contains (o + place)) = [] := by
  rw [h.filter_runs_eq hb (by simp only [Band.origin]; omega) (place_lt hplace), Band.run?]
  split
  · rfl
  · have hcontains : (⟨o + height + 1, o + height + copies * (height + 1)⟩ : Run).contains (o + place) = false := by
      simp only [Run.contains, Bool.and_eq_false_iff, decide_eq_false_iff_not]
      omega
    simp [hcontains]

/-- A row that stays and its copies stand in rows of the sheet. -/
theorem Laid.copy_bounds (h : Laid leaves areas grid row origin bands row' origin') {top o height copies place copy : Nat}
    (hb : .kept top o height copies ∈ bands) (hplace : place ≤ height) (hcopy : copy ≤ copies) :
    1 ≤ o + place + copy * (height + 1) ∧ o + place + copy * (height + 1) ≤ lastRow := by
  obtain ⟨-, -, -, hone, hlast⟩ := h.of_kept hb
  have hend := end_of_kept o height copies
  have hlt : o + place + copy * (height + 1) < o + (copies + 1) * (height + 1) := copy_lt hplace hcopy
  omega

/-! ## Moves -/

/-- Above a band references stay. -/
theorem Band.moveAll_above (band : Band) {position : Nat} (h : position < band.origin) : moveAll band.actions position = position := by
  cases band with
  | deleted row origin =>
    have h' : position < origin := h
    exact if_neg (by omega)
  | kept row origin height copies =>
    have h' : position < origin := h
    rw [actions, moveAll_adds, if_neg (by omega)]

/-- References to rows of the template below a band move to below it. -/
theorem Band.moveAll_below (band : Band) {r : Nat} (h : band.nextRow ≤ r) :
    moveAll band.actions (band.origin + (r - band.row)) = band.nextOrigin + (r - band.nextRow) := by
  cases band with
  | deleted row origin =>
    have h' : row + 1 ≤ r := h
    change (if origin < origin + (r - row) then origin + (r - row) - 1 else _) = origin + (r - (row + 1))
    rw [if_pos (by omega)]
    omega
  | kept row origin height copies =>
    have h' : row + height + 1 ≤ r := h
    have hend := end_of_kept origin height copies
    simp only [Band.origin, Band.row, Band.nextOrigin, Band.nextRow]
    rw [actions, moveAll_adds, if_pos (by omega)]
    omega

/-- Above bands references stay, and references to rows of the template below them move to below them. -/
theorem Laid.moveAll_eq (h : Laid leaves areas grid row origin bands row' origin') :
    (∀ position < origin, moveAll (bands.flatMap Band.actions) position = position) ∧
      ∀ r, row' ≤ r → moveAll (bands.flatMap Band.actions) (origin + (r - row)) = origin' + (r - row') := by
  induction bands generalizing row origin with
  | nil =>
    cases h
    exact ⟨fun _ _ => rfl, fun _ _ => rfl⟩
  | cons band rest ih =>
    obtain ⟨rfl, rfl⟩ := h.head
    obtain ⟨habove, hbelow⟩ := ih h.tail
    rw [List.flatMap_cons]
    constructor
    · intro position hp
      rw [moveAll_append, band.moveAll_above hp, habove position (Nat.lt_of_lt_of_le hp band.origin_le_nextOrigin)]
    · intro r hr
      rw [moveAll_append, band.moveAll_below (Nat.le_trans h.tail.le.1 hr), hbelow r hr]

/-- A reference to a row of the template that stays moves to where the row stands. -/
theorem Laid.moveAll_kept (h : Laid leaves areas grid row row bands row' origin') {top o height copies place : Nat}
    (hb : .kept top o height copies ∈ bands) (hplace : place ≤ height) :
    moveAll (bands.flatMap Band.actions) (top + place) = o + place := by
  have hbounds := h.bounds hb
  obtain ⟨above, below, rfl, habove, hbelow⟩ := h.split hb
  simp only [Band.row, Band.origin, Band.nextRow, Band.nextOrigin] at hbounds habove
  have hstart := habove.moveAll_eq.2 (top + place) (Nat.le_add_right top place)
  have e1 : row + (top + place - row) = top + place := by omega
  have e2 : o + (top + place - top) = o + place := by omega
  rw [e1, e2] at hstart
  have hown : moveAll (Band.actions (.kept top o height copies)) (o + place) = o + place := by
    rw [Band.actions, moveAll_adds, if_neg (by omega)]
  rw [List.flatMap_append, List.flatMap_cons, moveAll_append, moveAll_append, hstart, hown]
  exact hbelow.tail.moveAll_eq.1 _ (place_lt hplace)

/-- Deletions take out rows of the sheet. -/
theorem Laid.one_le_of_delete (h : Laid leaves areas grid row origin bands row' origin') {position : Nat}
    (hmem : .delete position ∈ bands.flatMap Band.actions) : 1 ≤ position := by
  obtain ⟨band, hb, haction⟩ := List.mem_flatMap.1 hmem
  cases band with
  | deleted top o =>
    cases List.mem_singleton.1 haction
    exact (h.of_deleted hb).2.1
  | kept top o height copies =>
    obtain ⟨added, -, hadd⟩ := List.mem_map.1 haction
    cases hadd

/-! ## Growths -/

/-- Ranges grow below the last row of every band that has copies, unless that row is in a block. -/
theorem mem_growths {g : Formula.Growth} {expanded : Grid} {merges : SortedSet Area}
    (h : Laid leaves areas grid row origin bands row' origin') :
    g ∈ Formula.growths (bands.filterMap Band.run?) expanded merges ↔
      ∃ top o height copies, .kept top o height copies ∈ bands ∧ 0 < copies ∧
        Formula.isInBlock expanded merges (o + height) = false ∧ g = ⟨o + height, o + height + copies * (height + 1)⟩ := by
  rw [Formula.growths, List.mem_filterMap]
  constructor
  · rintro ⟨run, hrun, hgrowth⟩
    obtain ⟨top, o, height, copies, hb, hpos, rfl⟩ := mem_filterMap_run?.1 hrun
    simp only [Option.ite_none_right_eq_some, Option.some.injEq] at hgrowth
    obtain ⟨⟨-, hblock⟩, rfl⟩ := hgrowth
    exact ⟨top, o, height, copies, hb, hpos, by simpa using hblock, rfl⟩
  · rintro ⟨top, o, height, copies, hb, hpos, hblock, rfl⟩
    have hone := (h.of_kept hb).2.2.2.1
    refine ⟨_, mem_filterMap_run?.2 ⟨top, o, height, copies, hb, hpos, rfl⟩, if_pos ⟨?_, ?_⟩⟩
    · simp only
      omega
    · simpa using hblock

/-- Ranges grow to rows of the sheet. -/
theorem Laid.growth_bounds (h : Laid leaves areas grid row origin bands row' origin') {expanded : Grid} {merges : SortedSet Area} :
    ∀ g ∈ Formula.growths (bands.filterMap Band.run?) expanded merges, 1 ≤ g.last ∧ g.last ≤ lastRow := by
  intro g hg
  obtain ⟨top, o, height, copies, hb, -, -, rfl⟩ := (mem_growths h).1 hg
  obtain ⟨-, -, -, hone, hlast⟩ := h.of_kept hb
  simp only
  omega

/-- Of the rows that a band takes only its last row has a growth below it. -/
theorem Laid.find?_growths (h : Laid leaves areas grid row origin bands row' origin') (expanded : Grid) (merges : SortedSet Area)
    {top o height copies place : Nat} (hb : .kept top o height copies ∈ bands) (h1 : o ≤ place)
    (h2 : place < o + (copies + 1) * (height + 1)) :
    (Formula.growths (bands.filterMap Band.run?) expanded merges).find? (fun g => g.above = place) =
      if place = o + height ∧ 0 < copies ∧ Formula.isInBlock expanded merges (o + height) = false then
        some ⟨o + height, o + height + copies * (height + 1)⟩ else none := by
  cases hfind : (Formula.growths (bands.filterMap Band.run?) expanded merges).find? (fun g => g.above = place) with
  | none =>
    rw [if_neg]
    rintro ⟨rfl, hpos, hblock⟩
    have hmem := (mem_growths h).2 ⟨top, o, height, copies, hb, hpos, hblock, rfl⟩
    have hnone := List.find?_eq_none.1 hfind _ hmem
    simp at hnone
  | some g =>
    have habove : g.above = place := by simpa using List.find?_some hfind
    obtain ⟨top', o', height', copies', hb', hpos, hblock, rfl⟩ := (mem_growths h).1 (List.mem_of_find?_eq_some hfind)
    -- Bands share no row, so the growth is that of this band.
    have hlies : o' ≤ place ∧ place < o' + (copies' + 1) * (height' + 1) := by
      have hlt : o' + height' < o' + (copies' + 1) * (height' + 1) := place_lt (Nat.le_refl height')
      simp only at habove
      omega
    cases h.eq_of_origins hb hb' ⟨h1, h2⟩ hlies
    rw [if_pos ⟨habove.symm, hpos, hblock⟩]

end Layout
end SheetTemplate

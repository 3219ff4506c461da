import SheetTemplate.Proofs.CopiedLooks
import SheetTemplate.Proofs.MergePlacement

/-!
# The last row of the sheet

A layout counts rows up to the last one of the sheet and refuses a template that needs more. `Layout.meetAll` is the same walk on a
sheet without end: whole numbers without a limit, nothing checked and nothing capped. The two agree as long as the rows that are needed
are rows of the sheet, and the first one that is not is the one refused (`ofTemplate_eq`). So row numbers are exact, and a template is
refused only for a row below the last one (`row_numbers_exact`).

What carries the induction is that no row moves above row 1: a row that goes out pulls those below it up by one, and they are at least
one row further down.

Numbers are computed before they are looked at, so how far they go is a question of its own (`InReach`). Copies are looked at one after the
other, and the first one that is refused is close to the last row (`walk_stays_in_reach`).
-/

namespace SheetTemplate

namespace Block

/-- Meets a row as `advance` does, without a limit to the number of rows. -/
def advanceFreely (copies height : Nat) : Block → Nat × Block
  | .idle => if 0 < copies ∧ 0 < height then (0, .running height copies (height + 1)) else (copies, .idle)
  | .running remaining copies stride =>
    if 1 < remaining then (0, .running (remaining - 1) copies stride) else (copies * stride, .idle)

/-- Meets the end of the template as `finish` does, without a limit to the number of rows. -/
def finishFreely : Block → Nat
  | .idle => 0
  | .running _ copies stride => copies * stride

end Block

/-- The row at which an action is carried out. -/
def RowAction.position : RowAction → Nat
  | .add row => row
  | .delete row => row

/-- The row of the sheet in which a row stands, or stood when it went out. -/
def Fate.place : Fate → Nat
  | .placed origin _ _ => origin
  | .deleted row => row

namespace Layout

/-! ## A sheet without end -/

/-- A row of a template as it is met on a sheet without end. -/
structure Met where
  /-- Where it stands. -/
  position : Int
  strip : Strip
  /-- The rows that it needs: its own, those of its copies, and the last ones of the merges that they take along. -/
  needed : List Nat

/-- Meets one row of a template on a sheet without end. -/
def meet (leaves : Leaves) (areas : List Area) (grid : Grid) (row : Nat) (cursor : Cursor) : Met × Cursor :=
  let position := row + cursor.shift
  let origin := position.toNat
  if cursor.block = .idle ∧ refuses leaves grid row then
    (⟨position, Strip.deleted row origin, [origin]⟩, ⟨cursor.shift - 1, .idle⟩)
  else
    let e := expansion leaves areas grid cursor.block row
    let (moved, block) := cursor.block.advanceFreely e.stacking.copies e.height
    (⟨position, e.strip cursor.block origin, origin :: e.stacking.neededRows origin⟩, ⟨cursor.shift + moved, block⟩)

/-- Meets rows of a template in order on a sheet without end. -/
def meetAll (leaves : Leaves) (areas : List Area) (grid : Grid) : List Nat → Cursor → List Met × Cursor
  | [], cursor => ([], cursor)
  | row :: rest, cursor =>
    let (met, next) := meet leaves areas grid row cursor
    let (below, final) := meetAll leaves areas grid rest next
    (met :: below, final)

/-- The rows of a template as they are met on a sheet without end, and where the walk over them ends. -/
def endless (leaves : Leaves) (areas : List Area) (grid : Grid) : List Met × Cursor :=
  meetAll leaves areas grid (usedRows areas grid) ⟨0, .idle⟩

/-- The rows that a template needs, in the order in which they are needed. -/
def neededRows (leaves : Leaves) (areas : List Area) (grid : Grid) : List Nat := (endless leaves areas grid).1.flatMap (·.needed)

/-- The layout of a template on a sheet without end. -/
def unbounded (leaves : Leaves) (areas : List Area) (grid : Grid) : Layout where
  strips := (endless leaves areas grid).1.map (·.strip)
  shift := (endless leaves areas grid).2.shift + (endless leaves areas grid).2.block.finishFreely

/-- The row numbers of a layout, for a template with the given areas: those of its row actions, merges, copies and texts. -/
def rowNumbers (layout : Layout) (areas : List Area) : List Nat :=
  (layout.scaffold areas).rows.map (·.position) ++ (layout.scaffold areas).areas.keys.flatMap (fun area => [area.top, area.bottom]) ++
    ((layout.scaffold areas).styles ++ (layout.scaffold areas).formats).flatMap (fun copy => [copy.source.row, copy.target.row]) ++
      layout.grid.keys

variable {leaves : Leaves} {areas : List Area} {grid : Grid} {row : Nat} {cursor : Cursor}

/-! ## Checks -/

/-- Rows are checked one part after the other. -/
theorem checkRows_append (above below : List Nat) : checkRows (above ++ below) = (checkRows above).bind fun _ => checkRows below := by
  simp only [checkRows, List.find?_append]
  cases above.find? (lastRow < ·) <;> rfl

/-- Rows are checked from the first one on. -/
theorem checkRows_cons (row : Nat) (rows : List Nat) :
    checkRows (row :: rows) = if row ≤ lastRow then checkRows rows else .error (.rowOutOfRange row) := by
  by_cases hlast : row ≤ lastRow
  · rw [if_pos hlast, checkRows, List.find?_cons_of_neg (by simpa using hlast), ← checkRows]
  · rw [if_neg hlast, checkRows, List.find?_cons_of_pos (by simpa using hlast)]

/-- What a check refuses is one of the rows, and lies below the last row of the sheet. -/
theorem exists_of_checkRows {rows : List Nat} {error : Error} (h : checkRows rows = .error error) :
    ∃ n ∈ rows, lastRow < n ∧ error = .rowOutOfRange n := by
  unfold checkRows at h
  split at h
  · rename_i n hfind
    exact ⟨n, List.mem_of_find?_eq_some hfind, by simpa using List.find?_some hfind, (Except.error.inj h).symm⟩
  · cases h

/-- A row from row 1 on is taken for one of the sheet if it does not lie below its last row. -/
theorem rowAt_natCast {row : Nat} (h : 1 ≤ row) : rowAt row = if row ≤ lastRow then .ok row else .error (.rowOutOfRange row) := by
  by_cases hlast : row ≤ lastRow
  · rw [if_pos hlast, rowAt, if_pos (by omega), Int.toNat_natCast]
  · rw [if_neg hlast, rowAt, if_neg (by omega)]

/-! ## One step -/

/-- A row and its copies stand in rows that are needed. -/
theorem row_mem_needed {s : Stacking} {origin copy : Nat} (h : copy ≤ s.copies) : s.row origin copy ∈ origin :: s.neededRows origin := by
  rcases Nat.eq_zero_or_pos copy with rfl | hone
  · rw [Stacking.row, Nat.zero_mul, Nat.add_zero]
    exact List.mem_cons_self
  · exact List.mem_cons_of_mem _ (row_mem_neededRows hone h)

/-- Where the sheet has all rows that are needed, no number of rows is capped. -/
theorem advance_eq {block : Block} {origin : Nat}
    (h : ∀ n ∈ (expansion leaves areas grid block row).stacking.neededRows origin, n ≤ lastRow) :
    block.advance (expansion leaves areas grid block row).stacking.copies (expansion leaves areas grid block row).height =
      block.advanceFreely (expansion leaves areas grid block row).stacking.copies (expansion leaves areas grid block row).height := by
  generalize he : expansion leaves areas grid block row = e at h
  cases block with
  | idle =>
    have hstride : e.stacking.stride = e.height + 1 := by
      rw [← he]
      rfl
    simp only [Block.advance, Block.advanceFreely]
    split
    · rename_i hpos
      have hfirst := h _ (row_mem_neededRows (Nat.le_refl 1) hpos.1)
      rw [Stacking.row, hstride] at hfirst
      rw [Block.capped_of_le (by omega)]
    · rfl
  | running remaining copies stride =>
    obtain ⟨rfl, rfl⟩ : e.stacking.copies = copies ∧ e.stacking.stride = stride := by
      rw [← he]
      exact ⟨rfl, rfl⟩
    have hlast : e.stacking.copies * e.stacking.stride ≤ lastRow := by
      rcases Nat.eq_zero_or_pos e.stacking.copies with hzero | hpos
      · rw [hzero, Nat.zero_mul]
        exact Nat.zero_le _
      · have hrow := h _ (row_mem_neededRows hpos (Nat.le_refl _))
        rw [Stacking.row] at hrow
        omega
    simp only [Block.advance, Block.advanceFreely, Block.capped_of_le hlast]

/-- A row that does not stand above row 1 is met as on a sheet without end, if the sheet has the rows that it needs. -/
theorem step_eq (h : 1 ≤ (row : Int) + cursor.shift) : step leaves areas row (grid.line row) cursor =
    (checkRows (meet leaves areas grid row cursor).1.needed).map fun _ =>
      ((meet leaves areas grid row cursor).1.strip, (meet leaves areas grid row cursor).2) := by
  obtain ⟨origin, horigin⟩ := Int.eq_ofNat_of_zero_le (show 0 ≤ (row : Int) + cursor.shift by omega)
  rw [step_eq_bind, meet, horigin, rowAt_natCast (by omega), Int.toNat_natCast]
  simp only
  by_cases hlast : origin ≤ lastRow
  · rw [if_pos hlast]
    change (if _ then _ else _) = _
    split
    · rw [checkRows_cons, if_pos hlast]
      rfl
    · rw [checkRows_cons, if_pos hlast]
      cases hneeded : checkRows ((expansion leaves areas grid cursor.block row).stacking.neededRows origin) with
      | error error => rfl
      | ok _ =>
        rw [advance_eq (checkRows_eq_ok_iff.1 hneeded)]
        rfl
  · rw [if_neg hlast]
    split
    · rw [checkRows_cons, if_neg hlast]
      rfl
    · rw [checkRows_cons, if_neg hlast]
      rfl

/-- A row stands where the shift moves it, and moves the rows below it up by one at most. -/
theorem meet_moves (leaves : Leaves) (areas : List Area) (grid : Grid) (row : Nat) (cursor : Cursor) :
    (meet leaves areas grid row cursor).1.position = row + cursor.shift ∧
      cursor.shift - 1 ≤ (meet leaves areas grid row cursor).2.shift := by
  rw [meet]
  simp only
  split
  · exact ⟨rfl, Int.le_refl _⟩
  · exact ⟨rfl, by simp only; omega⟩

/-! ## The walk -/

theorem meetAll_cons (rest : List Nat) : meetAll leaves areas grid (row :: rest) cursor =
    ((meet leaves areas grid row cursor).1 :: (meetAll leaves areas grid rest (meet leaves areas grid row cursor).2).1,
      (meetAll leaves areas grid rest (meet leaves areas grid row cursor).2).2) := rfl

/-- None of the rows that are met stands above row 1 if the first one does not. -/
theorem one_le_position (len : Nat) (h : 1 ≤ (row : Int) + cursor.shift) :
    ∀ met ∈ (meetAll leaves areas grid (List.range' row len) cursor).1, 1 ≤ met.position := by
  induction len generalizing row cursor with
  | zero => exact fun _ hmet => absurd hmet List.not_mem_nil
  | succ len ih =>
    obtain ⟨hposition, hshift⟩ := meet_moves leaves areas grid row cursor
    rw [List.range'_succ, meetAll_cons]
    intro met hmet
    rcases List.mem_cons.1 hmet with heq | hmem
    · rw [heq, hposition]
      exact h
    · exact ih (by omega) met hmem

/-- Rows are met as on a sheet without end if the sheet has the rows that they need. -/
theorem walk_eq (len : Nat) (h : 1 ≤ (row : Int) + cursor.shift) : walk leaves areas grid (List.range' row len) cursor =
    (checkRows ((meetAll leaves areas grid (List.range' row len) cursor).1.flatMap (·.needed))).map fun _ =>
      ((meetAll leaves areas grid (List.range' row len) cursor).1.map (·.strip),
        (meetAll leaves areas grid (List.range' row len) cursor).2) := by
  induction len generalizing row cursor with
  | zero => rfl
  | succ len ih =>
    have hshift := (meet_moves leaves areas grid row cursor).2
    rw [List.range'_succ, walk_cons_eq, meetAll_cons, List.flatMap_cons, checkRows_append, step_eq h]
    cases checkRows (meet leaves areas grid row cursor).1.needed with
    | error error => rfl
    | ok _ =>
      change (walk leaves areas grid (List.range' (row + 1) len) (meet leaves areas grid row cursor).2).map _ = (checkRows _).map _
      rw [ih (by omega)]
      cases checkRows ((meetAll leaves areas grid (List.range' (row + 1) len) (meet leaves areas grid row cursor).2).1.flatMap
        (·.needed)) <;> rfl

/-- The rows in use begin with row 1 or below it. -/
theorem one_le_of_mem_usedRows (hgrid : grid.contains 0 = false) (hareas : ∀ area ∈ areas, 1 ≤ area.top) {used : Nat}
    (hused : used ∈ usedRows areas grid) : 1 ≤ used := by
  obtain ⟨⟨first, hfirst, hle⟩, -⟩ := mem_usedRows.1 hused
  refine Nat.le_trans ?_ hle
  rcases List.mem_append.1 hfirst with hkey | hbound
  · obtain ⟨line, hline⟩ := (SortedMap.mem_keys_iff _ _).1 hkey
    refine Nat.one_le_iff_ne_zero.2 ?_
    rintro rfl
    rw [SortedMap.contains, hline] at hgrid
    cases hgrid
  · obtain ⟨area, harea, hmem⟩ := List.mem_flatMap.1 hbound
    have htop := hareas area harea
    have hbottom := area.top_le
    simp only [List.mem_cons, List.not_mem_nil, or_false] at hmem
    omega

/-- A template has its layout on a sheet without end if the sheet has all the rows that it needs, and is refused for the first one that
the sheet does not have. -/
theorem ofTemplate_eq (leaves : Leaves) (hgrid : grid.contains 0 = false) (hareas : ∀ area ∈ areas, 1 ≤ area.top) :
    (∀ met ∈ (endless leaves areas grid).1, 1 ≤ met.position) ∧
      ofTemplate leaves areas grid = (checkRows (neededRows leaves areas grid)).map fun _ => unbounded leaves areas grid := by
  obtain ⟨first, stop, hle, hused, hends⟩ := usedRows_eq areas grid
  rw [ofTemplate, if_neg (by simp [hgrid]), neededRows, unbounded, endless]
  rcases Nat.eq_or_lt_of_le hle with rfl | hlt
  · rw [hused, Nat.sub_self]
    exact ⟨fun _ hmet => absurd hmet List.not_mem_nil, rfl⟩
  · have hone : 1 ≤ (first : Int) + (⟨0, .idle⟩ : Cursor).shift := by
      have := one_le_of_mem_usedRows hgrid hareas (show first ∈ usedRows areas grid by rw [hused, List.mem_range'_1]; omega)
      simp only
      omega
    rw [hused]
    refine ⟨one_le_position _ hone, ?_⟩
    have hwalk : walk leaves areas grid (List.range' first (stop - first)) ⟨0, .idle⟩ = _ := walk_eq (stop - first) hone
    rw [hwalk]
    cases hcheck : checkRows ((meetAll leaves areas grid (List.range' first (stop - first)) ⟨0, .idle⟩).1.flatMap (·.needed)) with
    | error error => rfl
    | ok _ =>
      rw [hcheck] at hwalk
      -- The walk ends outside of blocks, so there is none left to be counted at the end.
      obtain ⟨_, _, -, -, hfinal⟩ := walk_laid hends (stop - first) (by omega)
        (show ((first : Nat) : Int) = (first : Int) + 0 by omega) hwalk
      simp only [Except.map, hfinal, Block.finish, Block.finishFreely]

/-! ## Numbers on the way -/

/-- How far the numbers of a walk go where row `row` is met next: it stands at most one row below the sheet, and copies are no further apart
than the sheet is long. -/
structure InReach (row : Nat) (cursor : Cursor) : Prop where
  one_le : 1 ≤ (row : Int) + cursor.shift
  le_last : (row : Int) + cursor.shift ≤ lastRow + 1
  stride_le : ∀ remaining copies stride, cursor.block = .running remaining copies stride → stride ≤ lastRow

/-- Outside of blocks it is only where the row stands that counts. -/
theorem InReach.idle {row place : Nat} {shift : Int} (h : (place : Int) = row + shift) (hone : 1 ≤ place) (hlast : place ≤ lastRow + 1) :
    InReach row ⟨shift, .idle⟩ where
  one_le := by simp only; omega
  le_last := by simp only; omega
  stride_le _ _ _ hblock := by cases hblock

/-- Inside of blocks it is also how far apart the copies are. -/
theorem InReach.running {row place remaining copies stride : Nat} {shift : Int} (h : (place : Int) = row + shift) (hone : 1 ≤ place)
    (hlast : place ≤ lastRow + 1) (hstride : stride ≤ lastRow) : InReach row ⟨shift, .running remaining copies stride⟩ where
  one_le := by simp only; omega
  le_last := by simp only; omega
  stride_le _ _ _ hblock := by
    cases hblock
    exact hstride

/-- A row moves those below it no further than its copies reach, which are rows of the sheet. -/
theorem inReach_step {next : Cursor} {strip : Strip} (hreach : InReach row cursor)
    (h : step leaves areas row (grid.line row) cursor = .ok (strip, next)) : InReach (row + 1) next := by
  obtain ⟨shift, block⟩ := cursor
  cases block with
  | idle =>
    obtain ⟨origin, horigin, hone, hlast, ⟨-, -, rfl⟩ | ⟨-, -, hneeded, rfl⟩⟩ := step_idle h
    · exact .idle (show (origin : Int) = _ by omega) hone (by omega)
    · split
      · exact .running (show ((origin + 1 : Nat) : Int) = _ by omega) (by omega) (by omega) (Nat.min_le_right _ _)
      · have hbelow : origin + (repetition leaves grid row).rows ≤ lastRow := by
          rcases Nat.eq_zero_or_pos (repetition leaves grid row).rows with hzero | hpos
          · omega
          · -- Copies are at least one row apart.
            have hfar : (repetition leaves grid row).rows ≤ (repetition leaves grid row).rows * (ownHeight leaves areas grid row + 1) :=
              Nat.le_mul_of_pos_right _ (Nat.succ_pos _)
            have hrow : origin + (repetition leaves grid row).rows * (ownHeight leaves areas grid row + 1) ≤ lastRow :=
              hneeded _ (row_mem_neededRows (s := (expansion leaves areas grid .idle row).stacking) hpos (Nat.le_refl _))
            omega
        exact .idle (show ((origin + 1 + (repetition leaves grid row).rows : Nat) : Int) = _ by omega) (by omega) (by omega)
  | running remaining copies stride =>
    obtain ⟨origin, horigin, hone, hlast, -, hneeded, rfl⟩ := step_running h
    split
    · exact .running (show ((origin + 1 : Nat) : Int) = _ by omega) (by omega) (by omega) (hreach.stride_le _ _ _ rfl)
    · have hbelow : origin + Block.capped (copies * stride) ≤ lastRow := by
        have hcapped : Block.capped (copies * stride) ≤ copies * stride := Nat.min_le_left _ _
        rcases Nat.eq_zero_or_pos copies with rfl | hpos
        · omega
        · have hrow : origin + copies * stride ≤ lastRow := hneeded _
            (row_mem_neededRows (s := (expansion leaves areas grid (.running remaining copies stride) row).stacking) hpos (Nat.le_refl _))
          omega
      exact .idle (show ((origin + 1 + Block.capped (copies * stride) : Nat) : Int) = _ by omega) (by omega) (by omega)

/-- Nowhere on a walk rows have moved further than the sheet is long. -/
theorem inReach_walk (len : Nat) {final : Cursor} {strips : List Strip} (hreach : InReach row cursor)
    (h : walk leaves areas grid (List.range' row len) cursor = .ok (strips, final)) : InReach (row + len) final := by
  induction len generalizing row cursor strips with
  | zero =>
    cases h
    exact hreach
  | succ len ih =>
    rw [List.range'_succ] at h
    obtain ⟨strip, next, below, hstep, hwalk, -⟩ := walk_cons h
    rw [show row + (len + 1) = row + 1 + len by omega]
    exact ih (inReach_step hreach hstep) hwalk

/-- Copies are checked one after the other, so the first row that is refused lies below the last one by no more than one of them. -/
theorem checkRows_copies_le {s : Stacking} {origin : Nat} (hstride : s.stride ≤ lastRow) (hheight : ∀ area ∈ s.areas, area.height ≤ lastRow)
    (len first : Nat) (hfirst : s.row origin first ≤ lastRow) {error : Error}
    (h : checkRows ((List.range' (first + 1) len).flatMap fun copy =>
      s.row origin copy :: s.areas.map fun area => s.row origin copy + area.height) = .error error) :
    ∃ n : Nat, n ≤ 2 * lastRow ∧ error = .rowOutOfRange n := by
  induction len generalizing first with
  | zero => cases h
  | succ len ih =>
    rw [List.range'_succ, List.flatMap_cons, checkRows_append, checkRows_cons] at h
    by_cases hnext : s.row origin (first + 1) ≤ lastRow
    · rw [if_pos hnext] at h
      cases hareas : checkRows (s.areas.map fun area => s.row origin (first + 1) + area.height) with
      | ok _ =>
        rw [hareas] at h
        exact ih _ hnext h
      | error refused =>
        rw [hareas] at h
        obtain rfl := Except.error.inj h
        obtain ⟨n, hn, -, rfl⟩ := exists_of_checkRows hareas
        obtain ⟨area, harea, rfl⟩ := List.mem_map.1 hn
        exact ⟨_, by have := hheight area harea; omega, rfl⟩
    · rw [if_neg hnext] at h
      obtain rfl := Except.error.inj h
      refine ⟨_, ?_, rfl⟩
      rw [Stacking.row, Nat.add_mul, Nat.one_mul]
      rw [Stacking.row] at hfirst
      omega

/-- What a step refuses lies below the last row by no more than the sheet is long. -/
theorem le_of_step_eq_error (hrow : 1 ≤ row) (hlast : row ≤ lastRow) (hareas : ∀ area ∈ areas, 1 ≤ area.top ∧ area.bottom ≤ lastRow)
    (hreach : InReach row cursor) {error : Error} (h : step leaves areas row (grid.line row) cursor = .error error) :
    ∃ n : Nat, n ≤ 2 * lastRow ∧ error = .rowOutOfRange n := by
  have hstride : (expansion leaves areas grid cursor.block row).stacking.stride ≤ lastRow := by
    cases hblock : cursor.block with
    | idle =>
      have hheight : row + ownHeight leaves areas grid row < lastRow + 1 :=
        row_add_ownHeight_lt (by omega) fun area harea => by have := (hareas area harea).2; omega
      change ownHeight leaves areas grid row + 1 ≤ lastRow
      omega
    | running remaining copies stride => exact hreach.stride_le _ _ _ hblock
  have hheight : ∀ area ∈ (expansion leaves areas grid cursor.block row).stacking.areas, area.height ≤ lastRow := by
    intro area harea
    obtain ⟨hmem | ⟨w, -, hmem⟩, -, -⟩ := mem_stacking_areas.1 harea
    · have := (hareas area hmem).2
      rw [Area.height]
      omega
    · rw [height_of_mem_widening hmem]
      exact Nat.zero_le _
  obtain ⟨origin, horigin⟩ := Int.eq_ofNat_of_zero_le (show 0 ≤ (row : Int) + cursor.shift by have := hreach.one_le; omega)
  have hone := hreach.one_le
  have hle := hreach.le_last
  have hpositive : 1 ≤ lastRow := by decide
  rw [step_eq_bind, horigin, rowAt_natCast (by omega)] at h
  by_cases hin : origin ≤ lastRow
  · rw [if_pos hin] at h
    change (if _ then _ else _) = _ at h
    split at h
    · cases h
    · cases hcheck : checkRows ((expansion leaves areas grid cursor.block row).stacking.neededRows origin) with
      | ok _ =>
        rw [hcheck] at h
        cases h
      | error refused =>
        rw [hcheck] at h
        obtain rfl := Except.error.inj h
        exact checkRows_copies_le hstride hheight _ 0 (by rwa [Stacking.row, Nat.zero_mul]) hcheck
  · rw [if_neg hin] at h
    obtain rfl := Except.error.inj h
    exact ⟨origin, by omega, rfl⟩

/-- So does what a walk refuses. -/
theorem le_of_walk_eq_error (len : Nat) (hrow : 1 ≤ row) (hlast : row + len ≤ lastRow + 1)
    (hareas : ∀ area ∈ areas, 1 ≤ area.top ∧ area.bottom ≤ lastRow) (hreach : InReach row cursor) {error : Error}
    (h : walk leaves areas grid (List.range' row len) cursor = .error error) : ∃ n : Nat, n ≤ 2 * lastRow ∧ error = .rowOutOfRange n := by
  induction len generalizing row cursor with
  | zero => cases h
  | succ len ih =>
    rw [List.range'_succ, walk_cons_eq] at h
    cases hstep : step leaves areas row (grid.line row) cursor with
    | error refused =>
      rw [hstep] at h
      obtain rfl := Except.error.inj h
      exact le_of_step_eq_error hrow (by omega) hareas hreach hstep
    | ok met =>
      rw [hstep] at h
      change (walk leaves areas grid (List.range' (row + 1) len) met.2).map _ = _ at h
      cases hrest : walk leaves areas grid (List.range' (row + 1) len) met.2 with
      | ok below =>
        rw [hrest] at h
        cases h
      | error refused =>
        rw [hrest] at h
        obtain rfl := Except.error.inj h
        exact ih (by omega) (by omega) (inReach_step hreach hstep) hrest

/-! ## Row numbers -/

/-- A row that is met goes out, or stays with the merges that its copies take along. -/
theorem meet_cases (leaves : Leaves) (areas : List Area) (grid : Grid) (row : Nat) (cursor : Cursor) :
    ∃ origin, origin = (meet leaves areas grid row cursor).1.position.toNat ∧
      ((meet leaves areas grid row cursor).1.strip = Strip.deleted row origin ∧
          (meet leaves areas grid row cursor).1.needed = [origin] ∨
        ∃ block, (meet leaves areas grid row cursor).1.strip = (expansion leaves areas grid block row).strip block origin ∧
          (meet leaves areas grid row cursor).1.needed = origin :: (expansion leaves areas grid block row).stacking.neededRows origin) := by
  rw [meet]
  simp only
  split
  · exact ⟨_, rfl, Or.inl ⟨rfl, rfl⟩⟩
  · exact ⟨_, rfl, Or.inr ⟨_, rfl, rfl⟩⟩

/-- Every row that is met is met somewhere on the walk. -/
theorem exists_meet {rows : List Nat} {met : Met} (h : met ∈ (meetAll leaves areas grid rows cursor).1) :
    ∃ row cursor, met = (meet leaves areas grid row cursor).1 := by
  induction rows generalizing cursor with
  | nil => cases h
  | cons row rest ih =>
    rw [meetAll_cons] at h
    rcases List.mem_cons.1 h with heq | hmem
    · exact ⟨row, cursor, heq⟩
    · exact ih hmem

/-- The rows of the merges of a strip are rows that it needs. -/
theorem mem_needed_of_mem_areas {block : Block} {origin : Nat} {range : Area}
    (h : range ∈ ((expansion leaves areas grid block row).strip block origin).areas) :
    range.top ∈ origin :: (expansion leaves areas grid block row).stacking.neededRows origin ∧
      range.bottom ∈ origin :: (expansion leaves areas grid block row).stacking.neededRows origin := by
  rcases mem_strip_areas.1 h with ⟨w, hw, hrange⟩ | ⟨copy, hone, hcopy, area, harea, rfl⟩
  · obtain ⟨htop, hheight, -⟩ := exists_source_of_widening hw hrange
    have hbottom : range.bottom = origin := by
      have := range.top_le
      rw [Area.height] at hheight
      omega
    rw [htop, hbottom]
    exact ⟨List.mem_cons_self, List.mem_cons_self⟩
  · rw [Area.withRows_eq _ (Nat.le_add_right _ _)]
    refine ⟨row_mem_needed hcopy, List.mem_cons_of_mem _ ?_⟩
    refine List.mem_flatMap.2 ⟨copy, Stacking.mem_numbers.2 ⟨hone, hcopy⟩, List.mem_cons_of_mem _ ?_⟩
    exact List.mem_map.2 ⟨area, harea, rfl⟩

/-- A strip needs the row in which its row stands, and those of its merges, copies and texts. -/
theorem mem_needed_of_mem_strip {met : Met} (h : met ∈ (endless leaves areas grid).1) :
    met.strip.fate.place ∈ met.needed ∧ (∀ range ∈ met.strip.areas, range.top ∈ met.needed ∧ range.bottom ∈ met.needed) ∧
      (∀ copy ∈ met.strip.styles ++ met.strip.formats, copy.source.row ∈ met.needed ∧ copy.target.row ∈ met.needed) ∧
        ∀ line ∈ met.strip.lines, line.1 ∈ met.needed := by
  obtain ⟨row, cursor, rfl⟩ := exists_meet h
  obtain ⟨origin, -, ⟨hstrip, hneeded⟩ | ⟨block, hstrip, hneeded⟩⟩ := meet_cases leaves areas grid row cursor
  · rw [hstrip, hneeded]
    exact ⟨List.mem_cons_self, fun _ hrange => absurd hrange List.not_mem_nil, fun _ hcopy => absurd hcopy List.not_mem_nil,
      fun _ hline => absurd hline List.not_mem_nil⟩
  · rw [hstrip, hneeded]
    refine ⟨List.mem_cons_self, fun _ => mem_needed_of_mem_areas, ?_, ?_⟩
    · intro c hc
      have hrows : c.source.row = origin ∧ ∃ copy ≤ (expansion leaves areas grid block row).stacking.copies,
          c.target.row = (expansion leaves areas grid block row).stacking.row origin copy := by
        rcases List.mem_append.1 hc with hstyle | hformat
        · exact (Expansion.styles_spread _ _ _).rows hstyle
        · exact (Expansion.formats_spread _ _ _).rows hformat
      obtain ⟨hsource, copy, hcopy, htarget⟩ := hrows
      rw [hsource, htarget]
      exact ⟨List.mem_cons_self, row_mem_needed hcopy⟩
    · rintro ⟨place, line⟩ hline
      obtain ⟨copy, hcopy, rfl, -⟩ := mem_strip_lines.1 hline
      exact row_mem_needed hcopy

/-- No row above row 1 is needed. -/
theorem one_le_of_mem_needed {met : Met} (h : met ∈ (endless leaves areas grid).1) (hposition : 1 ≤ met.position) :
    ∀ n ∈ met.needed, 1 ≤ n := by
  obtain ⟨row, cursor, rfl⟩ := exists_meet h
  obtain ⟨origin, horigin, hcase⟩ := meet_cases leaves areas grid row cursor
  have hone : 1 ≤ origin := by omega
  intro n hn
  rcases hcase with ⟨-, hneeded⟩ | ⟨block, -, hneeded⟩
  · rw [hneeded, List.mem_singleton] at hn
    omega
  · rw [hneeded] at hn
    rcases List.mem_cons.1 hn with rfl | hbelow
    · exact hone
    · -- All the others lie below the row itself.
      obtain ⟨copy, -, hcopy⟩ := List.mem_flatMap.1 hbelow
      have hrow : origin ≤ (expansion leaves areas grid block row).stacking.row origin copy := Nat.le_add_right _ _
      rcases List.mem_cons.1 hcopy with rfl | harea
      · omega
      · obtain ⟨area, -, rfl⟩ := List.mem_map.1 harea
        omega

/-- The rows of a band lie on the sheet, and so do the positions of its row actions. -/
theorem Laid.position_bounds {row' origin origin' : Nat} {bands : List Band} (h : Laid leaves areas grid row origin bands row' origin') :
    ∀ action ∈ bands.flatMap Band.actions, 1 ≤ action.position ∧ action.position ≤ lastRow := by
  intro action haction
  obtain ⟨band, hband, hmem⟩ := List.mem_flatMap.1 haction
  cases band with
  | deleted r o =>
    obtain ⟨-, hbounds⟩ := h.of_deleted hband
    rw [List.mem_singleton.1 hmem]
    exact hbounds
  | kept r o height copies =>
    obtain ⟨-, -, -, hone, hlast⟩ := h.of_kept hband
    obtain ⟨added, hadded, rfl⟩ := List.mem_map.1 hmem
    rw [List.mem_range'_1] at hadded
    simp only [RowAction.position]
    omega

variable {layout : Layout}

/-- It is known of every row of a merged area where it stands or went out. -/
theorem exists_fate (h : ofTemplate leaves areas grid = .ok layout) {area : Area} (harea : area ∈ areas) (hrow : row ∈ area.rows) :
    ∃ fate, layout.fate? row = some fate := by
  obtain ⟨stop, bands, bottom, hlaid, hstrips, hends⟩ := exists_laid_areas h
  obtain ⟨htop, hbottom⟩ := hends area harea
  have hspan := area.top_le
  rw [Area.rows, Area.height, List.mem_range'_1] at hrow
  obtain ⟨band, hband, hle, hlt⟩ := hlaid.exists_of_row (r := row) (by omega) (by omega)
  cases band with
  | deleted r o =>
    simp only [Band.row, Band.nextRow] at hle hlt
    obtain rfl : r = row := by omega
    exact ⟨_, (hlaid.deleted_iff hstrips).2 hband⟩
  | kept r o height copies =>
    simp only [Band.row, Band.nextRow] at hle hlt
    obtain ⟨place, rfl⟩ := Nat.exists_eq_add_of_le hle
    exact ⟨_, hlaid.fate_kept hstrips hband (by omega)⟩

/-- An area of a template is placed between the rows in which its first and its last row stand or went out. -/
theorem place?_bounds {area range : Area} (h : layout.place? area = some range) :
    ∃ top bottom, layout.fate? area.top = some top ∧ layout.fate? area.bottom = some bottom ∧
      range.top = top.place ∧ range.top ≤ range.bottom ∧ range.bottom ≤ max bottom.place top.place := by
  rw [place?] at h
  split at h
  · cases h
  · cases htop : layout.fate? area.top with
    | none =>
      rw [htop] at h
      cases h
    | some top =>
      cases hbottom : layout.fate? area.bottom with
      | none =>
        rw [htop, hbottom] at h
        cases top <;> cases h
      | some bottom =>
        rw [htop, hbottom] at h
        have hrange : range.top = top.place ∧ range.top ≤ range.bottom ∧ range.bottom ≤ max bottom.place top.place := by
          refine ⟨?_, range.top_le, ?_⟩
          · cases top <;> cases bottom <;> cases h <;> rw [Area.withRows_eq _ (Nat.le_max_right _ _), Fate.place]
          · cases top <;> cases bottom <;> cases h <;> rw [Area.withRows_eq _ (Nat.le_max_right _ _)] <;>
              simp only [Fate.place] <;> omega
        exact ⟨top, bottom, rfl, rfl, hrange⟩

/-- All row numbers of a layout are those of rows of the sheet if the rows that are needed and the rows of merged areas are. -/
theorem rowNumbers_bounds (h : ofTemplate leaves areas grid = .ok layout)
    (hstrips : layout.strips = (endless leaves areas grid).1.map (·.strip))
    (hneeded : ∀ met ∈ (endless leaves areas grid).1, ∀ n ∈ met.needed, 1 ≤ n ∧ n ≤ lastRow)
    (hfates : ∀ area ∈ areas, ∀ row ∈ area.rows, ∃ fate, layout.fate? row = some fate ∧ 1 ≤ fate.place ∧ fate.place ≤ lastRow) :
    ∀ n ∈ layout.rowNumbers areas, 1 ≤ n ∧ n ≤ lastRow := by
  have hmet : ∀ strip ∈ layout.strips, ∃ met ∈ (endless leaves areas grid).1, met.strip = strip := by
    intro strip hstrip
    rw [hstrips] at hstrip
    exact List.mem_map.1 hstrip
  intro n hn
  rw [rowNumbers, List.mem_append, List.mem_append, List.mem_append] at hn
  rcases hn with ((hposition | harea) | hcopy) | hrow
  · obtain ⟨action, haction, rfl⟩ := List.mem_map.1 hposition
    obtain ⟨stop, bands, bottom, hlaid, hbands⟩ := exists_laid_firstRow h
    exact hlaid.position_bounds action (hlaid.scaffold_rows hbands ▸ haction)
  · obtain ⟨range, hrange, hn⟩ := List.mem_flatMap.1 harea
    simp only [List.mem_cons, List.not_mem_nil, or_false] at hn
    rcases mem_scaffold_areas.1 hrange with ⟨strip, hstrip, hmem⟩ | ⟨area, harea, hplace⟩
    · obtain ⟨met, hmet, rfl⟩ := hmet strip hstrip
      obtain ⟨htop, hbottom⟩ := (mem_needed_of_mem_strip hmet).2.1 range hmem
      rcases hn with rfl | rfl
      · exact hneeded met hmet _ htop
      · exact hneeded met hmet _ hbottom
    · have hspan := area.top_le
      obtain ⟨top, bottom, htop, hbottom, heq, hle, hle'⟩ := place?_bounds hplace
      obtain ⟨fate, hfate, hbounds⟩ := hfates area harea area.top (by rw [Area.rows, List.mem_range'_1]; omega)
      obtain ⟨fate', hfate', hbounds'⟩ := hfates area harea area.bottom
        (by rw [Area.rows, Area.height, List.mem_range'_1]; omega)
      obtain rfl := Option.some.inj (htop.symm.trans hfate)
      obtain rfl := Option.some.inj (hbottom.symm.trans hfate')
      omega
  · obtain ⟨copy, hcopy, hn⟩ := List.mem_flatMap.1 hcopy
    have hstrip : ∃ strip ∈ layout.strips, copy ∈ strip.styles ++ strip.formats := by
      rcases List.mem_append.1 hcopy with hstyle | hformat
      · obtain ⟨strip, hstrip, hmem⟩ := List.mem_flatMap.1 hstyle
        exact ⟨strip, hstrip, List.mem_append_left _ hmem⟩
      · obtain ⟨strip, hstrip, hmem⟩ := List.mem_flatMap.1 hformat
        exact ⟨strip, hstrip, List.mem_append_right _ hmem⟩
    obtain ⟨strip, hstrip, hmem⟩ := hstrip
    obtain ⟨met, hmet, rfl⟩ := hmet strip hstrip
    obtain ⟨hsource, htarget⟩ := (mem_needed_of_mem_strip hmet).2.2.1 copy hmem
    simp only [List.mem_cons, List.not_mem_nil, or_false] at hn
    rcases hn with rfl | rfl
    · exact hneeded met hmet _ hsource
    · exact hneeded met hmet _ htarget
  · obtain ⟨line, hline, rfl⟩ := SortedMap.exists_get?_ofList_iff.1 ((SortedMap.mem_keys_iff _ _).1 hrow)
    obtain ⟨strip, hstrip, hmem⟩ := List.mem_flatMap.1 hline
    obtain ⟨met, hmet, rfl⟩ := hmet strip hstrip
    exact hneeded met hmet _ ((mem_needed_of_mem_strip hmet).2.2.2 line hmem)

/-- On a template whose rows are rows of the sheet no number goes far: what is refused is at most twice the last row, and nowhere on the walk
rows have moved up or down by more than the last row. -/
theorem walk_stays_in_reach (hgrid : grid.contains 0 = false) (hareas : ∀ area ∈ areas, 1 ≤ area.top)
    (hused : ∀ used ∈ usedRows areas grid, used ≤ lastRow) :
    (∀ error, ofTemplate leaves areas grid = .error error → ∃ n : Nat, n ≤ 2 * lastRow ∧ error = .rowOutOfRange n) ∧
      ∀ met strips cursor, met <+: usedRows areas grid → walk leaves areas grid met ⟨0, .idle⟩ = .ok (strips, cursor) →
        -lastRow ≤ cursor.shift ∧ cursor.shift ≤ lastRow := by
  obtain ⟨first, stop, hle, heq, -⟩ := usedRows_eq areas grid
  have hbounds : ∀ area ∈ areas, 1 ≤ area.top ∧ area.bottom ≤ lastRow := by
    refine fun area harea => ⟨hareas area harea, hused _ (mem_usedRows.2 ?_)⟩
    have hmem : area.bottom ∈ grid.keys ++ areas.flatMap fun area => [area.top, area.bottom] :=
      List.mem_append_right _ (List.mem_flatMap.2 ⟨area, harea, by simp⟩)
    exact ⟨⟨_, hmem, Nat.le_refl _⟩, _, hmem, Nat.le_refl _⟩
  have hone : ∀ used ∈ usedRows areas grid, 1 ≤ used := fun _ => one_le_of_mem_usedRows hgrid hareas
  rw [ofTemplate, if_neg (by simp [hgrid])]
  rw [heq] at hused hone ⊢
  generalize hlen : stop - first = len at hused hone ⊢
  cases len with
  | zero =>
    refine ⟨nofun, ?_⟩
    intro met strips cursor hmet hwalk
    rw [List.range'_zero, List.prefix_nil] at hmet
    subst hmet
    cases hwalk
    exact ⟨by simp only; omega, by simp only; omega⟩
  | succ len =>
    have hfirst : 1 ≤ first := hone first (by rw [List.mem_range'_1]; omega)
    have hstop : first + len ≤ lastRow := hused (first + len) (by rw [List.mem_range'_1]; omega)
    have hstart : InReach first ⟨0, .idle⟩ := .idle (show (first : Int) = _ by omega) hfirst (by omega)
    constructor
    · intro error herror
      cases hwalk : walk leaves areas grid (List.range' first (len + 1)) ⟨0, .idle⟩ with
      | ok met =>
        rw [hwalk] at herror
        cases herror
      | error refused =>
        rw [hwalk] at herror
        obtain rfl := Except.error.inj herror
        exact le_of_walk_eq_error _ hfirst (by omega) hbounds hstart hwalk
    · intro met strips cursor hmet hwalk
      obtain ⟨below, hbelow⟩ := hmet
      obtain ⟨before, hle', rfl, -⟩ := List.range'_eq_append_iff.1 hbelow.symm
      obtain ⟨hlow, hhigh, -⟩ := inReach_walk before hstart hwalk
      push_cast at hlow hhigh
      omega

/-- Row numbers are exact. No row is moved above row 1. A template is refused only for a row that it needs and that lies below the last
one of the sheet, and it is refused if there is one. Otherwise its layout is the one on a sheet without end: nothing is capped, all row
numbers are those of rows of the sheet, and it is known of every row of a merged area where it stands or went out. Of a template in rows of
the sheet the numbers that come up in between, refused ones among them, are at most twice the last row. -/
theorem row_numbers_exact (hgrid : grid.contains 0 = false) (hareas : ∀ area ∈ areas, 1 ≤ area.top) :
    (∀ met ∈ (endless leaves areas grid).1, 1 ≤ met.position) ∧
      (∀ error, ofTemplate leaves areas grid = .error error →
        ∃ n ∈ neededRows leaves areas grid, lastRow < n ∧ error = .rowOutOfRange n) ∧
      ((∃ n ∈ neededRows leaves areas grid, lastRow < n) →
        ∃ n : Nat, lastRow < n ∧ ofTemplate leaves areas grid = .error (.rowOutOfRange n)) ∧
      (∀ layout, ofTemplate leaves areas grid = .ok layout →
        layout = unbounded leaves areas grid ∧ (∀ n ∈ layout.rowNumbers areas, 1 ≤ n ∧ n ≤ lastRow) ∧
          ∀ area ∈ areas, ∀ row ∈ area.rows, ∃ fate, layout.fate? row = some fate ∧ 1 ≤ fate.place ∧ fate.place ≤ lastRow) ∧
      ((∀ used ∈ usedRows areas grid, used ≤ lastRow) →
        (∀ error, ofTemplate leaves areas grid = .error error → ∃ n : Nat, n ≤ 2 * lastRow ∧ error = .rowOutOfRange n) ∧
          ∀ met strips cursor, met <+: usedRows areas grid → walk leaves areas grid met ⟨0, .idle⟩ = .ok (strips, cursor) →
            -lastRow ≤ cursor.shift ∧ cursor.shift ≤ lastRow) := by
  obtain ⟨hpositions, heq⟩ := ofTemplate_eq leaves hgrid hareas
  refine ⟨hpositions, ?_, ?_, ?_, fun hused => walk_stays_in_reach hgrid hareas hused⟩
  · intro error herror
    rw [heq] at herror
    cases hcheck : checkRows (neededRows leaves areas grid) with
    | ok _ =>
      rw [hcheck] at herror
      cases herror
    | error refused =>
      rw [hcheck] at herror
      cases herror
      exact exists_of_checkRows hcheck
  · rintro ⟨n, hn, hlast⟩
    cases hcheck : checkRows (neededRows leaves areas grid) with
    | ok _ => exact absurd (checkRows_eq_ok_iff.1 hcheck n hn) (by omega)
    | error refused =>
      obtain ⟨n', -, hlast', rfl⟩ := exists_of_checkRows hcheck
      exact ⟨n', hlast', by rw [heq, hcheck]; rfl⟩
  · intro layout hlayout
    have hlayout' := hlayout
    rw [heq] at hlayout'
    cases hcheck : checkRows (neededRows leaves areas grid) with
    | error refused =>
      rw [hcheck] at hlayout'
      cases hlayout'
    | ok _ =>
      rw [hcheck] at hlayout'
      have hunbounded : layout = unbounded leaves areas grid := (Except.ok.inj hlayout').symm
      have hlast := checkRows_eq_ok_iff.1 hcheck
      have hneeded : ∀ met ∈ (endless leaves areas grid).1, ∀ n ∈ met.needed, 1 ≤ n ∧ n ≤ lastRow := fun met hmet n hn =>
        ⟨one_le_of_mem_needed hmet (hpositions met hmet) n hn, hlast n (List.mem_flatMap.2 ⟨met, hmet, hn⟩)⟩
      have hstrips : layout.strips = (endless leaves areas grid).1.map (·.strip) := by rw [hunbounded, unbounded]
      have hfates : ∀ area ∈ areas, ∀ row ∈ area.rows,
          ∃ fate, layout.fate? row = some fate ∧ 1 ≤ fate.place ∧ fate.place ≤ lastRow := by
        intro area harea row hrow
        obtain ⟨fate, hfate⟩ := exists_fate hlayout harea hrow
        obtain ⟨strip, hfind, rfl⟩ := Option.map_eq_some_iff.1 hfate
        have hstrip := List.mem_of_find?_eq_some hfind
        rw [hstrips] at hstrip
        obtain ⟨met, hmet, rfl⟩ := List.mem_map.1 hstrip
        exact ⟨_, hfate, hneeded met hmet _ (mem_needed_of_mem_strip hmet).1⟩
      exact ⟨hunbounded, rowNumbers_bounds hlayout hstrips hneeded hfates, hfates⟩

/-- A template whose list begins in the last row of the sheet. -/
def Sample.lastTexts : Grid := SortedMap.ofList [(lastRow, SortedMap.ofList [(columnA, "[items.*.n]")])]

/-- The sample needs rows of the sheet only. A second element below the last row has none. -/
theorem sample_rows_are_exact :
    (∃ layout, ofTemplate Sample.data Sample.merges Sample.texts = .ok layout ∧
      layout = unbounded Sample.data Sample.merges Sample.texts ∧ ∀ n ∈ layout.rowNumbers Sample.merges, 1 ≤ n ∧ n ≤ lastRow) ∧
    ∃ n : Nat, lastRow < n ∧ n ≤ 2 * lastRow ∧ ofTemplate Sample.data [] Sample.lastTexts = .error (.rowOutOfRange n) := by
  constructor
  · obtain ⟨layout, hlayout, -⟩ := Sample.exists_layout
    obtain ⟨-, -, -, hexact, -⟩ := @row_numbers_exact Sample.data Sample.merges Sample.texts (by decide +kernel) (by decide)
    obtain ⟨hunbounded, hbounds, -⟩ := hexact layout hlayout
    exact ⟨layout, hlayout, hunbounded, hbounds⟩
  · obtain ⟨-, -, hrefused, -, hreach⟩ := @row_numbers_exact Sample.data [] Sample.lastTexts (by decide +kernel) (by decide)
    have hneeded : ∃ n ∈ neededRows Sample.data [] Sample.lastTexts, lastRow < n :=
      (List.any_eq_true.1 (show (neededRows Sample.data [] Sample.lastTexts).any (lastRow < ·) = true by decide +kernel)).imp
        fun n hn => ⟨hn.1, of_decide_eq_true hn.2⟩
    obtain ⟨n, hlast, herror⟩ := hrefused hneeded
    obtain ⟨n', hle, heq⟩ := (hreach (by decide +kernel)).1 _ herror
    obtain rfl : n = n' := Int.ofNat.inj (Error.rowOutOfRange.inj heq)
    exact ⟨n, hlast, hle, herror⟩

end Layout
end SheetTemplate

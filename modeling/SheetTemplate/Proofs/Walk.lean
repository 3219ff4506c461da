import SheetTemplate.Proofs.Bands

/-!
# The walk lays out bands

`exists_laid`: a layout consists of bands. It is the only statement that looks into the walk over a template; one lemma for a step
outside of blocks (`step_idle`) and one for a step inside a block (`step_running`) say all that a step can do.
-/

namespace SheetTemplate
namespace Layout

variable {leaves : Leaves} {areas : List Area} {grid : Grid}

/-! ## Steps -/

/-- A number is taken for a row of the sheet if it is one. -/
theorem rowAt_eq_ok {n : Int} {row : Nat} (h : rowAt n = .ok row) : (row : Int) = n ∧ 1 ≤ row ∧ row ≤ lastRow := by
  unfold rowAt at h
  split at h
  · rename_i hn
    obtain rfl := Except.ok.inj h
    omega
  · cases h

/-- Rows that pass the check are rows of the sheet. -/
theorem le_lastRow_of_checkRows {rows : List Nat} {u : Unit} (h : checkRows rows = .ok u) : ∀ row ∈ rows, row ≤ lastRow := by
  intro row hrow
  unfold checkRows at h
  split at h
  · cases h
  · rename_i hnone
    have := List.find?_eq_none.1 hnone row hrow
    simpa using this

/-- A check goes well exactly if all rows are rows of the sheet. -/
theorem checkRows_eq_ok_iff {rows : List Nat} : checkRows rows = .ok () ↔ ∀ row ∈ rows, row ≤ lastRow := by
  refine ⟨le_lastRow_of_checkRows, fun h => ?_⟩
  have hnone : rows.find? (lastRow < ·) = none := by
    rw [List.find?_eq_none]
    intro row hrow
    simpa using h row hrow
  rw [checkRows, hnone]

/-- A step looks where the row stands, and if the row stays it looks whether its copies fit on the sheet. -/
theorem step_eq_bind (row : Nat) (cursor : Cursor) : step leaves areas row (grid.line row) cursor =
    (rowAt (row + cursor.shift)).bind fun origin =>
      if cursor.block = .idle ∧ refuses leaves grid row = true then
        .ok (Strip.deleted row origin, ⟨cursor.shift - 1, .idle⟩)
      else
        (checkRows ((expansion leaves areas grid cursor.block row).stacking.neededRows origin)).bind fun _ =>
          .ok ((expansion leaves areas grid cursor.block row).strip cursor.block origin,
            ⟨cursor.shift + (cursor.block.advance (expansion leaves areas grid cursor.block row).stacking.copies
                (expansion leaves areas grid cursor.block row).height).1,
              (cursor.block.advance (expansion leaves areas grid cursor.block row).stacking.copies
                (expansion leaves areas grid cursor.block row).height).2⟩) := rfl

/-- What one step of the walk can do: outside of blocks a row that is refused goes out, and any other row stays. -/
theorem step_cases {row : Nat} {cursor next : Cursor} {strip : Strip}
    (h : step leaves areas row (grid.line row) cursor = .ok (strip, next)) :
    ∃ origin : Nat, (origin : Int) = row + cursor.shift ∧ 1 ≤ origin ∧ origin ≤ lastRow ∧
      ((cursor.block = .idle ∧ refuses leaves grid row = true ∧ strip = Strip.deleted row origin ∧
          next = ⟨cursor.shift - 1, .idle⟩) ∨
        ((cursor.block = .idle → refuses leaves grid row = false) ∧
          strip = (expansion leaves areas grid cursor.block row).strip cursor.block origin ∧
          (∀ needed ∈ (expansion leaves areas grid cursor.block row).stacking.neededRows origin, needed ≤ lastRow) ∧
          ∃ moved block, cursor.block.advance (cursor.block.copies (repetition leaves grid row).rows)
              (expansion leaves areas grid cursor.block row).height = (moved, block) ∧
            next = ⟨cursor.shift + moved, block⟩)) := by
  rw [step_eq_bind] at h
  cases ho : rowAt (row + cursor.shift) with
  | error e => rw [ho] at h; cases h
  | ok origin =>
    obtain ⟨heq, hone, hlast⟩ := rowAt_eq_ok ho
    refine ⟨origin, heq, hone, hlast, ?_⟩
    rw [ho] at h
    change (if _ then _ else _) = _ at h
    split at h
    · rename_i hd
      left
      cases h
      exact ⟨hd.1, hd.2, rfl, rfl⟩
    · rename_i hd
      right
      have hstays : cursor.block = .idle → refuses leaves grid row = false := by
        intro hidle
        cases hr : refuses leaves grid row with
        | false => rfl
        | true => exact absurd ⟨hidle, hr⟩ hd
      cases hc : checkRows ((expansion leaves areas grid cursor.block row).stacking.neededRows origin) with
      | error e => rw [hc] at h; cases h
      | ok u =>
        rw [hc] at h
        cases h
        exact ⟨hstays, rfl, le_lastRow_of_checkRows hc, _, _, rfl, rfl⟩

/-- One step of the walk outside of blocks. A row with copies and merges below it begins a block. -/
theorem step_idle {row : Nat} {shift : Int} {next : Cursor} {strip : Strip}
    (h : step leaves areas row (grid.line row) ⟨shift, .idle⟩ = .ok (strip, next)) :
    ∃ origin : Nat, (origin : Int) = row + shift ∧ 1 ≤ origin ∧ origin ≤ lastRow ∧
      ((refuses leaves grid row = true ∧ strip = Strip.deleted row origin ∧ next = ⟨shift - 1, .idle⟩) ∨
        (refuses leaves grid row = false ∧ strip = (expansion leaves areas grid .idle row).strip .idle origin ∧
          (∀ needed ∈ (expansion leaves areas grid .idle row).stacking.neededRows origin, needed ≤ lastRow) ∧
          next = if 0 < (repetition leaves grid row).rows ∧ 0 < ownHeight leaves areas grid row then
            ⟨shift, .running (ownHeight leaves areas grid row) (repetition leaves grid row).rows
              (Block.capped (ownHeight leaves areas grid row + 1))⟩
          else ⟨shift + (repetition leaves grid row).rows, .idle⟩)) := by
  obtain ⟨origin, heq, hone, hlast, hcase⟩ := step_cases h
  refine ⟨origin, heq, hone, hlast, ?_⟩
  rcases hcase with ⟨-, hrefused, hstrip, hnext⟩ | ⟨hstays, hstrip, hneeded, moved, block, hadvance, hnext⟩
  · exact Or.inl ⟨hrefused, hstrip, hnext⟩
  · refine Or.inr ⟨hstays rfl, hstrip, hneeded, ?_⟩
    change (if 0 < (repetition leaves grid row).rows ∧ 0 < ownHeight leaves areas grid row then
      (0, Block.running (ownHeight leaves areas grid row) (repetition leaves grid row).rows
        (Block.capped (ownHeight leaves areas grid row + 1)))
      else ((repetition leaves grid row).rows, Block.idle)) = _ at hadvance
    rw [hnext]
    split at hadvance
    · rename_i hpos
      cases hadvance
      rw [if_pos hpos]
      simp
    · rename_i hpos
      cases hadvance
      rw [if_neg hpos]

/-- One step of the walk inside a block. The row stays, and behind the last one the rows below the block move. -/
theorem step_running {row remaining copies stride : Nat} {shift : Int} {next : Cursor} {strip : Strip}
    (h : step leaves areas row (grid.line row) ⟨shift, .running remaining copies stride⟩ = .ok (strip, next)) :
    ∃ origin : Nat, (origin : Int) = row + shift ∧ 1 ≤ origin ∧ origin ≤ lastRow ∧
      strip = (expansion leaves areas grid (.running remaining copies stride) row).strip (.running remaining copies stride)
        origin ∧
      (∀ needed ∈ (expansion leaves areas grid (.running remaining copies stride) row).stacking.neededRows origin,
        needed ≤ lastRow) ∧
      next = if 1 < remaining then ⟨shift, .running (remaining - 1) copies stride⟩
        else ⟨shift + Block.capped (copies * stride), .idle⟩ := by
  obtain ⟨origin, heq, hone, hlast, hcase⟩ := step_cases h
  rcases hcase with ⟨hidle, -⟩ | ⟨-, hstrip, hneeded, moved, block, hadvance, hnext⟩
  · cases hidle
  · refine ⟨origin, heq, hone, hlast, hstrip, hneeded, ?_⟩
    change (if 1 < remaining then (0, Block.running (remaining - 1) copies stride)
      else (Block.capped (copies * stride), Block.idle)) = _ at hadvance
    rw [hnext]
    split at hadvance
    · rename_i hmore
      cases hadvance
      rw [if_pos hmore]
      simp
    · rename_i hmore
      cases hadvance
      rw [if_neg hmore]

/-- A walk meets its first row, and then the others from where that row leaves it. -/
theorem walk_cons_eq (row : Nat) (rest : List Nat) (cursor : Cursor) : walk leaves areas grid (row :: rest) cursor =
    (step leaves areas row (grid.line row) cursor).bind fun met =>
      (walk leaves areas grid rest met.2).map fun below => (met.1 :: below.1, below.2) := by
  rw [walk]
  cases step leaves areas row (grid.line row) cursor with
  | error error => rfl
  | ok met => cases walk leaves areas grid rest met.2 <;> rfl

/-- A walk that goes well meets its first row and the others. -/
theorem walk_cons {row : Nat} {rest : List Nat} {cursor final : Cursor} {strips : List Strip}
    (h : walk leaves areas grid (row :: rest) cursor = .ok (strips, final)) :
    ∃ strip next below, step leaves areas row (grid.line row) cursor = .ok (strip, next) ∧
      walk leaves areas grid rest next = .ok (below, final) ∧ strips = strip :: below := by
  rw [walk_cons_eq] at h
  cases hstep : step leaves areas row (grid.line row) cursor with
  | error error => rw [hstep] at h; cases h
  | ok met =>
    rw [hstep] at h
    change (walk leaves areas grid rest met.2).map _ = _ at h
    cases hwalk : walk leaves areas grid rest met.2 with
    | error error => rw [hwalk] at h; cases h
    | ok below =>
      rw [hwalk] at h
      cases h
      exact ⟨met.1, met.2, below.1, rfl, hwalk, rfl⟩

/-- A walk over more rows goes on from where it has come. -/
theorem walk_append (rows more : List Nat) (cursor : Cursor) : walk leaves areas grid (rows ++ more) cursor =
    (walk leaves areas grid rows cursor).bind fun met =>
      (walk leaves areas grid more met.2).map fun rest => (met.1 ++ rest.1, rest.2) := by
  induction rows generalizing cursor with
  | nil =>
    change walk leaves areas grid more cursor = (walk leaves areas grid more cursor).map _
    cases walk leaves areas grid more cursor with
    | error e => rfl
    | ok rest => rfl
  | cons row rows ih =>
    change (step leaves areas row (grid.line row) cursor).bind _ =
      ((step leaves areas row (grid.line row) cursor).bind _).bind _
    cases step leaves areas row (grid.line row) cursor with
    | error e => rfl
    | ok next =>
      change (walk leaves areas grid (rows ++ more) next.2).bind _ = ((walk leaves areas grid rows next.2).bind _).bind _
      rw [ih]
      cases walk leaves areas grid rows next.2 with
      | error e => rfl
      | ok met =>
        change ((walk leaves areas grid more met.2).map _).bind _ = (walk leaves areas grid more met.2).map _
        cases walk leaves areas grid more met.2 with
        | error e => rfl
        | ok rest => rfl

/-- A walk that goes well over rows and more rows does so over both. -/
theorem walks_of_append {rows more : List Nat} {cursor final : Cursor} {strips : List Strip}
    (h : walk leaves areas grid (rows ++ more) cursor = .ok (strips, final)) :
    ∃ front next rest, walk leaves areas grid rows cursor = .ok (front, next) ∧
      walk leaves areas grid more next = .ok (rest, final) ∧ strips = front ++ rest := by
  rw [walk_append] at h
  cases hrows : walk leaves areas grid rows cursor with
  | error error => rw [hrows] at h; cases h
  | ok met =>
    rw [hrows] at h
    change (walk leaves areas grid more met.2).map _ = _ at h
    cases hmore : walk leaves areas grid more met.2 with
    | error error => rw [hmore] at h; cases h
    | ok rest =>
      rw [hmore] at h
      cases h
      exact ⟨met.1, met.2, rest.1, rfl, hmore, rfl⟩

/-- The row of each copy is one of those that are needed. -/
theorem row_mem_neededRows {s : Stacking} {origin copy : Nat} (h1 : 1 ≤ copy) (h2 : copy ≤ s.copies) :
    s.row origin copy ∈ s.neededRows origin := by
  unfold Stacking.neededRows Stacking.numbers
  refine List.mem_flatMap.2 ⟨copy, ?_, List.mem_cons_self⟩
  rw [List.mem_range'_1]
  omega

/-- The walk over the rest of a block: its rows stay one below the other, and the rows below it move when it is over. -/
theorem walk_running {remaining copies stride len row origin : Nat} {shift : Int} {final : Cursor} {strips : List Strip}
    (hrem : 1 ≤ remaining) (hlen : remaining ≤ len) (ho : (origin : Int) = row + shift)
    (h : walk leaves areas grid (List.range' row len) ⟨shift, .running remaining copies stride⟩ = .ok (strips, final)) :
    ∃ below, strips = (List.range remaining).map (fun place =>
          (expansion leaves areas grid (.running (remaining - place) copies stride) (row + place)).strip
            (.running (remaining - place) copies stride) (origin + place)) ++ below ∧
      walk leaves areas grid (List.range' (row + remaining) (len - remaining))
        ⟨shift + Block.capped (copies * stride), .idle⟩ = .ok (below, final) ∧
      ∀ copy ≤ copies, origin + (remaining - 1) + copy * stride ≤ lastRow := by
  induction remaining generalizing row origin len shift strips with
  | zero => omega
  | succ r ih =>
    obtain ⟨l, rfl⟩ : ∃ l, len = l + 1 := ⟨len - 1, by omega⟩
    rw [List.range'_succ] at h
    obtain ⟨strip, next, below, hstep, hwalk, rfl⟩ := walk_cons h
    obtain ⟨stood, hstood, -, hlast, rfl, hneeded, rfl⟩ := step_running hstep
    obtain rfl : origin = stood := by omega
    have hrows : ∀ copy ≤ copies, origin + copy * stride ≤ lastRow := by
      intro copy hcopy
      rcases Nat.eq_zero_or_pos copy with rfl | hpos
      · omega
      · exact hneeded _ (row_mem_neededRows hpos hcopy)
    by_cases hr : r = 0
    · subst hr
      rw [if_neg (by omega)] at hwalk
      refine ⟨below, by simp, by simpa using hwalk, ?_⟩
      intro copy hcopy
      have := hrows copy hcopy
      omega
    · rw [if_pos (by omega), Nat.add_sub_cancel] at hwalk
      obtain ⟨rest, hrest, hidle, hbound⟩ := ih (by omega) (by omega)
        (show ((origin + 1 : Nat) : Int) = ((row + 1 : Nat) : Int) + shift by push_cast; omega) hwalk
      refine ⟨rest, ?_, ?_, ?_⟩
      · rw [hrest, List.range_succ_eq_map, List.map_cons, List.map_map, List.cons_append]
        congr 2
        apply List.map_congr_left
        intro place _
        have e1 : row + 1 + place = row + place.succ := by omega
        have e2 : origin + 1 + place = origin + place.succ := by omega
        have e3 : r - place = r + 1 - place.succ := by omega
        simp only [Function.comp_apply, e1, e2, e3]
      · have e1 : row + 1 + r = row + (r + 1) := by omega
        have e2 : l - r = l + 1 - (r + 1) := by omega
        rw [e1, e2] at hidle
        exact hidle
      · intro copy hcopy
        have := hbound copy hcopy
        omega

/-! ## Heights -/

/-- A bound for the numbers that a fold takes the largest of is a bound for the largest. -/
theorem foldl_max_le {α : Type} (f : α → Nat) {m : Nat} (l : List α) (h : ∀ a ∈ l, f a ≤ m) {start : Nat} (hs : start ≤ m) :
    l.foldl (fun most a => max most (f a)) start ≤ m := by
  induction l generalizing start with
  | nil => exact hs
  | cons a l ih =>
    rw [List.foldl_cons]
    exact ih (fun b hb => h b (List.mem_cons_of_mem a hb)) (Nat.max_le.2 ⟨hs, h a List.mem_cons_self⟩)

/-- The height of a row is bounded by the heights of the merges that begin in it. -/
theorem height_le {merges : List Area} {row m : Nat} (line : Line) (h : ∀ area ∈ merges, area.top = row → area.height ≤ m) :
    Stacking.height merges row line ≤ m := by
  have hcell : ∀ (column : Column) (height : Nat), height ≤ m →
      (areasFrom merges ⟨column, row⟩).foldl (fun height area => max height area.height) height ≤ m := by
    intro column height hh
    refine foldl_max_le Area.height _ ?_ hh
    intro area harea
    obtain ⟨hmem, hanchor⟩ := List.mem_filter.1 harea
    have hanchor' : area.anchor = ⟨column, row⟩ := by simpa using hanchor
    exact h area hmem (congrArg Address.row hanchor')
  unfold Stacking.height
  generalize (line.filter fun _ text => Marker.valueInText text).keys = columns
  have hfold : ∀ start, start ≤ m → columns.foldl (fun height column =>
      (areasFrom merges ⟨column, row⟩).foldl (fun height area => max height area.height) height) start ≤ m := by
    induction columns with
    | nil => exact fun _ hs => hs
    | cons column columns ih => exact fun start hs => ih _ (hcell column start hs)
  exact hfold 0 (Nat.zero_le m)

/-- The merges of copies across lie in one row. -/
theorem height_of_mem_widening {w : Widening} {row : Nat} {area : Area} (h : area ∈ w.areas row) : area.height = 0 := by
  unfold Widening.areas at h
  split at h
  · cases h
  · obtain ⟨copy, -, rfl⟩ := List.mem_map.1 h
    simp [Area.height, Area.between]

/-- Where all merges end above a row of the template, so does a block. -/
theorem row_add_ownHeight_lt {row stop : Nat} (hrow : row < stop) (h : ∀ area ∈ areas, area.bottom < stop) :
    row + ownHeight leaves areas grid row < stop := by
  have hle : ownHeight leaves areas grid row ≤ stop - 1 - row := by
    unfold ownHeight expansion Expansion.ofLine
    simp only
    split
    · exact Nat.zero_le _
    · apply height_le
      intro area harea htop
      rcases List.mem_append.1 harea with hmem | hmem
      · have := h area hmem
        unfold Area.height
        omega
      · cases hw : Widening.ofLine? areas row (groundedLine grid row) (repetition leaves grid row) with
        | none => rw [hw] at hmem; cases hmem
        | some w =>
          rw [hw] at hmem
          rw [height_of_mem_widening hmem]
          exact Nat.zero_le _
  omega

/-! ## The walk -/

/-- A row without copies or without merges below it is a band by itself. -/
theorem ownHeight_eq_zero_of_not {row : Nat}
    (h : ¬(0 < (repetition leaves grid row).rows ∧ 0 < ownHeight leaves areas grid row)) :
    ownHeight leaves areas grid row = 0 := by
  rcases Nat.eq_zero_or_pos (repetition leaves grid row).rows with hc | hc
  · exact ownHeight_eq_zero hc
  · rcases Nat.eq_zero_or_pos (ownHeight leaves areas grid row) with hh | hh
    · exact hh
    · exact absurd ⟨hc, hh⟩ h

/-- The strips of a band: the row that begins it and the rows of its block. -/
theorem strips_kept (row origin height copies : Nat) :
    Band.strips leaves areas grid (.kept row origin height copies) =
      (expansion leaves areas grid .idle row).strip .idle origin :: (List.range height).map (fun place =>
        (expansion leaves areas grid (.running (height - place) copies (height + 1)) (row + 1 + place)).strip
          (.running (height - place) copies (height + 1)) (origin + 1 + place)) := by
  rw [Band.strips, List.range_succ_eq_map, List.map_cons, List.map_map]
  congr 1
  apply List.map_congr_left
  intro place _
  simp only [Function.comp_apply, Band.keptStrip, Band.blockAt]
  have e1 : row + 1 + place = row + place.succ := by omega
  have e2 : origin + 1 + place = origin + place.succ := by omega
  rw [e1, e2]

/-- Outside of blocks the walk lays out bands. -/
theorem walk_laid {stop : Nat} (hareas : ∀ area ∈ areas, area.bottom < stop) (len : Nat) :
    ∀ {row origin : Nat} {shift : Int} {strips : List Strip} {final : Cursor}, row + len = stop → (origin : Int) = row + shift →
      walk leaves areas grid (List.range' row len) ⟨shift, .idle⟩ = .ok (strips, final) →
      ∃ bands origin', Laid leaves areas grid row origin bands stop origin' ∧
        strips = bands.flatMap (Band.strips leaves areas grid) ∧ final = ⟨(origin' : Int) - stop, .idle⟩ := by
  induction len using Nat.strongRecOn with
  | _ len ih =>
    intro row origin shift strips final hstop ho h
    cases len with
    | zero =>
      obtain rfl : row = stop := hstop
      cases h
      refine ⟨[], origin, .nil _ _, rfl, ?_⟩
      congr 1
      omega
    | succ l =>
      rw [List.range'_succ] at h
      obtain ⟨strip, next, below, hstep, hwalk, rfl⟩ := walk_cons h
      obtain ⟨stood, hstood, hone, hlast, hcase⟩ := step_idle hstep
      obtain rfl : origin = stood := by omega
      clear hstep h
      rcases hcase with ⟨hrefused, rfl, rfl⟩ | ⟨hstays, rfl, hneeded, rfl⟩
      · obtain ⟨bands, origin', hlaid, rfl, hfinal⟩ := ih l (Nat.lt_succ_self l) (by omega)
          (show ((origin : Nat) : Int) = ((row + 1 : Nat) : Int) + (shift - 1) by push_cast; omega) hwalk
        exact ⟨.deleted row origin :: bands, origin', .deleted hrefused hone hlast hlaid, rfl, hfinal⟩
      · have hheight : row + ownHeight leaves areas grid row < stop := row_add_ownHeight_lt (by omega) hareas
        have hflat : ¬(0 < (repetition leaves grid row).rows ∧ 0 < ownHeight leaves areas grid row) →
          ownHeight leaves areas grid row = 0 := ownHeight_eq_zero_of_not
        have hstride : (expansion leaves areas grid .idle row).stacking.stride = ownHeight leaves areas grid row + 1 := rfl
        generalize hH : ownHeight leaves areas grid row = height at hwalk hheight hflat hstride
        generalize hn : (repetition leaves grid row).rows = copies at hwalk hflat
        split at hwalk
        · rename_i hpos
          -- The rest of the block is walked before the rows below it move.
          obtain ⟨rest, hrest, hidle, hbound⟩ := walk_running hpos.2 (show height ≤ l by omega)
            (show ((origin + 1 : Nat) : Int) = ((row + 1 : Nat) : Int) + shift by push_cast; omega) hwalk
          have hcapped : Block.capped (height + 1) = height + 1 := Block.capped_of_le (by have := hbound 0 (Nat.zero_le _); omega)
          rw [hcapped] at hrest hidle hbound
          have hend := hbound copies (Nat.le_refl _)
          rw [Block.capped_of_le (show copies * (height + 1) ≤ lastRow by omega)] at hidle
          have e1 : row + 1 + height = row + height + 1 := by omega
          have e2 : origin + (copies + 1) * (height + 1) = origin + height + 1 + copies * (height + 1) := by
            rw [Nat.add_mul]
            omega
          rw [e1] at hidle
          obtain ⟨bands, origin', hlaid, rfl, hfinal⟩ := ih (l - height) (by omega)
            (show row + height + 1 + (l - height) = stop by omega)
            (show ((origin + (copies + 1) * (height + 1) : Nat) : Int) = _ by rw [e2]; push_cast; omega) hidle
          refine ⟨.kept row origin height copies :: bands, origin',
            .kept hstays hn.symm hH.symm hone (by omega) hlaid, ?_, hfinal⟩
          rw [hrest, List.flatMap_cons, strips_kept, List.cons_append]
        · rename_i hpos
          obtain rfl : height = 0 := hflat hpos
          have hend : origin + copies ≤ lastRow := by
            rcases Nat.eq_zero_or_pos copies with hc | hc
            · omega
            · have hrow := hneeded _ (row_mem_neededRows hc (Nat.le_of_eq hn.symm))
              rw [Stacking.row, hstride] at hrow
              omega
          obtain ⟨bands, origin', hlaid, rfl, hfinal⟩ := ih l (Nat.lt_succ_self l) (by omega)
            (show ((origin + (copies + 1) * (0 + 1) : Nat) : Int) = _ by push_cast; omega) hwalk
          exact ⟨.kept row origin 0 copies :: bands, origin', .kept hstays hn.symm hH.symm hone (by omega) hlaid, rfl, hfinal⟩

/-- The rows in use are those between rows with cells and ends of merges. -/
theorem mem_usedRows {used : Nat} : used ∈ usedRows areas grid ↔
    (∃ first ∈ grid.keys ++ areas.flatMap fun area => [area.top, area.bottom], first ≤ used) ∧
      ∃ last ∈ grid.keys ++ areas.flatMap fun area => [area.top, area.bottom], used ≤ last := by
  unfold usedRows
  generalize grid.keys ++ (areas.flatMap fun area => [area.top, area.bottom]) = rows
  cases hmin : rows.min? with
  | none =>
    rw [List.min?_eq_none_iff] at hmin
    simp [hmin]
  | some first =>
    cases hmax : rows.max? with
    | none =>
      rw [List.max?_eq_none_iff] at hmax
      simp [hmax]
    | some last =>
      obtain ⟨hfirst, hleast⟩ := List.min?_eq_some_iff.1 hmin
      obtain ⟨hlast, hmost⟩ := List.max?_eq_some_iff.1 hmax
      simp only [hmin, hmax, List.mem_range'_1]
      constructor
      · rintro ⟨hle, hlt⟩
        have hspan := hleast last hlast
        exact ⟨⟨first, hfirst, hle⟩, last, hlast, by omega⟩
      · rintro ⟨⟨some, hsome, hle⟩, other, hother, hle'⟩
        have hleast' := hleast some hsome
        have hmost' := hmost other hother
        omega

/-- The used rows of a template are those from a first row up to before a row that all merges end above. -/
theorem usedRows_eq (areas : List Area) (grid : Grid) :
    ∃ first stop, first ≤ stop ∧ usedRows areas grid = List.range' first (stop - first) ∧ ∀ area ∈ areas, area.bottom < stop := by
  unfold usedRows
  generalize hrows : (grid.keys ++ areas.flatMap fun area => [area.top, area.bottom]) = rows
  have hbottom : ∀ area ∈ areas, area.bottom ∈ rows := by
    intro area harea
    rw [← hrows]
    exact List.mem_append_right _ (List.mem_flatMap.2 ⟨area, harea, by simp⟩)
  cases hmin : rows.min? with
  | none =>
    refine ⟨0, 0, Nat.le_refl 0, by simp only [hmin]; rfl, ?_⟩
    intro area harea
    have := hbottom area harea
    rw [List.min?_eq_none_iff.1 hmin] at this
    cases this
  | some first =>
    cases hmax : rows.max? with
    | none =>
      rw [List.max?_eq_none_iff.1 hmax] at hmin
      cases hmin
    | some last =>
      have hle := (List.max?_eq_some_iff.1 hmax).2
      have hfirst := hle first (List.min?_eq_some_iff.1 hmin).1
      refine ⟨first, last + 1, by omega, ?_, ?_⟩
      · have e : last - first + 1 = last + 1 - first := by omega
        simp only [hmin, hmax, e]
      · intro area harea
        have := hle _ (hbottom area harea)
        omega

/-- A layout is that of a walk over the rows in use. A block that is still running at the end moves what lies below by all its copies. -/
theorem exists_walk {layout : Layout} (h : ofTemplate leaves areas grid = .ok layout) :
    ∃ final, walk leaves areas grid (usedRows areas grid) ⟨0, .idle⟩ = .ok (layout.strips, final) ∧
      layout.shift = final.shift + final.block.finish := by
  unfold ofTemplate at h
  split at h
  · cases h
  · cases hwalk : walk leaves areas grid (usedRows areas grid) ⟨0, .idle⟩ with
    | error error => rw [hwalk] at h; cases h
    | ok result =>
      rw [hwalk] at h
      cases h
      exact ⟨result.2, rfl, rfl⟩

/-- A layout consists of bands: the used rows of the template from the first to before row `stop`, and the row below them
stands at row `bottom`. -/
theorem exists_laid {layout : Layout} (h : ofTemplate leaves areas grid = .ok layout) :
    ∃ first stop bands bottom, first ≤ stop ∧ usedRows areas grid = List.range' first (stop - first) ∧
      Laid leaves areas grid first first bands stop bottom ∧ layout.strips = bands.flatMap (Band.strips leaves areas grid) ∧
      layout.shift = (bottom : Int) - stop := by
  obtain ⟨first, stop, hle, hused, hareas⟩ := usedRows_eq areas grid
  obtain ⟨final, hw, hshift⟩ := exists_walk h
  rw [hused] at hw
  obtain ⟨bands, bottom, hlaid, hstrips, hfinal⟩ := walk_laid hareas (stop - first)
    (by omega) (show ((first : Nat) : Int) = (first : Int) + 0 by omega) hw
  refine ⟨first, stop, bands, bottom, hle, hused, hlaid, hstrips, ?_⟩
  rw [hshift, hfinal]
  simp [Block.finish]

/-! ## A sample -/

/-- A result that passes a test is there. -/
theorem exists_ok_of_any {ε α : Type} {result : Except ε α} {p : α → Bool} (h : result.toOption.any p = true) :
    ∃ a, result = .ok a ∧ p a = true := by
  cases result with
  | error e => cases h
  | ok a => exact ⟨a, rfl, h⟩

namespace Sample

def columnA : Column := .first

def columnB : Column := ⟨2, by decide, by decide⟩

def columnC : Column := ⟨3, by decide, by decide⟩

/-- The texts of a sample template: a row that goes out, a list with a formula, a cell that repeats both ways beside a total, and
the two rows of a block. -/
def texts : Grid :=
  SortedMap.ofList [
    (1, SortedMap.ofList [(columnA, "[=vip]VIP")]),
    (2, SortedMap.ofList [(columnA, "[items.*.n]"), (columnB, "=A2*2")]),
    (3, SortedMap.ofList [(columnA, "[tags.*.*]"), (columnC, "=SUM(A2:A2)")]),
    (4, SortedMap.ofList [(columnA, "[boxes.*.id]"), (columnB, "=A5*2")]),
    (5, SortedMap.ofList [(columnB, "=A5+1")])]

/-- The merged areas of the sample: the block spans two rows. -/
def merges : List Area := [Area.between ⟨columnA, 4⟩ ⟨columnA, 5⟩]

/-- The data of the sample. -/
def data : Leaves :=
  Leaves.ofValue (.map [
    ("boxes", .list [.map [("id", .int 1)], .map [("id", .int 2)]]),
    ("items", .list [.map [("n", .int 7)], .map [("n", .int 8)]]),
    ("tags", .list [.list [.int 5, .int 6]])])

/-- The sample has a layout, and the rows stand where one expects them. -/
theorem exists_layout : ∃ layout, ofTemplate data merges texts = .ok layout ∧
    layout.fate? 1 = some (.deleted 1) ∧ layout.fate? 2 = some (.placed 1 1 1) ∧ layout.fate? 3 = some (.placed 3 0 1) ∧
      layout.fate? 4 = some (.placed 4 1 2) ∧ layout.fate? 5 = some (.placed 5 1 2) := by
  obtain ⟨layout, hlayout, hfates⟩ := exists_ok_of_any (show (ofTemplate data merges texts).toOption.any (fun layout =>
    layout.fate? 1 = some (.deleted 1) ∧ layout.fate? 2 = some (.placed 1 1 1) ∧ layout.fate? 3 = some (.placed 3 0 1) ∧
      layout.fate? 4 = some (.placed 4 1 2) ∧ layout.fate? 5 = some (.placed 5 1 2)) = true by decide +kernel)
  exact ⟨layout, hlayout, by simpa using hfates⟩

end Sample
end Layout
end SheetTemplate

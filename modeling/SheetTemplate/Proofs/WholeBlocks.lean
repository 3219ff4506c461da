import SheetTemplate.Proofs.OutputTexts

/-!
# Blocks are never cut short

A walk over a template that goes well meets every block to its last row. What the steps keep is `Block.Whole`: the rows that are still to
come hold the rest of a block that is running. A block begins with a merge that reaches below its first row, and the rows of every merge
are in use, so the property is there when a block begins; and nothing ends a walk step inside a block but the step to its next row.

`blocks_are_never_cut` is what follows for the layout: the rest of a block that is running behind a row is in use, each row of it stands
once, with the copies and the distance of the block and with all its cells, and at the end no block is running.
-/

namespace SheetTemplate

/-- Where row `row` is met next and row `stop` is the first one that is not met, the rest of a running block is met. It has rows and
copies. -/
def Block.Whole (row stop : Nat) : Block → Prop
  | .idle => True
  | .running remaining copies _ => 1 ≤ remaining ∧ row + remaining ≤ stop ∧ 1 ≤ copies

/-- With no row left to meet no block is running. -/
theorem Block.Whole.eq_idle {stop : Nat} {block : Block} (h : block.Whole stop stop) : block = .idle := by
  cases block with
  | idle => rfl
  | running remaining copies stride =>
    obtain ⟨hone, hle, -⟩ := h
    omega

namespace Layout

variable {leaves : Leaves} {areas : List Area} {grid : Grid} {row stop : Nat} {cursor next : Cursor} {strip : Strip}

/-! ## What steps keep -/

/-- One step of the walk leaves the rest of a block to be met. -/
theorem whole_step (hareas : ∀ area ∈ areas, area.bottom < stop) (hrow : row < stop)
    (h : step leaves areas row (grid.line row) cursor = .ok (strip, next)) (hwhole : cursor.block.Whole row stop) :
    next.block.Whole (row + 1) stop := by
  obtain ⟨shift, block⟩ := cursor
  cases block with
  | idle =>
    obtain ⟨origin, -, -, -, ⟨-, -, rfl⟩ | ⟨-, -, -, rfl⟩⟩ := step_idle h
    · trivial
    · split
      · rename_i hopens
        have hheight : row + ownHeight leaves areas grid row < stop := row_add_ownHeight_lt hrow hareas
        exact ⟨hopens.2, by omega, hopens.1⟩
      · trivial
  | running remaining copies stride =>
    obtain ⟨hone, hle, hcopies⟩ := hwhole
    obtain ⟨origin, -, -, -, -, -, rfl⟩ := step_running h
    split
    · exact ⟨by omega, by omega, hcopies⟩
    · trivial

/-- So does a walk over rows that follow each other. -/
theorem whole_walk (hareas : ∀ area ∈ areas, area.bottom < stop) (len : Nat) {final : Cursor} {strips : List Strip}
    (hlen : row + len ≤ stop) (h : walk leaves areas grid (List.range' row len) cursor = .ok (strips, final))
    (hwhole : cursor.block.Whole row stop) : final.block.Whole (row + len) stop := by
  induction len generalizing row cursor strips with
  | zero =>
    cases h
    exact hwhole
  | succ len ih =>
    rw [List.range'_succ] at h
    obtain ⟨strip, next, below, hstep, hwalk, -⟩ := walk_cons h
    rw [show row + (len + 1) = row + 1 + len by omega]
    exact ih (by omega) hwalk (whole_step hareas (by omega) hstep hwhole)

/-! ## Rows of a block -/

/-- Of rows that follow each other the first ones do, up to the last of them, and so do the others behind it. -/
theorem exists_rows_below {met : List Nat} {first len : Nat} (h : met ++ [row] <+: List.range' first len) :
    ∃ before, before < len ∧ met = List.range' first before ∧ row = first + before ∧
      List.range' first len = List.range' first before ++ [first + before] ++ List.range' (first + before + 1) (len - before - 1) := by
  obtain ⟨below, hbelow⟩ := h
  rw [List.append_assoc] at hbelow
  obtain ⟨before, -, rfl, hrest⟩ := List.range'_eq_append_iff.1 hbelow.symm
  cases hmore : len - before with
  | zero => rw [hmore] at hrest; cases hrest
  | succ more =>
    rw [hmore, List.range'_succ, Nat.mul_one] at hrest
    obtain ⟨rfl, -⟩ := List.cons.inj hrest
    refine ⟨before, by omega, rfl, rfl, ?_⟩
    rw [← List.range'_1_concat, Nat.add_assoc, List.range'_append_1]
    congr 1
    omega

/-- A row behind which a block is running stands with the copies and the distance of the block, and does not move the rows below it. -/
theorem fate_of_step_running {shift : Int} {remaining copies stride : Nat}
    (h : step leaves areas row (grid.line row) cursor = .ok (strip, ⟨shift, .running remaining copies stride⟩)) :
    ∃ origin : Nat, (origin : Int) = row + shift ∧ strip.row = row ∧ strip.fate = .placed origin copies stride := by
  obtain ⟨before, block⟩ := cursor
  cases block with
  | idle =>
    obtain ⟨origin, horigin, -, -, ⟨-, -, hnext⟩ | ⟨-, rfl, hneeded, hnext⟩⟩ := step_idle h
    · cases hnext
    · split at hnext
      · rename_i hopens
        cases hnext
        have hcopy := hneeded _ (row_mem_neededRows (Nat.le_refl 1) hopens.1)
        have hstride : (expansion leaves areas grid .idle row).stacking.stride = ownHeight leaves areas grid row + 1 := rfl
        rw [Stacking.row, hstride] at hcopy
        rw [Block.capped_of_le (by omega)]
        exact ⟨origin, horigin, rfl, rfl⟩
      · cases hnext
  | running remaining' copies' stride' =>
    obtain ⟨origin, horigin, -, -, rfl, -, hnext⟩ := step_running h
    split at hnext
    · cases hnext
      exact ⟨origin, horigin, rfl, rfl⟩
    · cases hnext

/-- The rows of a block from one of them on, as a walk lays them out that goes on behind it. -/
theorem fates_of_running {remaining copies stride len origin : Nat} {shift : Int} {final : Cursor} {strips : List Strip}
    (hone : 1 ≤ remaining) (hlen : remaining ≤ len) (horigin : (origin : Int) = row + shift)
    (h : walk leaves areas grid (List.range' (row + 1) len) ⟨shift, .running remaining copies stride⟩ = .ok (strips, final))
    {place : Nat} (hpos : 1 ≤ place) (hplace : place ≤ remaining) :
    ∃ strip ∈ strips, strip.row = row + place ∧ strip.fate = .placed (origin + place) copies stride := by
  obtain ⟨before, rfl⟩ := Nat.exists_eq_add_of_le' hpos
  obtain ⟨below, rfl, -, -⟩ := walk_running hone hlen
    (show ((origin + 1 : Nat) : Int) = ((row + 1 : Nat) : Int) + shift by push_cast; omega) h
  refine ⟨_, List.mem_append_left _ (List.mem_map.2 ⟨before, List.mem_range.2 (by omega), rfl⟩), ?_, ?_⟩
  · change row + 1 + before = row + (before + 1)
    omega
  · change Fate.placed (origin + 1 + before) copies stride = _
    rw [Nat.add_right_comm, Nat.add_assoc]

/-! ## The layout -/

variable {layout : Layout}

/-- Every row in use has one strip, in order. -/
theorem rows_strips (h : ofTemplate leaves areas grid = .ok layout) : layout.strips.map (·.row) = usedRows areas grid := by
  obtain ⟨first, stop, bands, bottom, -, hused, hlaid, hstrips, -⟩ := exists_laid h
  rw [hstrips, hlaid.rows_eq, hused]

/-- What becomes of a row is the fate of its strip. -/
theorem fate?_of_mem (h : ofTemplate leaves areas grid = .ok layout) (hstrip : strip ∈ layout.strips) :
    layout.fate? strip.row = some strip.fate := by
  obtain ⟨first, stop, bands, bottom, -, -, hlaid, hstrips, -⟩ := exists_laid h
  exact (hlaid.fate?_iff hstrips).2 ⟨strip, hstrip, rfl, rfl⟩

/-- A row with copies keeps all its cells. -/
theorem exists_text?_of_placed (h : ofTemplate leaves areas grid = .ok layout) {origin copies stride : Nat}
    (hfate : layout.fate? row = some (.placed origin copies stride)) (hcopies : 1 ≤ copies) {column : Column} {text : String}
    (htext : (grid.line row).get? column = some text) : ∃ kept, layout.grid.text? ⟨column, origin⟩ = some kept := by
  obtain ⟨block, hblock, hline⟩ := line_of_placed h hfate (Nat.zero_le copies)
  rw [Nat.zero_mul, Nat.add_zero] at hline
  have hkept : (keptLine grid row copies).get? column = some (Marker.ground text) := by
    have hne : decide (copies ≠ 0) = true := decide_eq_true (by omega)
    rw [get?_keptLine, groundedLine, SortedMap.get?_mapValues, htext, Option.map_some, Option.filter_some, hne, Bool.true_or, if_pos rfl]
  rw [Grid.text?, hline, copyLine, if_pos rfl, expansion_line, hblock]
  cases widening? leaves areas grid row with
  | none => exact ⟨_, hkept⟩
  | some w => exact w.exists_get?_widen hkept

/-- When the walk ends no block is running. -/
theorem walk_ends_idle (h : ofTemplate leaves areas grid = .ok layout) :
    ∃ final, walk leaves areas grid (usedRows areas grid) ⟨0, .idle⟩ = .ok (layout.strips, final) ∧ final.block = .idle := by
  obtain ⟨first, stop, hle, hused, hareas⟩ := usedRows_eq areas grid
  obtain ⟨final, hwalk, -⟩ := exists_walk h
  refine ⟨final, hwalk, ?_⟩
  rw [hused] at hwalk
  have hwhole := whole_walk hareas (stop - first) (by omega) hwalk trivial
  rw [Nat.add_sub_cancel' hle] at hwhole
  exact hwhole.eq_idle

/-- The walk stops over behind every row in use, with the rest of a running block still to be met, and goes on over the rows below. -/
theorem exists_stopover (h : ofTemplate leaves areas grid = .ok layout) {met : List Nat} (hmet : met ++ [row] <+: usedRows areas grid) :
    ∃ below strips rest cursor final, (∀ place ≤ below, row + place ∈ usedRows areas grid) ∧ layout.strips = strips ++ rest ∧
      walk leaves areas grid (met ++ [row]) ⟨0, .idle⟩ = .ok (strips, cursor) ∧
      walk leaves areas grid (List.range' (row + 1) below) cursor = .ok (rest, final) ∧
      cursor.block.Whole (row + 1) (row + 1 + below) := by
  obtain ⟨first, stop, hle, hused, hareas⟩ := usedRows_eq areas grid
  obtain ⟨final, hwalk, -⟩ := exists_walk h
  obtain ⟨before, hbefore, rfl, rfl, hrows⟩ := exists_rows_below (hused ▸ hmet)
  rw [hused, hrows] at hwalk
  obtain ⟨strips, cursor, rest, hfront, hrest, hstrips⟩ := walks_of_append hwalk
  refine ⟨_, strips, rest, cursor, final, ?_, hstrips, hfront, hrest, ?_⟩
  · intro place hplace
    rw [hused, List.mem_range'_1]
    omega
  · rw [← List.range'_1_concat] at hfront
    have hwhole := whole_walk hareas (before + 1) (by omega) hfront trivial
    rwa [show first + before + 1 + (stop - first - before - 1) = stop by omega]

/-- The row behind which a block is running and the rest of the block stay, one directly below the other. -/
theorem exists_fates_of_running {met : List Nat} {remaining copies stride below : Nat} {shift : Int} {final : Cursor}
    {strips rest : List Strip}
    (hfront : walk leaves areas grid (met ++ [row]) ⟨0, .idle⟩ = .ok (strips, ⟨shift, .running remaining copies stride⟩))
    (hrest : walk leaves areas grid (List.range' (row + 1) below) ⟨shift, .running remaining copies stride⟩ = .ok (rest, final))
    (hone : 1 ≤ remaining) (hbelow : remaining ≤ below) :
    ∃ origin, ∀ place ≤ remaining, ∃ strip ∈ strips ++ rest, strip.row = row + place ∧
      strip.fate = .placed (origin + place) copies stride := by
  -- The row itself is met last, and the others of the block behind it.
  obtain ⟨front, last, met, -, hmet, hstrips⟩ := walks_of_append hfront
  obtain ⟨strip, next, above, hstep, habove, rfl⟩ := walk_cons hmet
  cases habove
  obtain ⟨origin, horigin, hrow, hfate⟩ := fate_of_step_running hstep
  refine ⟨origin, fun place hplace => ?_⟩
  rcases Nat.eq_zero_or_pos place with rfl | hpos
  · exact ⟨strip, by simp [hstrips], hrow, hfate⟩
  · obtain ⟨strip, hmem, hplaced⟩ := fates_of_running hone hbelow horigin hrest hpos hplace
    exact ⟨strip, List.mem_append_right _ hmem, hplaced⟩

/-- Blocks are never cut short. A walk over a template that goes well meets every row in use once, in order, and when it ends no block is
running. Behind a row after which a block is running with rows still to come, these rows are in use; the row and each of them stays, one
directly below the other, with the number of copies and the distance of the block, and every cell of it holds a text. -/
theorem blocks_are_never_cut (h : ofTemplate leaves areas grid = .ok layout) :
    layout.strips.map (·.row) = usedRows areas grid ∧ (usedRows areas grid).Nodup ∧
    (∃ final, walk leaves areas grid (usedRows areas grid) ⟨0, .idle⟩ = .ok (layout.strips, final) ∧
      final.block = .idle ∧ final.block.finish = 0) ∧
    ∀ met row, met ++ [row] <+: usedRows areas grid → ∃ strips cursor,
      walk leaves areas grid (met ++ [row]) ⟨0, .idle⟩ = .ok (strips, cursor) ∧ strips <+: layout.strips ∧
      ∀ remaining copies stride, cursor.block = .running remaining copies stride →
        1 ≤ remaining ∧ 1 ≤ copies ∧ row + remaining ∈ usedRows areas grid ∧
        ∃ origin, ∀ place ≤ remaining, layout.fate? (row + place) = some (.placed (origin + place) copies stride) ∧
          ∀ column text, (grid.line (row + place)).get? column = some text →
            ∃ kept, layout.grid.text? ⟨column, origin + place⟩ = some kept := by
  refine ⟨rows_strips h, ?_, ?_, ?_⟩
  · obtain ⟨first, stop, -, hused, -⟩ := usedRows_eq areas grid
    rw [hused]
    exact List.nodup_range'
  · obtain ⟨final, hwalk, hidle⟩ := walk_ends_idle h
    exact ⟨final, hwalk, hidle, by rw [hidle]; rfl⟩
  · intro met row hmet
    obtain ⟨below, strips, rest, cursor, final, hused, hstrips, hfront, hrest, hwhole⟩ := exists_stopover h hmet
    refine ⟨strips, cursor, hfront, ⟨rest, hstrips.symm⟩, ?_⟩
    rintro remaining copies stride hrunning
    obtain ⟨shift, block⟩ := cursor
    obtain rfl : block = .running remaining copies stride := hrunning
    obtain ⟨hone, hle, hcopies⟩ := hwhole
    obtain ⟨origin, hfates⟩ := exists_fates_of_running hfront hrest hone (by omega)
    refine ⟨hone, hcopies, hused remaining (by omega), origin, fun place hplace => ?_⟩
    obtain ⟨strip, hmem, hrow, hfate⟩ := hfates place hplace
    have hplaced := fate?_of_mem h (hstrips ▸ hmem)
    rw [hrow, hfate] at hplaced
    exact ⟨hplaced, fun column text htext => exists_text?_of_placed h hplaced hcopies htext⟩

namespace Sample

/-- A block of three rows. Its second row has a condition that is not met and begins a merge that reaches below the block, and its third
row holds no marker. -/
def nestedTexts : Grid :=
  SortedMap.ofList [
    (1, SortedMap.ofList [(columnA, "[boxes.*.id]")]),
    (2, SortedMap.ofList [(columnB, "[=vip][boxes.*.id]")]),
    (3, SortedMap.ofList [(columnC, "Label")]),
    (4, SortedMap.ofList [(columnC, "[total]")])]

/-- The merges of the block and inside of it. -/
def nestedMerges : List Area := [Area.between ⟨columnA, 1⟩ ⟨columnA, 3⟩, Area.between ⟨columnB, 2⟩ ⟨columnB, 4⟩]

end Sample

/-- Neither the condition nor the merge inside the block ends it, and the row without a marker stays. -/
theorem nested_block_is_whole : ∃ layout strips cursor,
    ofTemplate Sample.data Sample.nestedMerges Sample.nestedTexts = .ok layout ∧
    [] ++ [1] <+: usedRows Sample.nestedMerges Sample.nestedTexts ∧
    walk Sample.data Sample.nestedMerges Sample.nestedTexts ([] ++ [1]) ⟨0, .idle⟩ = .ok (strips, cursor) ∧
    cursor.block = .running 2 1 3 ∧ 1 + 2 ∈ usedRows Sample.nestedMerges Sample.nestedTexts ∧
    refuses Sample.data Sample.nestedTexts (1 + 1) = true ∧
    ∃ origin, layout.fate? (1 + 1) = some (.placed (origin + 1) 1 3) ∧ layout.fate? (1 + 2) = some (.placed (origin + 2) 1 3) ∧
      ∃ kept, layout.grid.text? ⟨Sample.columnC, origin + 2⟩ = some kept := by
  obtain ⟨layout, hlayout, -⟩ := exists_ok_of_any (show
    (ofTemplate Sample.data Sample.nestedMerges Sample.nestedTexts).toOption.any (fun _ => true) = true by decide +kernel)
  obtain ⟨-, -, -, hblocks⟩ := blocks_are_never_cut hlayout
  have hmet : [] ++ [1] <+: usedRows Sample.nestedMerges Sample.nestedTexts := by decide +kernel
  obtain ⟨strips, cursor, hwalk, -, hrunning⟩ := hblocks [] 1 hmet
  obtain ⟨met, hmetWalk, hblock⟩ := exists_ok_of_any (show
    (walk Sample.data Sample.nestedMerges Sample.nestedTexts ([] ++ [1]) ⟨0, .idle⟩).toOption.any
      (fun met : List Strip × Cursor => decide (met.2.block = .running 2 1 3)) = true by decide +kernel)
  obtain rfl : (strips, cursor) = met := Except.ok.inj (hwalk.symm.trans hmetWalk)
  have hcursor : cursor.block = .running 2 1 3 := of_decide_eq_true hblock
  obtain ⟨-, -, hused, origin, hrows⟩ := hrunning 2 1 3 hcursor
  obtain ⟨hlast, htexts⟩ := hrows 2 (by decide)
  exact ⟨layout, strips, cursor, hlayout, hmet, hwalk, hcursor, hused, by decide +kernel, origin, (hrows 1 (by decide)).1, hlast,
    htexts Sample.columnC "Label" (by decide +kernel)⟩

end Layout
end SheetTemplate

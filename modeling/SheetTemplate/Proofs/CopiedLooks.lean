import Mathlib.Data.List.Induction
import SheetTemplate.Proofs.GuardedTexts
import SheetTemplate.Proofs.OutputTexts

/-!
# How the output looks

A plan copies styles and number formats from cell to cell, one after the other. `Copy.performAll` is what cells look like when all of
that is done. Copies across come before copies down and read no cell that one of them writes, and copies down read only the row that the
copies across have filled, so every cell of the output comes to look like the cell of the template that it is made from
(`cells_look_like_template`).
-/

namespace SheetTemplate

/-! ## Copies one after the other -/

namespace Copy

variable {κ α : Type} [DecidableEq κ]

/-- What places look like after a copy. -/
def perform (look : κ → α) (c : Copy κ) : κ → α := fun place => if place = c.target then look c.source else look place

/-- What places look like after copies, one after the other. -/
def performAll (look : κ → α) (copies : List (Copy κ)) : κ → α := copies.foldl perform look

variable {look look' : κ → α} {copies : List (Copy κ)} {place source : κ}

theorem performAll_append (copies further : List (Copy κ)) :
    performAll look (copies ++ further) = performAll (performAll look copies) further :=
  List.foldl_append

/-- A place that is no target looks as before. -/
theorem performAll_of_not_target (h : ∀ c ∈ copies, c.target ≠ place) : performAll look copies place = look place := by
  induction copies generalizing look with
  | nil => rfl
  | cons c rest ih =>
    have hrest : performAll (perform look c) rest place = perform look c place := ih fun c' hmem => h c' (List.mem_cons_of_mem c hmem)
    exact hrest.trans (if_neg fun heq => h c List.mem_cons_self heq.symm)

/-- The last copy to a place counts. -/
theorem performAll_concat (c : Copy κ) : performAll look (copies ++ [c]) c.target = performAll look copies c.source := by
  rw [performAll_append]
  exact if_pos rfl

/-- A place that is copied to from one place only, to which nothing is copied, looks like that one before. -/
theorem performAll_of_target (hmem : ∃ c ∈ copies, c.target = place) (hsource : ∀ c ∈ copies, c.target = place → c.source = source)
    (hnot : ∀ c ∈ copies, c.target ≠ source) : performAll look copies place = look source := by
  induction copies using List.reverseRecOn with
  | nil =>
    obtain ⟨c, hc, -⟩ := hmem
    cases hc
  | append_singleton copies c ih =>
    by_cases hc : c.target = place
    · subst hc
      rw [performAll_concat, hsource c (by simp) rfl]
      exact performAll_of_not_target fun c' hmem => hnot c' (List.mem_append_left _ hmem)
    · rw [performAll_append]
      refine (if_neg fun heq => hc heq.symm).trans (ih ?_ ?_ ?_)
      · obtain ⟨c', hc', heq⟩ := hmem
        rcases List.mem_append.1 hc' with hc' | hc'
        · exact ⟨c', hc', heq⟩
        · rw [List.mem_singleton.1 hc'] at heq
          exact absurd heq hc
      · exact fun c' hc' => hsource c' (List.mem_append_left _ hc')
      · exact fun c' hc' => hnot c' (List.mem_append_left _ hc')

/-- Places that copies read and write among each other look the same afterwards if they did before. -/
theorem performAll_congr {among : κ → Prop} (h : ∀ place, among place → look place = look' place)
    (hsource : ∀ c ∈ copies, among c.source) (hplace : among place) : performAll look copies place = performAll look' copies place := by
  induction copies generalizing look look' with
  | nil => exact h place hplace
  | cons c rest ih =>
    refine ih (fun place' hplace' => ?_) fun c' hmem => hsource c' (List.mem_cons_of_mem c hmem)
    rw [perform, perform, h place' hplace', h c.source (hsource c List.mem_cons_self)]

/-- A copy of columns within a row. -/
def inRow (row : Nat) (c : Copy Column) : Copy Address := ⟨⟨c.source, row⟩, ⟨c.target, row⟩⟩

/-- Copies within a row go by columns. -/
theorem performAll_inRow (look : Address → α) (copies : List (Copy Column)) (row : Nat) (column : Column) :
    performAll look (copies.map (inRow row)) ⟨column, row⟩ = performAll (fun column => look ⟨column, row⟩) copies column := by
  induction copies generalizing look with
  | nil => rfl
  | cons c rest ih =>
    refine (ih (perform look (inRow row c))).trans ?_
    change performAll _ rest column = performAll (perform _ c) rest column
    congr 1
    funext column'
    simp only [perform, inRow, Address.mk.injEq, and_true]

end Copy

/-! ## Copies across -/

namespace Widening

variable {w : Widening} {column : Column} {α : Type}

/-- Where the merge of the last copy passes the last column. -/
def Overflows (w : Widening) : Prop := lastColumn < w.anchor.index + w.copies * (w.extra + 1) + w.extra

instance (w : Widening) : Decidable w.Overflows := inferInstanceAs (Decidable (_ < _))

/-- The column that the style in a column of the widened row comes from: in the columns that copies and their merges cover the one at
the same place in the merge of the cell. Of what passes the last column the end comes to stand in it. -/
def styleSource (w : Widening) (column : Column) : Column :=
  if column.index = lastColumn ∧ w.Overflows then
    w.anchor.offset w.extra
  else if w.anchor.index ≤ column.index ∧ column.index < w.anchor.index + (w.copies + 1) * (w.extra + 1) then
    w.anchor.offset ((column.index - w.anchor.index) % (w.extra + 1))
  else
    column

theorem mem_columnCopies {c : Copy Column} :
    c ∈ w.columnCopies ↔ ∃ copy, 1 ≤ copy ∧ copy ≤ w.copies ∧ ∃ offset ≤ w.extra, c = ⟨w.column 0 offset, w.column copy offset⟩ := by
  simp only [columnCopies, List.mem_flatMap, mem_numbers, List.mem_map, List.mem_range, Nat.lt_succ_iff]
  constructor
  · rintro ⟨copy, ⟨hone, hcopy⟩, offset, hoffset, rfl⟩
    exact ⟨copy, hone, hcopy, offset, hoffset, rfl⟩
  · rintro ⟨copy, hone, hcopy, offset, hoffset, rfl⟩
    exact ⟨copy, ⟨hone, hcopy⟩, offset, hoffset, rfl⟩

/-- The number of a column inside a copy. -/
theorem index_column (copy offset : Nat) :
    (w.column copy offset).index = min (w.anchor.index + copy * (w.extra + 1) + offset) lastColumn := by
  rw [column, Column.offset, Nat.add_assoc]

/-- The columns of the cell and its merge lie before those of copies that fit. -/
theorem index_column_lt (hfits : w.Fits) {copy offset offset' : Nat} (hone : 1 ≤ copy) (hcopy : copy ≤ w.copies)
    (hoffset : offset ≤ w.extra) : (w.column 0 offset).index < (w.column copy offset').index := by
  have hfits' : w.anchor.index + w.copies * (w.extra + 1) ≤ lastColumn := hfits
  have hfirst : 1 * (w.extra + 1) ≤ copy * (w.extra + 1) := Nat.mul_le_mul_right _ hone
  have hlast : copy * (w.extra + 1) ≤ w.copies * (w.extra + 1) := Nat.mul_le_mul_right _ hcopy
  rw [index_column, index_column]
  omega

/-- No column that is copied to is copied from. -/
theorem target_ne_source (hfits : w.Fits) {c c' : Copy Column} (hc : c ∈ w.columnCopies) (hc' : c' ∈ w.columnCopies) :
    c.target ≠ c'.source := by
  obtain ⟨copy, hone, hcopy, offset, -, rfl⟩ := mem_columnCopies.1 hc
  obtain ⟨_, -, -, offset', hoffset', rfl⟩ := mem_columnCopies.1 hc'
  intro heq
  have hlt : (w.column 0 offset').index < (w.column copy offset).index := index_column_lt hfits hone hcopy hoffset'
  rw [show w.column copy offset = w.column 0 offset' from heq] at hlt
  exact Nat.lt_irrefl _ hlt

/-- The last copy is that of the end of the merge. -/
theorem columnCopies_concat (hone : 1 ≤ w.copies) :
    ∃ front, w.columnCopies = front ++ [⟨w.column 0 w.extra, w.column w.copies w.extra⟩] := by
  obtain ⟨n, hn⟩ : ∃ n, w.copies = n + 1 := ⟨w.copies - 1, by omega⟩
  have hnumbers : w.numbers = List.range' 1 n ++ [w.copies] := by
    rw [numbers, hn, List.range'_concat, Nat.one_mul, Nat.add_comm 1 n]
  rw [columnCopies, hnumbers, List.flatMap_append, List.flatMap_singleton, List.range_succ, List.map_append, ← List.append_assoc]
  exact ⟨_, rfl⟩

/-- Unless it is the last column, where what passes it comes to stand, a column is reached by the one copy and offset that lead there. -/
theorem index_of_column_eq (hend : ¬(column.index = lastColumn ∧ w.Overflows)) {copy offset : Nat} (hcopy : copy ≤ w.copies)
    (hoffset : offset ≤ w.extra) (h : w.column copy offset = column) :
    column.index = w.anchor.index + offset + copy * (w.extra + 1) := by
  have hmul : copy * (w.extra + 1) ≤ w.copies * (w.extra + 1) := Nat.mul_le_mul_right _ hcopy
  have hindex := congrArg Column.index h
  rw [index_column] at hindex
  rw [Overflows] at hend
  omega

/-- A column that no copy covers keeps its style. -/
theorem performAll_columnCopies_of_not (hend : ¬(column.index = lastColumn ∧ w.Overflows)) (look : Column → α)
    (hnone : ∀ copy, 1 ≤ copy → copy ≤ w.copies → ∀ offset ≤ w.extra,
      column.index ≠ w.anchor.index + offset + copy * (w.extra + 1)) :
    Copy.performAll look w.columnCopies column = look column := by
  refine Copy.performAll_of_not_target fun c hc htarget => ?_
  obtain ⟨copy, hone, hcopy, offset, hoffset, rfl⟩ := mem_columnCopies.1 hc
  exact hnone copy hone hcopy offset hoffset (index_of_column_eq hend hcopy hoffset htarget)

/-- A column that a copy covers gets the style of the column at the same place in the merge of the cell. -/
theorem performAll_columnCopies_of_copy (hfits : w.Fits) (hend : ¬(column.index = lastColumn ∧ w.Overflows)) (look : Column → α)
    {copy offset : Nat} (hone : 1 ≤ copy) (hcopy : copy ≤ w.copies) (hoffset : offset ≤ w.extra)
    (hindex : column.index = w.anchor.index + offset + copy * (w.extra + 1)) :
    Copy.performAll look w.columnCopies column = look (w.anchor.offset offset) := by
  have hmem : (⟨w.column 0 offset, w.column copy offset⟩ : Copy Column) ∈ w.columnCopies :=
    mem_columnCopies.2 ⟨copy, hone, hcopy, offset, hoffset, rfl⟩
  have hcolumn : w.column copy offset = column := by
    have hlast := column.le_last
    rw [Widening.column, eq_comm, Column.eq_offset_iff (by omega)]
    omega
  have hsource : w.column 0 offset = w.anchor.offset offset := by rw [Widening.column, Nat.zero_mul, Nat.zero_add]
  rw [← hsource]
  refine Copy.performAll_of_target ⟨_, hmem, hcolumn⟩ ?_ fun c hc => target_ne_source hfits hc hmem
  intro c hc htarget
  obtain ⟨copy', -, hcopy', offset', hoffset', rfl⟩ := mem_columnCopies.1 hc
  have hindex' := index_of_column_eq hend hcopy' hoffset' htarget
  rw [(Layout.copy_inj hoffset' hoffset (hindex'.symm.trans hindex)).1]

/-- Of a merge that passes the last column the end comes to stand there. -/
theorem performAll_columnCopies_of_end (hfits : w.Fits) (hone : 1 ≤ w.copies) (look : Column → α)
    (hlast : column.index = lastColumn) (hover : w.Overflows) :
    Copy.performAll look w.columnCopies column = look (w.anchor.offset w.extra) := by
  rw [Overflows] at hover
  obtain ⟨front, hfront⟩ := columnCopies_concat hone
  have htarget : w.column w.copies w.extra = column := Column.eq_of_index_eq (by rw [index_column]; omega)
  have hmem : (⟨w.column 0 w.extra, w.column w.copies w.extra⟩ : Copy Column) ∈ w.columnCopies := by
    rw [hfront]
    exact List.mem_append_right _ (List.mem_singleton_self _)
  have hnot : ∀ c ∈ front, c.target ≠ w.column 0 w.extra := by
    intro c hc
    refine target_ne_source hfits ?_ hmem
    rw [hfront]
    exact List.mem_append_left _ hc
  rw [hfront, ← htarget, Copy.performAll_concat, Copy.performAll_of_not_target hnot, Widening.column, Nat.zero_mul, Nat.zero_add]

/-- Copies that fit give every column the style that `styleSource` names. -/
theorem performAll_columnCopies (hfits : w.Fits) (hone : 1 ≤ w.copies) (look : Column → α) (column : Column) :
    Copy.performAll look w.columnCopies column = look (w.styleSource column) := by
  rw [styleSource]
  split
  · rename_i hend
    exact performAll_columnCopies_of_end hfits hone look hend.1 hend.2
  · rename_i hend
    split
    · rename_i hin
      obtain ⟨offset, hoffset, copy, hcopy, hindex⟩ := Layout.exists_copy hin.1 hin.2
      have hmod : (column.index - w.anchor.index) % (w.extra + 1) = offset := by
        rw [show column.index - w.anchor.index = offset + copy * (w.extra + 1) by omega, Nat.add_mul_mod_self_right,
          Nat.mod_eq_of_lt (Nat.lt_succ_of_le hoffset)]
      rw [hmod]
      rcases Nat.eq_zero_or_pos copy with rfl | hone'
      · -- The cell itself and its merge stay as they are.
        have hlast := column.le_last
        have hcolumn : column = w.anchor.offset offset := (Column.eq_offset_iff (by omega)).2 (by omega)
        rw [← hcolumn]
        refine performAll_columnCopies_of_not hend look fun copy' hcopy' _ offset' _ hindex' => ?_
        have hmul : 1 * (w.extra + 1) ≤ copy' * (w.extra + 1) := Nat.mul_le_mul_right _ hcopy'
        omega
      · exact performAll_columnCopies_of_copy hfits hend look hone' hcopy hoffset hindex
    · rename_i hout
      refine performAll_columnCopies_of_not hend look fun copy _ hcopy offset hoffset hindex => hout ⟨by omega, ?_⟩
      have hmul : copy * (w.extra + 1) ≤ w.copies * (w.extra + 1) := Nat.mul_le_mul_right _ hcopy
      rw [Nat.succ_mul]
      omega

/-- The format copies by column. -/
def formatCopies (w : Widening) : List (Copy Column) := w.numbers.map fun copy => ⟨w.anchor, w.column copy 0⟩

/-- Copies that fit give every column the format of the column that its text comes from. -/
theorem performAll_formatCopies (hfits : w.Fits) (look : Column → α) (column : Column) :
    Copy.performAll look w.formatCopies column = look (w.source column) := by
  have hmem : ∀ c, c ∈ w.formatCopies ↔ ∃ copy ∈ w.numbers, c = ⟨w.anchor, w.column copy 0⟩ := by
    intro c
    simp only [formatCopies, List.mem_map, eq_comm]
  rw [source]
  split
  · rename_i hany
    obtain ⟨copy, hcopy, htarget⟩ := List.any_eq_true.1 hany
    refine Copy.performAll_of_target ⟨_, (hmem _).2 ⟨copy, hcopy, rfl⟩, of_decide_eq_true htarget⟩ ?_ ?_
    · rintro c hc -
      obtain ⟨_, -, rfl⟩ := (hmem c).1 hc
      rfl
    · intro c hc heq
      obtain ⟨copy, hcopy, rfl⟩ := (hmem c).1 hc
      obtain ⟨hone, hle⟩ := mem_numbers.1 hcopy
      have hindex := (column_eq_iff hfits hle).1 heq
      have hmul : 1 * (w.extra + 1) ≤ copy * (w.extra + 1) := Nat.mul_le_mul_right _ hone
      omega
  · rename_i hnone
    refine Copy.performAll_of_not_target fun c hc heq => ?_
    obtain ⟨copy, hcopy, rfl⟩ := (hmem c).1 hc
    exact hnone (List.any_eq_true.2 ⟨copy, hcopy, decide_eq_true heq⟩)

/-- A copy beside the cell gets a style and a format. -/
theorem copied_of_copyAt? (hfits : w.Fits) {copy : Nat} (h : w.copyAt? column = some copy) :
    (∃ c ∈ w.columnCopies, c.target = column) ∧ ∃ c ∈ w.formatCopies, c.target = column := by
  obtain ⟨hmem, hindex⟩ := copyAt?_eq_some_iff.1 h
  obtain ⟨hone, hcopy⟩ := mem_numbers.1 hmem
  have hcolumn : w.column copy 0 = column := (column_eq_iff hfits hcopy).2 hindex
  refine ⟨⟨_, mem_columnCopies.2 ⟨copy, hone, hcopy, 0, Nat.zero_le _, rfl⟩, hcolumn⟩, ?_⟩
  exact ⟨⟨w.anchor, w.column copy 0⟩, List.mem_map.2 ⟨copy, hmem, rfl⟩, hcolumn⟩

end Widening

/-! ## Copies down -/

namespace Stacking

variable {α : Type} {s : Stacking} {origin copy : Nat} {copies : List (Copy Address)} {column : Column}

/-- A copy from the row itself to the row of one of its copies, in one column. -/
def Descends (s : Stacking) (origin : Nat) (c : Copy Address) : Prop :=
  ∃ column, ∃ copy ∈ s.numbers, c = ⟨⟨column, origin⟩, ⟨column, s.row origin copy⟩⟩

/-- Copies stand below the row itself. -/
theorem lt_row (hstride : 1 ≤ s.stride) (hone : 1 ≤ copy) : origin < s.row origin copy := by
  have hmul : 1 * 1 ≤ copy * s.stride := Nat.mul_le_mul hone hstride
  rw [row]
  omega

theorem descends_of_mem_styles {c : Copy Address} (h : c ∈ s.styles origin) : s.Descends origin c := by
  obtain ⟨copy, hcopy, hmem⟩ := List.mem_flatMap.1 h
  rcases List.mem_append.1 hmem with hcell | hspanned
  · obtain ⟨column, -, rfl⟩ := List.mem_map.1 hcell
    exact ⟨column, copy, hcopy, rfl⟩
  · obtain ⟨area, -, hoffset⟩ := List.mem_flatMap.1 hspanned
    obtain ⟨offset, -, rfl⟩ := List.mem_map.1 hoffset
    exact ⟨area.left.offset offset, copy, hcopy, rfl⟩

theorem descends_of_mem_formats {c : Copy Address} (h : c ∈ s.formats origin) : s.Descends origin c := by
  obtain ⟨copy, hcopy, hmem⟩ := List.mem_flatMap.1 h
  obtain ⟨column, -, rfl⟩ := List.mem_map.1 hmem
  exact ⟨column, copy, hcopy, rfl⟩

/-- The cells of a copy get a style and a format. -/
theorem mem_styles_and_formats (hcopy : copy ∈ s.numbers) (hcolumn : column ∈ s.line.keys) :
    (⟨⟨column, origin⟩, ⟨column, s.row origin copy⟩⟩ : Copy Address) ∈ s.styles origin ∧
      (⟨⟨column, origin⟩, ⟨column, s.row origin copy⟩⟩ : Copy Address) ∈ s.formats origin := by
  have hmem : (⟨⟨column, origin⟩, ⟨column, s.row origin copy⟩⟩ : Copy Address) ∈
      s.line.keys.map fun column => ⟨⟨column, origin⟩, ⟨column, s.row origin copy⟩⟩ :=
    List.mem_map.2 ⟨column, hcolumn, rfl⟩
  exact ⟨List.mem_flatMap.2 ⟨copy, hcopy, List.mem_append_left _ hmem⟩, List.mem_flatMap.2 ⟨copy, hcopy, hmem⟩⟩

/-- Copies down leave the row itself as it is, and the cells of a copy that they reach look like it. -/
theorem performAll_of_descends (hstride : 1 ≤ s.stride) (hdown : ∀ c ∈ copies, s.Descends origin c)
    (hreached : 1 ≤ copy → ∃ c ∈ copies, c.target = ⟨column, s.row origin copy⟩) (look : Address → α) :
    Copy.performAll look copies ⟨column, s.row origin copy⟩ = look ⟨column, origin⟩ := by
  have hkept : ∀ c ∈ copies, c.target ≠ ⟨column, origin⟩ := by
    intro c hc heq
    obtain ⟨column', copy', hcopy', rfl⟩ := hdown c hc
    have hlt : origin < s.row origin copy' := lt_row hstride (mem_numbers.1 hcopy').1
    exact Nat.ne_of_gt hlt (congrArg Address.row heq)
  rcases Nat.eq_zero_or_pos copy with rfl | hone
  · rw [row, Nat.zero_mul, Nat.add_zero]
    exact Copy.performAll_of_not_target hkept
  · refine Copy.performAll_of_target (hreached hone) ?_ hkept
    intro c hc htarget
    obtain ⟨column', copy', -, rfl⟩ := hdown c hc
    rw [show column' = column from congrArg Address.column htarget]

end Stacking

/-! ## The copies of a row -/

namespace Expansion

variable {α : Type} {e : Expansion} {block : Block} {origin copy : Nat} {across : Widening → List (Copy Column)}
  {copies : List (Copy Address)} {column : Column}

/-- Copies across within the row that stands at `origin`, and behind them copies down to its copies. -/
def Spreads (e : Expansion) (origin : Nat) (across : Widening → List (Copy Column)) (copies : List (Copy Address)) : Prop :=
  ∃ down, copies = (e.widening.elim [] fun w => (across w).map (Copy.inRow origin)) ++ down ∧
    ∀ c ∈ down, e.stacking.Descends origin c

theorem styles_spread (e : Expansion) (block : Block) (origin : Nat) :
    e.Spreads origin Widening.columnCopies (e.strip block origin).styles :=
  ⟨e.stacking.styles origin, rfl, fun _ => Stacking.descends_of_mem_styles⟩

theorem formats_spread (e : Expansion) (block : Block) (origin : Nat) :
    e.Spreads origin Widening.formatCopies (e.strip block origin).formats := by
  refine ⟨e.stacking.formats origin, ?_, fun _ => Stacking.descends_of_mem_formats⟩
  simp only [strip, Widening.formats, Widening.formatCopies, List.map_map]
  rfl

/-- Copies across stay in the row itself. -/
theorem rows_of_mem_across {widening : Option Widening} {c : Copy Address}
    (h : c ∈ widening.elim [] fun w => (across w).map (Copy.inRow origin)) : c.source.row = origin ∧ c.target.row = origin := by
  cases widening with
  | none => cases h
  | some w =>
    obtain ⟨c', -, rfl⟩ := List.mem_map.1 h
    exact ⟨rfl, rfl⟩

/-- The copies of a row read and write only where it stands. -/
theorem Spreads.rows (h : e.Spreads origin across copies) {c : Copy Address} (hc : c ∈ copies) :
    c.source.row = origin ∧ ∃ copy ≤ e.stacking.copies, c.target.row = e.stacking.row origin copy := by
  obtain ⟨down, rfl, hdown⟩ := h
  rcases List.mem_append.1 hc with hmem | hmem
  · obtain ⟨hsource, htarget⟩ := rows_of_mem_across hmem
    refine ⟨hsource, 0, Nat.zero_le _, ?_⟩
    rw [htarget, Stacking.row, Nat.zero_mul, Nat.add_zero]
  · obtain ⟨column, copy, hcopy, rfl⟩ := hdown c hmem
    exact ⟨rfl, copy, (Stacking.mem_numbers.1 hcopy).2, rfl⟩

/-- The copies across are among the copies of the row. -/
theorem Spreads.mem_of_across (h : e.Spreads origin across copies) {w : Widening} (hw : e.widening = some w) {c : Copy Column}
    (hc : c ∈ across w) : c.inRow origin ∈ copies := by
  obtain ⟨down, rfl, -⟩ := h
  rw [hw]
  exact List.mem_append_left _ (List.mem_map.2 ⟨c, hc, rfl⟩)

/-- A cell in a row that stays, or one in a copy of it that is copied to, looks like the cell of the row that copies across name. -/
theorem Spreads.performAll_eq (h : e.Spreads origin across copies) (hstride : 1 ≤ e.stacking.stride)
    {source : Widening → Column → Column}
    (hacross : ∀ w, e.widening = some w → ∀ look : Column → α, Copy.performAll look (across w) column = look (source w column))
    (hreached : 1 ≤ copy → ∃ c ∈ copies, c.target = ⟨column, e.stacking.row origin copy⟩) (look : Address → α) :
    Copy.performAll look copies ⟨column, e.stacking.row origin copy⟩ =
      look ⟨e.widening.elim column (source · column), origin⟩ := by
  obtain ⟨down, rfl, hdown⟩ := h
  have hreached' : 1 ≤ copy → ∃ c ∈ down, c.target = ⟨column, e.stacking.row origin copy⟩ := by
    intro hone
    obtain ⟨c, hc, htarget⟩ := hreached hone
    rcases List.mem_append.1 hc with hmem | hmem
    · have hrow := (rows_of_mem_across hmem).2
      rw [htarget] at hrow
      exact absurd hrow (Nat.ne_of_gt (Stacking.lt_row hstride hone))
    · exact ⟨c, hmem, htarget⟩
  rw [Copy.performAll_append, Stacking.performAll_of_descends hstride hdown hreached']
  cases hw : e.widening with
  | none => rfl
  | some w => exact (Copy.performAll_inRow look (across w) origin column).trans (hacross w hw _)

end Expansion

/-! ## The copies of a layout -/

namespace Layout

variable {leaves : Leaves} {areas : List Area} {grid : Grid} {layout : Layout} {row origin copies stride copy : Nat} {column : Column}
  {α : Type}

/-- The strips of a layout are those of different rows. -/
theorem strips_pairwise (h : ofTemplate leaves areas grid = .ok layout) : layout.strips.Pairwise fun a b => a.row ≠ b.row := by
  obtain ⟨stop, bands, bottom, hlaid, hstrips⟩ := exists_laid_firstRow h
  have hnodup : (layout.strips.map (·.row)).Nodup := hstrips ▸ hlaid.rows_nodup
  exact List.pairwise_map.1 hnodup

/-- Where every strip copies only between rows where its row stands, a cell looks as the copies of the row that stands there make it. -/
theorem performAll_strips (h : ofTemplate leaves areas grid = .ok layout) {copiesOf : Strip → List (Copy Address)}
    (hrows : ∀ strip ∈ layout.strips, ∀ c ∈ copiesOf strip, (∃ copy, layout.Stands strip.row copy c.source.row) ∧
      ∃ copy, layout.Stands strip.row copy c.target.row) {strip : Strip} (hstrip : strip ∈ layout.strips) {cell : Address}
    (hcell : ∃ copy, layout.Stands strip.row copy cell.row) (look : Address → α) :
    Copy.performAll look (layout.strips.flatMap copiesOf) cell = Copy.performAll look (copiesOf strip) cell := by
  have hpairwise := strips_pairwise h
  obtain ⟨above, below, hsplit⟩ := List.append_of_mem hstrip
  rw [hsplit, List.pairwise_append, List.pairwise_cons] at hpairwise
  obtain ⟨-, ⟨hbelow, -⟩, habove⟩ := hpairwise
  -- The copies of other strips leave all rows alone in which the row stands.
  have hother : ∀ others : List Strip, (∀ other ∈ others, other ∈ layout.strips ∧ other.row ≠ strip.row) →
      ∀ place : Address, (∃ copy, layout.Stands strip.row copy place.row) → ∀ look : Address → α,
        Copy.performAll look (others.flatMap copiesOf) place = look place := by
    intro others hothers place ⟨copy, hstands⟩ look
    refine Copy.performAll_of_not_target fun c hc htarget => ?_
    obtain ⟨other, hmem, hc⟩ := List.mem_flatMap.1 hc
    obtain ⟨hin, hne⟩ := hothers other hmem
    obtain ⟨-, copy', hstands'⟩ := hrows other hin c hc
    rw [htarget] at hstands'
    exact hne (stands_inj h hstands' hstands).1
  have hbelow' : ∀ other ∈ below, other ∈ layout.strips ∧ other.row ≠ strip.row :=
    fun other hmem => ⟨by rw [hsplit]; simp [hmem], (hbelow other hmem).symm⟩
  have habove' : ∀ other ∈ above, other ∈ layout.strips ∧ other.row ≠ strip.row :=
    fun other hmem => ⟨by rw [hsplit]; simp [hmem], habove other hmem strip List.mem_cons_self⟩
  have hbefore : ∀ place : Address, (∃ copy, layout.Stands strip.row copy place.row) →
      Copy.performAll look (above.flatMap copiesOf) place = look place :=
    fun place hplace => hother above habove' place hplace look
  rw [hsplit, List.flatMap_append, List.flatMap_cons, Copy.performAll_append, Copy.performAll_append, hother below hbelow' cell hcell]
  exact Copy.performAll_congr hbefore (fun c hc => (hrows strip hstrip c hc).1) hcell

/-- The cells of a copy of a row get a style and a format from the row. -/
theorem copied_of_text? (h : ofTemplate leaves areas grid = .ok layout)
    (hfate : layout.fate? row = some (.placed origin copies stride))
    (hfits : ∀ w, widening? leaves areas grid row = some w → w.Fits) (hcopy : copy ≤ copies) (hone : 1 ≤ copy) {text : String}
    (htext : layout.grid.text? ⟨column, origin + copy * stride⟩ = some text) {block : Block}
    (hcopies : (expansion leaves areas grid block row).stacking.copies = copies) :
    (∃ c ∈ ((expansion leaves areas grid block row).strip block origin).styles,
      c.target = ⟨column, (expansion leaves areas grid block row).stacking.row origin copy⟩) ∧
    ∃ c ∈ ((expansion leaves areas grid block row).strip block origin).formats,
      c.target = ⟨column, (expansion leaves areas grid block row).stacking.row origin copy⟩ := by
  rw [text?_of_placed h hfate hfits hcopy, ← hcopies, ← get?_copyLine block copy hfits, copyLine, if_neg (Nat.ne_of_gt hone),
    SortedMap.get?_mapValues, Option.map_eq_some_iff] at htext
  obtain ⟨text', hget, -⟩ := htext
  have hkey : column ∈ (expansion leaves areas grid block row).stacking.line.keys := (SortedMap.mem_keys_iff _ _).2 ⟨text', hget⟩
  have hnumber : copy ∈ (expansion leaves areas grid block row).stacking.numbers := Stacking.mem_numbers.2 ⟨hone, by omega⟩
  exact ⟨⟨_, List.mem_append_right _ (Stacking.mem_styles_and_formats hnumber hkey).1, rfl⟩,
    _, List.mem_append_right _ (Stacking.mem_styles_and_formats hnumber hkey).2, rfl⟩

/-- Where the copies of every row go across first and then down, a cell in the rows of a row that stays looks like the cell of the row
that copies across name. -/
theorem performAll_of_placed (h : ofTemplate leaves areas grid = .ok layout)
    (hfate : layout.fate? row = some (.placed origin copies stride)) (hcopy : copy ≤ copies)
    {copiesOf : Strip → List (Copy Address)} {across : Widening → List (Copy Column)} {source : Widening → Column → Column}
    (hspread : ∀ (e : Expansion) block origin, e.Spreads origin across (copiesOf (e.strip block origin)))
    (hdeleted : ∀ row origin, copiesOf (Strip.deleted row origin) = [])
    (hacross : ∀ w, widening? leaves areas grid row = some w → ∀ look : Column → α,
      Copy.performAll look (across w) column = look (source w column))
    (hreached : 1 ≤ copy → ∀ block, (expansion leaves areas grid block row).stacking.copies = copies →
      ∃ c ∈ copiesOf ((expansion leaves areas grid block row).strip block origin),
        c.target = ⟨column, (expansion leaves areas grid block row).stacking.row origin copy⟩) (look : Address → α) :
    Copy.performAll look (layout.strips.flatMap copiesOf) ⟨column, origin + copy * stride⟩ =
      look ⟨(widening? leaves areas grid row).elim column (source · column), origin⟩ := by
  obtain ⟨block, hcopies, hstride, hstrip⟩ := exists_strip h hfate
  obtain ⟨top, -, -, -, -, -, hheight⟩ := opens_of_placed h hfate
  have hrows : ∀ strip ∈ layout.strips, ∀ c ∈ copiesOf strip, (∃ copy, layout.Stands strip.row copy c.source.row) ∧
      ∃ copy, layout.Stands strip.row copy c.target.row := by
    intro strip hmem c hc
    rcases strip_cases h hmem with ⟨row', origin', rfl⟩ | ⟨row', block', origin', copies', stride', hfate', rfl, rfl, rfl⟩
    · rw [hdeleted] at hc
      cases hc
    · obtain ⟨hsource, copy', hcopy', htarget⟩ := (hspread _ block' origin').rows hc
      exact ⟨⟨0, origin', _, _, hfate', Nat.zero_le _, by rw [hsource, Nat.zero_mul]; rfl⟩, copy', origin', _, _, hfate', hcopy', htarget⟩
  rw [performAll_strips h hrows hstrip ⟨copy, origin, copies, stride, hfate, hcopy, rfl⟩, ← expansion_widening block, ← hstride]
  refine (hspread _ block origin).performAll_eq (by omega) ?_ (fun hone => hreached hone block hcopies) look
  rw [expansion_widening]
  exact hacross

/-- A cell that is made by copying, beside another one or below it, gets a style and a format. -/
theorem exists_copy_to_cell (h : ofTemplate leaves areas grid = .ok layout)
    (hfate : layout.fate? row = some (.placed origin copies stride)) (hcopy : copy ≤ copies)
    (hfits : ∀ w, widening? leaves areas grid row = some w → w.Fits) {text : String}
    (htext : layout.grid.text? ⟨column, origin + copy * stride⟩ = some text)
    (hmade : 1 ≤ copy ∨ ∃ w k, widening? leaves areas grid row = some w ∧ w.copyAt? column = some k) :
    (∃ c ∈ (layout.scaffold areas).styles, c.target = ⟨column, origin + copy * stride⟩) ∧
      ∃ c ∈ (layout.scaffold areas).formats, c.target = ⟨column, origin + copy * stride⟩ := by
  obtain ⟨block, hcopies, rfl, hstrip⟩ := exists_strip h hfate
  rcases Nat.eq_zero_or_pos copy with rfl | hone
  · obtain ⟨w, k, hw, hat⟩ := hmade.resolve_left (Nat.not_succ_le_zero 0)
    obtain ⟨⟨c, hc, hstyle⟩, c', hc', hformat⟩ := Widening.copied_of_copyAt? (hfits w hw) hat
    rw [← expansion_widening block] at hw
    rw [Nat.zero_mul, Nat.add_zero]
    exact ⟨⟨_, List.mem_flatMap.2 ⟨_, hstrip, (Expansion.styles_spread _ block origin).mem_of_across hw hc⟩, by rw [← hstyle]; rfl⟩,
      _, List.mem_flatMap.2 ⟨_, hstrip, (Expansion.formats_spread _ block origin).mem_of_across hw hc'⟩, by rw [← hformat]; rfl⟩
  · obtain ⟨⟨c, hc, hstyle⟩, c', hc', hformat⟩ := copied_of_text? h hfate hfits hcopy hone htext hcopies
    exact ⟨⟨c, List.mem_flatMap.2 ⟨_, hstrip, hc⟩, hstyle⟩, c', List.mem_flatMap.2 ⟨_, hstrip, hc'⟩, hformat⟩

/-- Every cell of the output stands where a copy of a row of the template does. If the copies across fit on the sheet, it gets the
style and the format of the cell of the row of the template that it is made from, and if it is made by copying, it has a style copy and
a format copy of its own. -/
theorem cells_look_like_template (h : ofTemplate leaves areas grid = .ok layout) {cell : Address} {text : String}
    (htext : layout.grid.text? cell = some text) :
    (∃ row copy, layout.Stands row copy cell.row) ∧
    ∀ row origin copies stride copy, layout.fate? row = some (.placed origin copies stride) → copy ≤ copies →
      cell.row = origin + copy * stride → (∀ w, widening? leaves areas grid row = some w → w.Fits) →
      (∀ look : Address → α, Copy.performAll look (layout.scaffold areas).styles cell =
        look ⟨(widening? leaves areas grid row).elim cell.column (·.styleSource cell.column), origin⟩) ∧
      (∀ look : Address → α, Copy.performAll look (layout.scaffold areas).formats cell =
        look ⟨(widening? leaves areas grid row).elim cell.column (·.source cell.column), origin⟩) ∧
      (1 ≤ copy ∨ (∃ w k, widening? leaves areas grid row = some w ∧ w.copyAt? cell.column = some k) →
        (∃ c ∈ (layout.scaffold areas).styles, c.target = cell) ∧ ∃ c ∈ (layout.scaffold areas).formats, c.target = cell) := by
  obtain ⟨column, place⟩ := cell
  constructor
  · by_contra hnone
    rw [text?_of_not_stands h (fun row copy hstands => hnone ⟨row, copy, hstands⟩)] at htext
    cases htext
  rintro row origin copies stride copy hfate hcopy rfl hfits
  refine ⟨fun look => ?_, fun look => ?_, ?_⟩
  · refine performAll_of_placed h hfate hcopy Expansion.styles_spread (fun _ _ => rfl) ?_ ?_ look
    · exact fun w hw look => w.performAll_columnCopies (hfits w hw) (one_le_copies_of_widening hw) look column
    · exact fun hone block hcopies => (copied_of_text? h hfate hfits hcopy hone htext hcopies).1
  · refine performAll_of_placed h hfate hcopy Expansion.formats_spread (fun _ _ => rfl) ?_ ?_ look
    · exact fun w hw look => w.performAll_formatCopies (hfits w hw) look column
    · exact fun hone block hcopies => (copied_of_text? h hfate hfits hcopy hone htext hcopies).2
  · exact exists_copy_to_cell h hfate hcopy hfits htext

/-- A merged cell that repeats both ways. -/
def Sample.pairTexts : Grid := SortedMap.ofList [(1, SortedMap.ofList [(columnA, "[pairs.*.*]")])]

def Sample.pairMerges : List Area := [Area.between ⟨columnA, 1⟩ ⟨columnB, 1⟩]

def Sample.pairData : Leaves :=
  Leaves.ofValue (.map [("pairs", .list [.list [.int 1, .int 2], .list [.int 3, .int 4]])])

/-- On the sample the copy beside the cell has a copy below it, which looks like the cell. -/
theorem pair_looks_like_cell : ∃ layout, ofTemplate Sample.pairData Sample.pairMerges Sample.pairTexts = .ok layout ∧
    layout.fate? 1 = some (.placed 1 1 1) ∧ layout.grid.text? ⟨Sample.columnC, 2⟩ = some "[pairs.1.1]" ∧
      (∀ w, widening? Sample.pairData Sample.pairMerges Sample.pairTexts 1 = some w → w.Fits) ∧
        ∀ look : Address → Nat, Copy.performAll look (layout.scaffold Sample.pairMerges).styles ⟨Sample.columnC, 2⟩ =
          look ⟨Sample.columnA, 1⟩ := by
  obtain ⟨layout, hlayout, hcell⟩ := exists_ok_of_any (show (ofTemplate Sample.pairData Sample.pairMerges
    Sample.pairTexts).toOption.any (fun layout => layout.fate? 1 = some (.placed 1 1 1) ∧
      layout.grid.text? ⟨Sample.columnC, 2⟩ = some "[pairs.1.1]") = true by decide +kernel)
  obtain ⟨hfate, htext⟩ := of_decide_eq_true hcell
  have hwidening : widening? Sample.pairData Sample.pairMerges Sample.pairTexts 1 = some ⟨Sample.columnA, "[pairs.0.0]", 1, 1⟩ := by
    decide +kernel
  have hfits : ∀ w, widening? Sample.pairData Sample.pairMerges Sample.pairTexts 1 = some w → w.Fits := by
    intro w hw
    rw [hwidening] at hw
    cases hw
    decide
  refine ⟨layout, hlayout, hfate, htext, hfits, fun look => ?_⟩
  obtain ⟨-, hlooks⟩ := cells_look_like_template hlayout htext
  obtain ⟨hstyle, -⟩ := hlooks 1 1 1 1 1 hfate (Nat.le_refl 1) rfl hfits
  rw [hstyle, hwidening]
  rfl

/-- The two columns before the last one. -/
def Sample.nearLast : Area := Area.between ⟨⟨4294967293, by decide, by decide⟩, 1⟩ ⟨⟨4294967294, by decide, by decide⟩, 1⟩

def Sample.nearLastTexts : Grid := SortedMap.ofList [(1, SortedMap.ofList [(nearLast.left, "[tags.*.*]")])]

/-- A copy that stands in the last column does not look like the cell beside which it stands where the merge of the cell has two
columns: the second one comes to stand there too. -/
theorem merge_overflows : ∃ layout, ofTemplate Sample.data [Sample.nearLast] Sample.nearLastTexts = .ok layout ∧
    ((widening? Sample.data [Sample.nearLast] Sample.nearLastTexts 1).any fun w =>
      w.Fits ∧ w.anchor = Sample.nearLast.left ∧ w.copyAt? (Sample.nearLast.left.offset 2) = some 1) = true ∧
    layout.fate? 1 = some (.placed 1 0 1) ∧
    layout.grid.text? ⟨Sample.nearLast.left.offset 2, 1⟩ = some "[tags.0.1]" ∧
    Copy.performAll id (layout.scaffold [Sample.nearLast]).styles ⟨Sample.nearLast.left.offset 2, 1⟩ = ⟨Sample.nearLast.right, 1⟩ ∧
    Copy.performAll id (layout.scaffold [Sample.nearLast]).styles ⟨Sample.nearLast.left.offset 2, 1⟩ ≠ ⟨Sample.nearLast.left, 1⟩ := by
  obtain ⟨layout, hlayout, hcell⟩ := exists_ok_of_any (show (ofTemplate Sample.data [Sample.nearLast]
    Sample.nearLastTexts).toOption.any (fun layout => layout.fate? 1 = some (.placed 1 0 1) ∧
      layout.grid.text? ⟨Sample.nearLast.left.offset 2, 1⟩ = some "[tags.0.1]" ∧
      Copy.performAll id (layout.scaffold [Sample.nearLast]).styles ⟨Sample.nearLast.left.offset 2, 1⟩ = ⟨Sample.nearLast.right, 1⟩) =
        true by decide +kernel)
  obtain ⟨hfate, htext, hlook⟩ := of_decide_eq_true hcell
  refine ⟨layout, hlayout, by decide +kernel, hfate, htext, hlook, ?_⟩
  rw [hlook]
  decide

end Layout
end SheetTemplate

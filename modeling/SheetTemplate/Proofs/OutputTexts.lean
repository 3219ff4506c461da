import SheetTemplate.Proofs.MarkerScan
import SheetTemplate.Proofs.OutputRows

/-!
# The texts of the output

What the rows of the sheet hold that a layout fills. `Layout.ownText?` is the text of a cell of a row of the template where the row
comes to stand, with the copies beside a cell, and `Layout.copyText?` the text of the cell in a copy of the row. Both look at one
cell of the template at a time.

`copies_fill_output`: the copies of the rows that stay fill the rows of the sheet from the first one on, each row once, with exactly
these texts.
-/

namespace SheetTemplate

/-! ## Copies beside a cell -/

namespace Widening

/-- The number of the copy that begins in a column. -/
def copyAt? (w : Widening) (column : Column) : Option Nat :=
  w.numbers.find? fun copy => column.index = w.anchor.index + copy * (w.extra + 1)

/-- All copies begin in columns of the sheet. -/
def Fits (w : Widening) : Prop := w.anchor.index + w.copies * (w.extra + 1) ≤ lastColumn

instance (w : Widening) : Decidable w.Fits := inferInstanceAs (Decidable (_ ≤ _))

theorem mem_numbers {w : Widening} {copy : Nat} : copy ∈ w.numbers ↔ 1 ≤ copy ∧ copy ≤ w.copies := by
  rw [numbers, List.mem_range'_1]
  omega

/-- Copies that fit begin one merge of the cell apart. -/
theorem column_eq_iff {w : Widening} (h : w.Fits) {copy : Nat} (hcopy : copy ≤ w.copies) {column : Column} :
    w.column copy 0 = column ↔ column.index = w.anchor.index + copy * (w.extra + 1) := by
  have hle : copy * (w.extra + 1) ≤ w.copies * (w.extra + 1) := Nat.mul_le_mul_right _ hcopy
  have hfits : w.anchor.index + w.copies * (w.extra + 1) ≤ lastColumn := h
  rw [Widening.column, Nat.add_zero, eq_comm, Column.eq_offset_iff (by omega)]

/-- Different copies begin in different columns. -/
theorem copy_eq_of_index {w : Widening} {copy copy' : Nat}
    (h : w.anchor.index + copy * (w.extra + 1) = w.anchor.index + copy' * (w.extra + 1)) : copy = copy' :=
  Nat.eq_of_mul_eq_mul_right (Nat.succ_pos w.extra) (Nat.add_left_cancel h)

/-- At most one copy begins in a column. -/
theorem copyAt?_eq_some_iff {w : Widening} {column : Column} {copy : Nat} :
    w.copyAt? column = some copy ↔ copy ∈ w.numbers ∧ column.index = w.anchor.index + copy * (w.extra + 1) := by
  have hfound : ∀ {other}, w.copyAt? column = some other →
      other ∈ w.numbers ∧ column.index = w.anchor.index + other * (w.extra + 1) := by
    intro other h
    have hbegins := List.find?_some h
    exact ⟨List.mem_of_find?_eq_some h, of_decide_eq_true hbegins⟩
  constructor
  · exact hfound
  · rintro ⟨hmem, hindex⟩
    cases hat : w.copyAt? column with
    | some other => rw [copy_eq_of_index ((hfound hat).2.symm.trans hindex)]
    | none => exact absurd (decide_eq_true hindex) (List.find?_eq_none.1 hat copy hmem)

/-- A widened row holds the copies in the columns where they begin, and its own cells elsewhere. -/
theorem get?_widen {w : Widening} (h : w.Fits) (line : Line) (column : Column) :
    (w.widen line).get? column =
      ((w.copyAt? column).map fun copy => Marker.advance .across copy w.text).or (line.get? column) := by
  unfold widen
  cases hfind : w.copyAt? column with
  | none =>
    rw [SortedMap.get?_foldl_insert_of_not_mem]
    · rfl
    · intro copy hmem heq
      have hnone := List.find?_eq_none.1 hfind copy hmem
      simp only [decide_eq_true_eq] at hnone
      exact hnone ((column_eq_iff h (mem_numbers.1 hmem).2).1 heq)
  | some copy =>
    obtain ⟨hmem, hindex⟩ := copyAt?_eq_some_iff.1 hfind
    rw [SortedMap.get?_foldl_insert (v := Marker.advance .across copy w.text)]
    · rfl
    · intro other hother heq
      have hsame := (column_eq_iff h (mem_numbers.1 hother).2).1 heq
      rw [copy_eq_of_index (hsame.symm.trans hindex)]
    · exact ⟨copy, hmem, (column_eq_iff h (mem_numbers.1 hmem).2).2 hindex⟩

/-- A cell of a row that is widened still holds a text: its own, or that of a copy that begins there. -/
theorem exists_get?_widen (w : Widening) {line : Line} {column : Column} {text : String} (h : line.get? column = some text) :
    ∃ kept, (w.widen line).get? column = some kept := by
  rw [widen]
  induction w.numbers generalizing line text with
  | nil => exact ⟨text, h⟩
  | cons copy numbers ih =>
    rw [List.foldl_cons]
    by_cases hcopy : compare column (w.column copy 0) = .eq
    · exact ih ((SortedMap.get?_insert _ _ _ _).trans (if_pos hcopy))
    · exact ih (((SortedMap.get?_insert _ _ _ _).trans (if_neg hcopy)).trans h)

/-- The merges of copies begin in the columns where the copies do. -/
theorem anchor_of_mem_areas {w : Widening} {row : Nat} {area : Area} (h : area ∈ w.areas row) :
    ∃ copy ∈ w.numbers, area.anchor = ⟨w.column copy 0, row⟩ := by
  unfold areas at h
  split at h
  · cases h
  · obtain ⟨copy, hmem, rfl⟩ := List.mem_map.1 h
    refine ⟨copy, hmem, ?_⟩
    have hle : (w.column copy 0).index ≤ (w.column copy w.extra).index := by
      simp only [column, Column.offset]
      omega
    simp [Area.anchor, Area.between, Column.leftmost, hle]

end Widening

theorem Stacking.mem_numbers {s : Stacking} {copy : Nat} : copy ∈ s.numbers ↔ 1 ≤ copy ∧ copy ≤ s.copies := by
  rw [numbers, List.mem_range'_1]
  omega

namespace Layout

/-! ## The text of a cell -/

/-- The copies of a cell beside a row of a template, its markers grounded. -/
def widening? (leaves : Leaves) (areas : List Area) (grid : Grid) (row : Nat) : Option Widening :=
  Widening.ofLine? areas row (groundedLine grid row) (repetition leaves grid row)

/-- The text of a cell of row `row` of a template that has `copies` copies, where the row comes to stand: a copy of the cell that
repeats across, or the cell itself with its markers grounded. A cell that need not be written goes missing where its row is not
repeated. -/
def ownText? (leaves : Leaves) (areas : List Area) (grid : Grid) (row copies : Nat) (column : Column) : Option String :=
  ((widening? leaves areas grid row).bind fun w =>
      (w.copyAt? column).map fun copy => Marker.advance .across copy w.text).or
    (((groundedLine grid row).get? column).filter fun text => copies ≠ 0 || Strip.isLive text)

/-- The text of a cell in copy `copy` of a row: that of the row itself with the first position of every marker advanced. A cell
that begins a merge and holds no value stands in the row itself only. -/
def copyText? (leaves : Leaves) (areas : List Area) (grid : Grid) (row copies copy : Nat) (column : Column) : Option String :=
  if copy = 0 then
    ownText? leaves areas grid row copies column
  else
    ((ownText? leaves areas grid row copies column).filter fun text =>
      Marker.valueInText text || (areasFrom areas ⟨column, row⟩).isEmpty).map (Marker.advance .down copy)

variable {leaves : Leaves} {areas : List Area} {grid : Grid}

/-- The cell that repeats across holds a value. -/
theorem valueInText_widening {row : Nat} {w : Widening} (h : widening? leaves areas grid row = some w) :
    Marker.valueInText w.text = true := by
  simp only [widening?, Widening.ofLine?, Option.bind_eq_bind, Option.bind_eq_some_iff, Option.some.injEq] at h
  obtain ⟨anchor, hanchor, text, htext, rfl⟩ := h
  obtain ⟨template, htemplate, hvalue⟩ := valueInText_of_anchor hanchor
  rw [groundedLine, SortedMap.get?_mapValues, htemplate] at htext
  obtain rfl : Marker.ground template = text := by simpa using htext
  rw [Marker.valueInText_ground, hvalue]

/-- The cell that repeats across is written whether its row is repeated or not. -/
theorem expansion_widening (block : Block) (row : Nat) :
    (expansion leaves areas grid block row).widening = widening? leaves areas grid row := by
  unfold expansion Expansion.ofLine widening?
  simp only
  split
  · simp only [Widening.ofLine?]
    cases hanchor : (repetition leaves grid row).anchor with
    | none => rfl
    | some anchor =>
      obtain ⟨text, htext, hvalue⟩ := valueInText_of_anchor hanchor
      have hget : (groundedLine grid row).get? anchor = some (Marker.ground text) := by
        rw [groundedLine, SortedMap.get?_mapValues, htext]
        rfl
      have hlive : Strip.isLive (Marker.ground text) = true := by
        rw [Strip.isLive, Marker.inText_of_valueInText (by rw [Marker.valueInText_ground, hvalue]), Bool.true_or]
      simp [SortedMap.get?_filter, hget, Option.filter_some, hlive]
  · rfl

/-- A row in which no cell has copies beside it is not widened. -/
theorem widening?_eq_none {row : Nat} (h : (repetition leaves grid row).columns = 0) : widening? leaves areas grid row = none := by
  rw [widening?, Widening.ofLine?, show (repetition leaves grid row).anchor = none from Repetition.anchor_eq_none h]
  rfl

/-- A cell that repeats across has copies beside it. -/
theorem one_le_copies_of_widening {row : Nat} {w : Widening} (h : widening? leaves areas grid row = some w) : 1 ≤ w.copies := by
  have hcopies : w.copies = (repetition leaves grid row).columns := by
    simp only [widening?, Widening.ofLine?, Option.bind_eq_bind, Option.bind_eq_some_iff, Option.some.injEq] at h
    obtain ⟨anchor, -, text, -, rfl⟩ := h
    rfl
  by_contra hlt
  rw [widening?_eq_none (by omega)] at h
  cases h

/-- The cells of a row of a template that are written where it has `copies` copies, with their markers grounded. -/
def keptLine (grid : Grid) (row copies : Nat) : Line :=
  if copies = 0 then (groundedLine grid row).filter fun _ text => Strip.isLive text else groundedLine grid row

/-- A cell that need not be written is kept where its row is repeated. -/
theorem get?_keptLine (row copies : Nat) (column : Column) : (keptLine grid row copies).get? column =
    ((groundedLine grid row).get? column).filter fun text => copies ≠ 0 || Strip.isLive text := by
  unfold keptLine
  by_cases hcopies : copies = 0
  · simp [hcopies, SortedMap.get?_filter]
  · rw [if_neg hcopies]
    cases (groundedLine grid row).get? column <;> simp [hcopies, Option.filter_some]

/-- A row that stays has its kept cells, widened where one of them repeats across. -/
theorem expansion_line (block : Block) (row : Nat) : (expansion leaves areas grid block row).line =
    (widening? leaves areas grid row).elim (keptLine grid row (expansion leaves areas grid block row).stacking.copies)
      fun w => w.widen (keptLine grid row (expansion leaves areas grid block row).stacking.copies) := by
  rw [← expansion_widening block row]
  rfl

/-- The cells of a row that stays. -/
theorem get?_expansion_line (block : Block) {row : Nat} (hfits : ∀ w, widening? leaves areas grid row = some w → w.Fits)
    (column : Column) : (expansion leaves areas grid block row).line.get? column =
      ownText? leaves areas grid row (expansion leaves areas grid block row).stacking.copies column := by
  rw [expansion_line]
  unfold ownText?
  cases hw : widening? leaves areas grid row with
  | none => exact get?_keptLine row _ column
  | some w =>
    rw [Option.elim_some, Widening.get?_widen (hfits w hw), get?_keptLine]
    rfl

/-- A cell without a value begins no merge of a copy beside it: there the copy begins, which holds a value. -/
theorem areasFrom_widened {row copies : Nat} {column : Column} {text : String}
    (hfits : ∀ w, widening? leaves areas grid row = some w → w.Fits)
    (htext : ownText? leaves areas grid row copies column = some text) (hvalue : Marker.valueInText text = false) :
    areasFrom (areas ++ (widening? leaves areas grid row).elim [] fun w => w.areas row) ⟨column, row⟩ =
      areasFrom areas ⟨column, row⟩ := by
  rw [areasFrom, areasFrom, List.filter_append, List.append_right_eq_self, List.filter_eq_nil_iff]
  intro area harea hanchor
  cases hw : widening? leaves areas grid row with
  | none =>
    rw [hw] at harea
    cases harea
  | some w =>
    rw [hw] at harea
    obtain ⟨copy, hcopy, hbegins⟩ := Widening.anchor_of_mem_areas harea
    have hcolumn : w.column copy 0 = column := by
      have : area.anchor = ⟨column, row⟩ := by simpa using hanchor
      rw [hbegins] at this
      exact congrArg Address.column this
    have hindex := (Widening.column_eq_iff (hfits w hw) (Widening.mem_numbers.1 hcopy).2).1 hcolumn
    have hat := Widening.copyAt?_eq_some_iff.2 ⟨hcopy, hindex⟩
    have hcopied : Marker.advance .across copy w.text = text := by simpa [ownText?, hw, hat] using htext
    rw [← hcopied, Marker.valueInText_advance, valueInText_widening hw] at hvalue
    cases hvalue

/-- The cells that the copies of a row have too. -/
theorem get?_expansion_stacking (block : Block) {row : Nat} (hfits : ∀ w, widening? leaves areas grid row = some w → w.Fits)
    (column : Column) : (expansion leaves areas grid block row).stacking.line.get? column =
      (ownText? leaves areas grid row (expansion leaves areas grid block row).stacking.copies column).filter fun text =>
        Marker.valueInText text || (areasFrom areas ⟨column, row⟩).isEmpty := by
  have hline : (expansion leaves areas grid block row).stacking.line =
      Stacking.copied (areas ++ (expansion leaves areas grid block row).widening.elim [] fun w => w.areas row) row
        (expansion leaves areas grid block row).line :=
    rfl
  rw [hline, Stacking.copied, SortedMap.get?_filter, expansion_widening, get?_expansion_line block hfits]
  generalize (expansion leaves areas grid block row).stacking.copies = copies
  cases htext : ownText? leaves areas grid row copies column with
  | none => rfl
  | some text =>
    rw [Option.filter_some, Option.filter_some]
    cases hvalue : Marker.valueInText text with
    | true => simp
    | false => rw [areasFrom_widened hfits htext hvalue]

/-! ## The lines of the output -/

/-- The cells of copy `copy` of a row that stays. -/
def copyLine (leaves : Leaves) (areas : List Area) (grid : Grid) (block : Block) (row copy : Nat) : Line :=
  if copy = 0 then (expansion leaves areas grid block row).line
  else (expansion leaves areas grid block row).stacking.line.mapValues fun _ text => Marker.advance .down copy text

/-- The texts of a copy of a row. -/
theorem get?_copyLine (block : Block) {row : Nat} (copy : Nat)
    (hfits : ∀ w, widening? leaves areas grid row = some w → w.Fits) (column : Column) :
    (copyLine leaves areas grid block row copy).get? column =
      copyText? leaves areas grid row (expansion leaves areas grid block row).stacking.copies copy column := by
  unfold copyLine copyText?
  split
  · exact get?_expansion_line block hfits column
  · rw [SortedMap.get?_mapValues, get?_expansion_stacking block hfits]

/-- The lines of a strip are those of its copies that hold cells. -/
theorem mem_strip_lines {block block' : Block} {row stood place : Nat} {line : Line} :
    (place, line) ∈ ((expansion leaves areas grid block row).strip block' stood).lines ↔
      ∃ copy ≤ (expansion leaves areas grid block row).stacking.copies,
        place = stood + copy * (expansion leaves areas grid block row).stacking.stride ∧
          line = copyLine leaves areas grid block row copy ∧ (copyLine leaves areas grid block row copy).isEmpty = false := by
  change (place, line) ∈ (expansion leaves areas grid block row).stacking.lines stood ++
    (if (expansion leaves areas grid block row).line.isEmpty then [] else [(stood, (expansion leaves areas grid block row).line)]) ↔ _
  simp only [copyLine]
  generalize expansion leaves areas grid block row = e
  rw [List.mem_append]
  constructor
  · rintro (h | h)
    · unfold Stacking.lines at h
      split at h
      · cases h
      · rename_i hempty
        obtain ⟨copy, hcopy, heq⟩ := List.mem_map.1 h
        rw [Stacking.mem_numbers] at hcopy
        cases heq
        refine ⟨copy, by omega, rfl, ?_, ?_⟩
        · rw [if_neg (by omega)]
        · rw [if_neg (by omega), SortedMap.isEmpty_mapValues]
          exact Bool.eq_false_iff.2 hempty
    · split at h
      · cases h
      · rename_i hempty
        cases List.mem_singleton.1 h
        exact ⟨0, Nat.zero_le _, by omega, by rw [if_pos rfl], by rw [if_pos rfl]; exact Bool.eq_false_iff.2 hempty⟩
  · rintro ⟨copy, hcopy, rfl, rfl, hempty⟩
    rcases Nat.eq_zero_or_pos copy with rfl | hpos
    · right
      rw [if_pos rfl] at hempty ⊢
      rw [if_neg (by rw [hempty]; exact Bool.false_ne_true), Nat.zero_mul, Nat.add_zero]
      exact List.mem_singleton.2 rfl
    · left
      rw [if_neg (by omega), SortedMap.isEmpty_mapValues] at hempty
      unfold Stacking.lines
      rw [if_neg (by rw [hempty]; exact Bool.false_ne_true), if_neg (by omega)]
      exact List.mem_map.2 ⟨copy, Stacking.mem_numbers.2 ⟨hpos, hcopy⟩, rfl⟩

variable {layout : Layout}

/-- A row that stays has the strip of its expansion in the block where it is met. -/
theorem exists_strip (h : ofTemplate leaves areas grid = .ok layout) {row origin copies stride : Nat}
    (hfate : layout.fate? row = some (.placed origin copies stride)) :
    ∃ block, (expansion leaves areas grid block row).stacking.copies = copies ∧
      (expansion leaves areas grid block row).stacking.stride = stride ∧
        (expansion leaves areas grid block row).strip block origin ∈ layout.strips := by
  obtain ⟨stop, bands, bottom, hlaid, hstrips⟩ := exists_laid_firstRow h
  obtain ⟨top, o, height, place, hb, hplace, rfl, rfl, rfl⟩ := (hlaid.placed_iff hstrips).1 hfate
  obtain ⟨-, hcopies, hheight, -⟩ := hlaid.of_kept hb
  have hkept : (Band.keptStrip leaves areas grid top o height copies place).fate = .placed (o + place) copies (height + 1) :=
    keptStrip_fate place hcopies hheight
  refine ⟨Band.blockAt height copies place, ?_, ?_, ?_⟩
  · exact (Fate.placed.inj hkept).2.1
  · exact (Fate.placed.inj hkept).2.2
  · rw [hstrips]
    exact List.mem_flatMap.2 ⟨_, hb, mem_strips_kept.2 ⟨place, hplace, rfl⟩⟩

/-- The strips of a layout are those of rows that go out and the expansions of rows that stay. -/
theorem strip_cases (h : ofTemplate leaves areas grid = .ok layout) {strip : Strip} (hstrip : strip ∈ layout.strips) :
    (∃ row origin, strip = Strip.deleted row origin) ∨ ∃ row block origin copies stride,
      layout.fate? row = some (.placed origin copies stride) ∧ (expansion leaves areas grid block row).stacking.copies = copies ∧
        (expansion leaves areas grid block row).stacking.stride = stride ∧
          strip = (expansion leaves areas grid block row).strip block origin := by
  obtain ⟨stop, bands, bottom, hlaid, hstrips⟩ := exists_laid_firstRow h
  have hstrip' := hstrip
  rw [hstrips] at hstrip'
  obtain ⟨band, hb, hband⟩ := List.mem_flatMap.1 hstrip'
  cases band with
  | deleted top o => exact Or.inl ⟨top, o, List.mem_singleton.1 hband⟩
  | kept top o height copies =>
    obtain ⟨below, hbelow, rfl⟩ := mem_strips_kept.1 hband
    exact Or.inr ⟨top + below, Band.blockAt height copies below, o + below, _, _,
      (hlaid.fate?_iff hstrips).2 ⟨_, hstrip, rfl, rfl⟩, rfl, rfl, rfl⟩

/-- Every line of a strip of a layout is that of a copy of its row. -/
theorem exists_copy_of_mem_strip (h : ofTemplate leaves areas grid = .ok layout) {strip : Strip} (hstrip : strip ∈ layout.strips)
    {place : Nat} {line : Line} (hline : (place, line) ∈ strip.lines) :
    ∃ block copy origin copies stride, layout.fate? strip.row = some (.placed origin copies stride) ∧ copy ≤ copies ∧
      place = origin + copy * stride ∧ (expansion leaves areas grid block strip.row).stacking.copies = copies ∧
        line = copyLine leaves areas grid block strip.row copy := by
  rcases strip_cases h hstrip with ⟨row, origin, rfl⟩ | ⟨row, block, origin, copies, stride, hfate, rfl, rfl, rfl⟩
  · cases hline
  · obtain ⟨copy, hcopy, rfl, rfl, -⟩ := mem_strip_lines.1 hline
    exact ⟨block, copy, origin, _, _, hfate, hcopy, rfl, rfl, rfl⟩

/-- Every line of a layout is that of a copy of a row that stays. -/
theorem exists_copy_of_mem_lines (h : ofTemplate leaves areas grid = .ok layout) {place : Nat} {line : Line}
    (hline : (place, line) ∈ layout.strips.flatMap (·.lines)) :
    ∃ row block copy origin copies stride, layout.fate? row = some (.placed origin copies stride) ∧ copy ≤ copies ∧
      place = origin + copy * stride ∧ (expansion leaves areas grid block row).stacking.copies = copies ∧
        line = copyLine leaves areas grid block row copy := by
  obtain ⟨strip, hstrip, hmem⟩ := List.mem_flatMap.1 hline
  exact ⟨strip.row, exists_copy_of_mem_strip h hstrip hmem⟩

/-- The cells of a copy depend on the number of copies of its row alone, not on the block in which the row is met. -/
theorem copyLine_congr {block block' : Block} {row : Nat} (copy : Nat)
    (h : (expansion leaves areas grid block row).stacking.copies = (expansion leaves areas grid block' row).stacking.copies) :
    copyLine leaves areas grid block row copy = copyLine leaves areas grid block' row copy := by
  change block.copies (repetition leaves grid row).rows = block'.copies (repetition leaves grid row).rows at h
  simp only [copyLine, expansion, Expansion.ofLine, Stacking.ofLine, h]

/-- A row of the sheet where a copy stands holds the cells of the copy. -/
theorem line_of_placed (h : ofTemplate leaves areas grid = .ok layout) {row origin copies stride copy : Nat}
    (hfate : layout.fate? row = some (.placed origin copies stride)) (hcopy : copy ≤ copies) :
    ∃ block, (expansion leaves areas grid block row).stacking.copies = copies ∧
      ∀ column, (layout.grid.line (origin + copy * stride)).get? column = (copyLine leaves areas grid block row copy).get? column := by
  obtain ⟨block, hcopies, hstride, hstrip⟩ := exists_strip h hfate
  refine ⟨block, hcopies, fun column => ?_⟩
  have hagree : ∀ entry ∈ layout.strips.flatMap (·.lines), entry.1 = origin + copy * stride →
      entry.2 = copyLine leaves areas grid block row copy := by
    rintro ⟨place, line⟩ hmem rfl
    obtain ⟨row', block', copy', origin', copies', stride', hfate', hcopy', hplace, hcopies', rfl⟩ := exists_copy_of_mem_lines h hmem
    obtain ⟨rfl, rfl⟩ := stands_inj h ⟨origin, copies, stride, hfate, hcopy, rfl⟩ ⟨origin', copies', stride', hfate', hcopy', hplace⟩
    rw [hfate] at hfate'
    cases hfate'
    exact copyLine_congr copy (hcopies'.trans hcopies.symm)
  rw [Grid.line, Layout.grid, SortedMap.ofList]
  by_cases hmem : ∃ entry ∈ layout.strips.flatMap (·.lines), entry.1 = origin + copy * stride
  · rw [SortedMap.get?_foldl_insert Prod.fst Prod.snd ∅ hagree hmem]
    rfl
  · rw [SortedMap.get?_foldl_insert_of_not_mem Prod.fst Prod.snd ∅ fun entry hentry hkey => hmem ⟨entry, hentry, hkey⟩]
    -- A copy without a line has no cells.
    have hempty : (copyLine leaves areas grid block row copy).isEmpty = true := by
      by_contra hne
      refine hmem ⟨(origin + copy * stride, _), List.mem_flatMap.2 ⟨_, hstrip, mem_strip_lines.2 ⟨copy, ?_, ?_, rfl, ?_⟩⟩, rfl⟩
      · rw [hcopies]
        exact hcopy
      · rw [hstride]
      · exact Bool.eq_false_iff.2 hne
    rw [SortedMap.get?_of_isEmpty hempty]
    rfl

/-- The texts of a row of the sheet where a copy stands are those of the copy. -/
theorem text?_of_placed (h : ofTemplate leaves areas grid = .ok layout) {row origin copies stride copy : Nat}
    (hfate : layout.fate? row = some (.placed origin copies stride))
    (hfits : ∀ w, widening? leaves areas grid row = some w → w.Fits) (hcopy : copy ≤ copies) (column : Column) :
    layout.grid.text? ⟨column, origin + copy * stride⟩ = copyText? leaves areas grid row copies copy column := by
  obtain ⟨block, hcopies, hline⟩ := line_of_placed h hfate hcopy
  rw [Grid.text?, hline, get?_copyLine block copy hfits, hcopies]

/-- Where no copy stands there are no texts. -/
theorem text?_of_not_stands (h : ofTemplate leaves areas grid = .ok layout) {place : Nat}
    (hnone : ∀ row copy, ¬layout.Stands row copy place) (column : Column) : layout.grid.text? ⟨column, place⟩ = none := by
  rw [Grid.text?, Grid.line, Layout.grid, SortedMap.ofList, SortedMap.get?_foldl_insert_of_not_mem Prod.fst Prod.snd]
  · rfl
  · rintro ⟨place', line⟩ hmem rfl
    obtain ⟨row, block, copy, origin, copies, stride, hfate, hcopy, hplace, -⟩ := exists_copy_of_mem_lines h hmem
    exact hnone row copy ⟨origin, copies, stride, hfate, hcopy, hplace⟩

/-- No row of the output is lost, overwritten or left out. A row that stays has the copies and the distance of the row that opens its
block. Different copies stand in different rows, which follow each other from the first row in use on. Where the copies across fit
on the sheet, the rows where a row of the template and its copies stand hold exactly its texts, and other rows hold none. -/
theorem copies_fill_output (h : ofTemplate leaves areas grid = .ok layout) :
    (∀ row origin copies stride, layout.fate? row = some (.placed origin copies stride) →
      (∃ top, Opens leaves areas grid top ∧ refuses leaves grid top = false ∧ top ≤ row ∧
        row ≤ top + ownHeight leaves areas grid top ∧ copies = (repetition leaves grid top).rows ∧
          stride = ownHeight leaves areas grid top + 1) ∧
      ((∀ w, widening? leaves areas grid row = some w → w.Fits) → ∀ copy ≤ copies, ∀ column,
        layout.grid.text? ⟨column, origin + copy * stride⟩ = copyText? leaves areas grid row copies copy column)) ∧
      (∀ row row' copy copy' place, layout.Stands row copy place → layout.Stands row' copy' place → row = row' ∧ copy = copy') ∧
      ∃ bottom, ∀ place,
        ((∃ row copy, layout.Stands row copy place) ↔ firstRow areas grid ≤ place ∧ place < bottom) ∧
        ((∀ row copy, ¬layout.Stands row copy place) → ∀ column, layout.grid.text? ⟨column, place⟩ = none) := by
  obtain ⟨bottom, hbottom⟩ := exists_stands_iff h
  refine ⟨?_, ?_, bottom, ?_⟩
  · intro row origin copies stride hfate
    refine ⟨opens_of_placed h hfate, ?_⟩
    intro hfits copy hcopy column
    exact text?_of_placed h hfate hfits hcopy column
  · intro row row' copy copy' place hstands hstands'
    exact stands_inj h hstands hstands'
  · intro place
    refine ⟨hbottom place, ?_⟩
    intro hnone
    exact text?_of_not_stands h hnone

/-- On the sample the block stands below the rows with the lists, with its copy two rows further down. The copy of its first row names the
second box, and a formula in it is the one that is copied. -/
theorem copies_fill_sample : ∃ layout, ofTemplate Sample.data Sample.merges Sample.texts = .ok layout ∧
    layout.fate? 4 = some (.placed 4 1 2) ∧ (∀ w, widening? Sample.data Sample.merges Sample.texts 4 = some w → w.Fits) ∧
      (∀ column, layout.grid.text? ⟨column, 6⟩ = copyText? Sample.data Sample.merges Sample.texts 4 1 1 column) ∧
        layout.grid.text? ⟨Sample.columnA, 6⟩ = some "[boxes.1.id]" ∧ layout.grid.text? ⟨Sample.columnB, 6⟩ = some "=A5*2" := by
  obtain ⟨layout, hlayout, -, -, -, hfate, -⟩ := Sample.exists_layout
  have hnone : (widening? Sample.data Sample.merges Sample.texts 4).isNone = true := by decide +kernel
  have hfits : ∀ w, widening? Sample.data Sample.merges Sample.texts 4 = some w → w.Fits := by
    intro w hw
    rw [hw] at hnone
    cases hnone
  obtain ⟨hplaced, -⟩ := copies_fill_output hlayout
  have hcopy : ∀ column, layout.grid.text? ⟨column, 6⟩ = copyText? Sample.data Sample.merges Sample.texts 4 1 1 column :=
    fun column => (hplaced 4 4 1 2 hfate).2 hfits 1 (Nat.le_refl 1) column
  refine ⟨layout, hlayout, hfate, hfits, hcopy, ?_, ?_⟩
  · rw [hcopy]
    decide +kernel
  · rw [hcopy]
    decide +kernel

/-- Not every marker of a copy beside a cell moves on: one with a single position keeps it. -/
theorem single_position_stays : ∃ layout,
    ofTemplate (Leaves.ofValue (.map [("a", .list [.int 1]), ("m", .list [.list [.int 1, .int 2]])])) []
        (SortedMap.ofList [(1, SortedMap.ofList [(Sample.columnA, "[a.0] [m.0.0]")])]) = .ok layout ∧
      layout.fate? 1 = some (.placed 1 0 1) ∧ layout.grid.text? ⟨Sample.columnB, 1⟩ = some "[a.0] [m.0.1]" ∧
        layout.grid.text? ⟨Sample.columnB, 1⟩ ≠ some "[a.1] [m.0.1]" := by
  obtain ⟨layout, hlayout, htexts⟩ := exists_ok_of_any (show (ofTemplate
    (Leaves.ofValue (.map [("a", .list [.int 1]), ("m", .list [.list [.int 1, .int 2]])])) []
    (SortedMap.ofList [(1, SortedMap.ofList [(Sample.columnA, "[a.0] [m.0.0]")])])).toOption.any (fun layout =>
      layout.fate? 1 = some (.placed 1 0 1) ∧ layout.grid.text? ⟨Sample.columnB, 1⟩ = some "[a.0] [m.0.1]") = true
    by decide +kernel)
  obtain ⟨hfate, htext⟩ := of_decide_eq_true htexts
  refine ⟨layout, hlayout, hfate, htext, ?_⟩
  rw [htext]
  decide

end Layout
end SheetTemplate

import Mathlib.Data.List.Forall2
import SheetTemplate.Substitution

/-!
# The contents of cells

What substitution puts into each cell. It goes over the cells of a grid one after the other and stops at the first text without a
value, but the outcome is one of cells by themselves: there are contents exactly if every text has a value (`exists_contents_iff`), and
then every cell with a text holds the value of its text and no other cell holds anything (`get?_contents`). Otherwise the error is that of
the first cell without a value, row by row and from left to right (`contents_eq_error_iff`).
-/

namespace SheetTemplate

/-! ## Cells in their order -/

/-- A cell comes before another one row by row, and within a row from left to right. -/
def Address.Before (cell other : Address) : Prop :=
  cell.row < other.row ∨ cell.row = other.row ∧ cell.column.index < other.column.index

namespace SortedMap

variable {ν : Type}

/-- The cells of rows are listed with what they hold. -/
theorem mem_cells_iff {rows : SortedMap Nat (SortedMap Column ν)} {cell : Address} {v : ν} :
    (cell, v) ∈ (rows.entries.flatMap fun line => line.2.entries.map fun c => ((⟨c.1, line.1⟩ : Address), c.2)) ↔
      ((rows.get? cell.row).bind fun line => line.get? cell.column) = some v := by
  obtain ⟨column, row⟩ := cell
  simp only [List.mem_flatMap, List.mem_map, Option.bind_eq_some_iff, get?_eq_some_iff]
  constructor
  · rintro ⟨⟨row', line⟩, hline, ⟨column', v'⟩, hcell, heq⟩
    cases heq
    exact ⟨line, hline, hcell⟩
  · rintro ⟨line, hline, hcell⟩
    exact ⟨(row, line), hline, (column, v), hcell, rfl⟩

/-- The cells of rows are listed one before the other. -/
theorem pairwise_cells (rows : SortedMap Nat (SortedMap Column ν)) :
    (rows.entries.flatMap fun line => line.2.entries.map fun c => ((⟨c.1, line.1⟩ : Address), c.2)).Pairwise
      fun a b => a.1.Before b.1 := by
  rw [List.pairwise_flatMap]
  constructor
  · intro line _
    rw [List.pairwise_map]
    exact line.2.sorted.imp fun hcolumn => Or.inr ⟨rfl, Nat.compare_eq_lt.1 hcolumn⟩
  · refine rows.sorted.imp fun hrow a ha b hb => Or.inl ?_
    obtain ⟨cell, -, rfl⟩ := List.mem_map.1 ha
    obtain ⟨other, -, rfl⟩ := List.mem_map.1 hb
    exact Nat.compare_eq_lt.1 hrow

end SortedMap

namespace Grid

/-- The grid with every text replaced, given its cell. -/
def mapCells (f : Address → String → String) (grid : Grid) : Grid :=
  grid.mapValues fun row line => line.mapValues fun column text => f ⟨column, row⟩ text

theorem text?_mapCells (f : Address → String → String) (grid : Grid) (cell : Address) :
    (grid.mapCells f).text? cell = (grid.text? cell).map (f cell) := by
  rw [text?, text?, line, line, mapCells, SortedMap.get?_mapValues]
  cases SortedMap.get? grid cell.row with
  | none => rfl
  | some found => exact SortedMap.get?_mapValues (fun column text => f ⟨column, cell.row⟩ text) found cell.column

/-- The cells of a grid with replaced texts. -/
theorem cells_mapCells (f : Address → String → String) (grid : Grid) :
    (grid.mapCells f).cells = grid.cells.map fun cell => (cell.1, f cell.1 cell.2) := by
  simp [cells, mapCells, SortedMap.mapValues, List.flatMap_map, List.map_flatMap, List.map_map, Function.comp_def]

/-- The cells of a grid are those with a text. -/
theorem mem_cells {grid : Grid} {cell : Address} {text : String} : (cell, text) ∈ grid.cells ↔ grid.text? cell = some text := by
  rw [cells, SortedMap.mem_cells_iff, text?, line]
  cases SortedMap.get? grid cell.row <;> rfl

/-- The cells of a grid are listed one before the other. -/
theorem pairwise_cells (grid : Grid) : grid.cells.Pairwise fun a b => a.1.Before b.1 := SortedMap.pairwise_cells grid

end Grid

/-! ## Lists of results -/

/-- What is made of a result is an error exactly if the result is. -/
theorem map_eq_error_iff {ε α β : Type} {x : Except ε α} {f : α → β} {e : ε} : x.map f = .error e ↔ x = .error e := by
  cases x with
  | error e' =>
    constructor
    · rintro ⟨⟩
      rfl
    · rintro ⟨⟩
      rfl
  | ok v => exact ⟨nofun, nofun⟩

/-- What is made of a result has a value exactly if the result has one. -/
theorem exists_map_iff {ε α β : Type} {x : Except ε α} {f : α → β} : (∃ b, x.map f = .ok b) ↔ ∃ a, x = .ok a := by
  cases x with
  | error e =>
    constructor
    · rintro ⟨_, ⟨⟩⟩
    · rintro ⟨_, ⟨⟩⟩
  | ok a => exact ⟨fun _ => ⟨a, rfl⟩, fun _ => ⟨f a, rfl⟩⟩

/-- A list of results has a list of values exactly if each result has the value in its place. -/
theorem mapM_eq_ok_iff {ε α β : Type} {f : α → Except ε β} {l : List α} {values : List β} :
    l.mapM f = .ok values ↔ List.Forall₂ (fun a b => f a = .ok b) l values := by
  induction l generalizing values with
  | nil =>
    constructor
    · rintro ⟨⟩
      exact .nil
    · rintro ⟨⟩
      rfl
  | cons a l ih =>
    rw [List.mapM_cons]
    constructor
    · intro h
      cases ha : f a with
      | error e =>
        rw [ha] at h
        cases h
      | ok b =>
        cases hl : l.mapM f with
        | error e =>
          rw [ha, hl] at h
          cases h
        | ok rest =>
          rw [ha, hl] at h
          cases h
          exact .cons ha (ih.1 hl)
    · rintro (_ | ⟨ha, hl⟩)
      rw [ha, ih.2 hl]
      rfl

/-- Members of related lists are related. -/
theorem exists_of_mem_forall₂ {α β : Type} {R : α → β → Prop} {l : List α} {l' : List β} (h : List.Forall₂ R l l') :
    (∀ a ∈ l, ∃ b ∈ l', R a b) ∧ ∀ b ∈ l', ∃ a ∈ l, R a b := by
  induction h with
  | nil => exact ⟨fun _ h => absurd h List.not_mem_nil, fun _ h => absurd h List.not_mem_nil⟩
  | @cons a b l l' hab _ ih =>
    constructor
    · intro a' ha'
      rcases List.mem_cons.1 ha' with rfl | ha'
      · exact ⟨b, List.mem_cons_self, hab⟩
      · obtain ⟨b', hb', hR⟩ := ih.1 a' ha'
        exact ⟨b', List.mem_cons_of_mem _ hb', hR⟩
    · intro b' hb'
      rcases List.mem_cons.1 hb' with rfl | hb'
      · exact ⟨a, List.mem_cons_self, hab⟩
      · obtain ⟨a', ha', hR⟩ := ih.2 b' hb'
        exact ⟨a', List.mem_cons_of_mem _ ha', hR⟩

/-- A list of results has values exactly if every result has one. -/
theorem exists_mapM_iff {ε α β : Type} {f : α → Except ε β} {l : List α} :
    (∃ values, l.mapM f = .ok values) ↔ ∀ a ∈ l, ∃ b, f a = .ok b := by
  simp only [mapM_eq_ok_iff]
  induction l with
  | nil => exact ⟨fun _ _ h => absurd h List.not_mem_nil, fun _ => ⟨[], .nil⟩⟩
  | cons a l ih =>
    constructor
    · rintro ⟨values, h⟩
      cases h with
      | cons ha hl =>
        intro b hb
        rcases List.mem_cons.1 hb with rfl | hb
        · exact ⟨_, ha⟩
        · exact ih.1 ⟨_, hl⟩ b hb
    · intro h
      obtain ⟨b, hb⟩ := h a List.mem_cons_self
      obtain ⟨values, hvalues⟩ := ih.2 fun c hc => h c (List.mem_cons_of_mem _ hc)
      exact ⟨b :: values, .cons hb hvalues⟩

/-- A list of results is an error exactly if one of them is that error and all before it have values. -/
theorem mapM_eq_error_iff {ε α β : Type} {f : α → Except ε β} {l : List α} {e : ε} : l.mapM f = .error e ↔
    ∃ before a after, l = before ++ a :: after ∧ (∀ b ∈ before, ∃ v, f b = .ok v) ∧ f a = .error e := by
  induction l with
  | nil =>
    constructor
    · rintro ⟨⟩
    · rintro ⟨before, a, after, hl, -⟩
      exact absurd hl.symm (List.append_ne_nil_of_right_ne_nil _ (List.cons_ne_nil _ _))
  | cons a l ih =>
    have hsplit : (∃ before a' after, a :: l = before ++ a' :: after ∧ (∀ b ∈ before, ∃ v, f b = .ok v) ∧ f a' = .error e) ↔
        f a = .error e ∨ (∃ v, f a = .ok v) ∧ l.mapM f = .error e := by
      rw [ih]
      constructor
      · rintro ⟨before, a', after, hl, hbefore, ha'⟩
        cases before with
        | nil =>
          cases hl
          exact Or.inl ha'
        | cons b before =>
          cases hl
          obtain ⟨hok, hrest⟩ := List.forall_mem_cons.1 hbefore
          exact Or.inr ⟨hok, before, a', after, rfl, hrest, ha'⟩
      · rintro (ha | ⟨hok, before, a', after, rfl, hrest, ha'⟩)
        · exact ⟨[], a, l, rfl, fun _ h => absurd h List.not_mem_nil, ha⟩
        · exact ⟨a :: before, a', after, rfl, List.forall_mem_cons.2 ⟨hok, hrest⟩, ha'⟩
    rw [hsplit, List.mapM_cons]
    cases f a with
    | error e' =>
      constructor
      · rintro ⟨⟩
        exact Or.inl rfl
      · rintro (⟨⟨⟩⟩ | ⟨⟨v, ⟨⟩⟩, -⟩)
        rfl
    | ok v =>
      cases l.mapM f with
      | error e' =>
        constructor
        · rintro ⟨⟩
          exact Or.inr ⟨⟨v, rfl⟩, rfl⟩
        · rintro (⟨⟨⟩⟩ | ⟨-, ⟨⟩⟩)
          rfl
      | ok values =>
        constructor
        · rintro ⟨⟩
        · rintro (⟨⟨⟩⟩ | ⟨-, ⟨⟩⟩)

/-- Lists of results agree if the results do. -/
theorem mapM_congr {ε α β : Type} {f g : α → Except ε β} {l : List α} (h : ∀ a ∈ l, f a = g a) : l.mapM f = l.mapM g := by
  induction l with
  | nil => rfl
  | cons a l ih => rw [List.mapM_cons, List.mapM_cons, h a List.mem_cons_self, ih fun b hb => h b (List.mem_cons_of_mem _ hb)]

namespace Contents

/-- Values put into other cells do not matter. -/
theorem get?_foldl_put_of_not_mem {l : List (Address × Option Value)} (contents : Contents) {cell : Address}
    (h : ∀ entry ∈ l, entry.1 ≠ cell) :
    (l.foldl (fun contents entry => contents.put entry.1 entry.2) contents).get? cell = contents.get? cell := by
  induction l generalizing contents with
  | nil => rfl
  | cons entry rest ih =>
    rw [List.foldl_cons, ih _ fun other hother => h other (List.mem_cons_of_mem _ hother), get?_put, if_neg]
    exact fun hcell => h entry List.mem_cons_self hcell.symm

/-- Of values put in one after the other those in a cell decide over it, if they agree. -/
theorem get?_foldl_put {l : List (Address × Option Value)} (contents : Contents) {cell : Address} {value : Option Value}
    (h : ∀ entry ∈ l, entry.1 = cell → entry.2 = value) (hmem : (cell, value) ∈ l) :
    (l.foldl (fun contents entry => contents.put entry.1 entry.2) contents).get? cell = some value := by
  induction l generalizing contents with
  | nil => cases hmem
  | cons entry rest ih =>
    rw [List.foldl_cons]
    by_cases hrest : (cell, value) ∈ rest
    · exact ih _ (fun other hother => h other (List.mem_cons_of_mem _ hother)) hrest
    · obtain rfl : (cell, value) = entry := (List.mem_cons.1 hmem).resolve_right hrest
      rw [get?_foldl_put_of_not_mem, get?_put, if_pos rfl]
      rintro ⟨other, value'⟩ hother rfl
      obtain rfl : value' = value := h _ (List.mem_cons_of_mem _ hother) rfl
      exact hrest hother

end Contents

namespace Substitution

variable {leaves : Leaves} {grid : Grid} {contents : Contents}

/-- A cell with the value of its text. -/
def entry (leaves : Leaves) (cell : Address × String) : Except Error (Address × Option Value) :=
  (value leaves cell.1 cell.2).map fun value => (cell.1, value)

theorem entry_eq_ok_iff {cell : Address × String} {filled : Address × Option Value} :
    entry leaves cell = .ok filled ↔ filled.1 = cell.1 ∧ value leaves cell.1 cell.2 = .ok filled.2 := by
  obtain ⟨address, v⟩ := filled
  rw [entry]
  cases value leaves cell.1 cell.2 with
  | error e => exact ⟨nofun, fun h => nomatch h.2⟩
  | ok found =>
    constructor
    · rintro ⟨⟩
      exact ⟨rfl, rfl⟩
    · rintro ⟨rfl, ⟨⟩⟩
      rfl

theorem exists_entry_iff (leaves : Leaves) (cell : Address × String) :
    (∃ filled, entry leaves cell = .ok filled) ↔ ∃ v, value leaves cell.1 cell.2 = .ok v := by
  rw [entry, exists_map_iff]

/-- The contents of a grid are put together from its cells with their values. -/
theorem contents_eq (leaves : Leaves) (grid : Grid) : Substitution.contents leaves grid =
    (grid.cells.mapM (entry leaves)).map fun cells => cells.foldl (fun contents cell => Contents.put contents cell.1 cell.2) ∅ :=
  rfl

/-- There are contents exactly if every text has a value. -/
theorem exists_contents_iff :
    (∃ c, Substitution.contents leaves grid = .ok c) ↔
      ∀ cell text, grid.text? cell = some text → ∃ v, value leaves cell text = .ok v := by
  rw [contents_eq, exists_map_iff, exists_mapM_iff]
  simp only [exists_entry_iff, Prod.forall, Grid.mem_cells]

/-- The first cell whose text is an error is the error. -/
theorem contents_eq_error_iff {e : Error} : Substitution.contents leaves grid = .error e ↔
    ∃ cell text, grid.text? cell = some text ∧ value leaves cell text = .error e ∧
      ∀ other text', grid.text? other = some text' → other.Before cell → ∃ v, value leaves other text' = .ok v := by
  have hpairwise := grid.pairwise_cells
  rw [contents_eq, map_eq_error_iff, mapM_eq_error_iff]
  constructor
  · rintro ⟨before, ⟨cell, text⟩, after, hcells, hbefore, herror⟩
    rw [hcells] at hpairwise
    have hafter := (List.pairwise_cons.1 (List.pairwise_append.1 hpairwise).2.1).1
    refine ⟨cell, text, Grid.mem_cells.1 ?_, map_eq_error_iff.1 herror, ?_⟩
    · rw [hcells]
      exact List.mem_append_right _ List.mem_cons_self
    · intro other text' hother hlt
      -- A cell that comes before the error cannot be listed behind it.
      have hmem := Grid.mem_cells.2 hother
      rw [hcells, List.mem_append, List.mem_cons] at hmem
      rcases hmem with hmem | heq | hmem
      · exact (exists_entry_iff leaves (other, text')).1 (hbefore _ hmem)
      · cases heq
        unfold Address.Before at hlt
        omega
      · have hgt : cell.Before other := hafter _ hmem
        unfold Address.Before at hlt hgt
        omega
  · rintro ⟨cell, text, htext, herror, hfirst⟩
    obtain ⟨before, after, hcells⟩ := List.append_of_mem (Grid.mem_cells.2 htext)
    refine ⟨before, _, after, hcells, fun b hb => (exists_entry_iff leaves b).2 ?_, map_eq_error_iff.2 herror⟩
    rw [hcells] at hpairwise
    refine hfirst b.1 b.2 (Grid.mem_cells.1 ?_) ((List.pairwise_append.1 hpairwise).2.2 b hb _ List.mem_cons_self)
    rw [hcells]
    exact List.mem_append_left _ hb

/-- Every cell with a text holds the value of its text, and no other cell holds anything. -/
theorem get?_contents (h : Substitution.contents leaves grid = .ok contents) :
    (∀ cell text, grid.text? cell = some text → ∃ v, value leaves cell text = .ok v ∧ contents.get? cell = some v) ∧
      ∀ cell, grid.text? cell = none → contents.get? cell = none := by
  rw [contents_eq] at h
  cases hcells : grid.cells.mapM (entry leaves) with
  | error e =>
    rw [hcells] at h
    cases h
  | ok cells =>
    rw [hcells] at h
    cases h
    obtain ⟨hleft, hright⟩ := exists_of_mem_forall₂ (mapM_eq_ok_iff.1 hcells)
    -- What is put into a cell is the value of its text.
    have hfilled : ∀ filled ∈ cells, ∃ text, grid.text? filled.1 = some text ∧ value leaves filled.1 text = .ok filled.2 := by
      intro filled hmem
      obtain ⟨⟨cell, text⟩, hcell, heq⟩ := hright filled hmem
      obtain ⟨haddress, hvalue⟩ := entry_eq_ok_iff.1 heq
      rw [haddress]
      exact ⟨text, Grid.mem_cells.1 hcell, hvalue⟩
    constructor
    · intro cell text htext
      obtain ⟨⟨address, v⟩, hmem, heq⟩ := hleft (cell, text) (Grid.mem_cells.2 htext)
      obtain ⟨haddress, hvalue⟩ := entry_eq_ok_iff.1 heq
      obtain rfl : address = cell := haddress
      refine ⟨v, hvalue, Contents.get?_foldl_put ∅ ?_ hmem⟩
      rintro ⟨other, v'⟩ hother rfl
      obtain ⟨text', htext', hvalue'⟩ := hfilled _ hother
      rw [htext] at htext'
      cases htext'
      exact Except.ok.inj (hvalue'.symm.trans hvalue)
    · intro cell hnone
      rw [Contents.get?_foldl_put_of_not_mem]
      · rfl
      · rintro filled hmem rfl
        obtain ⟨text, htext, -⟩ := hfilled filled hmem
        rw [hnone] at htext
        cases htext

/-- The cells that are written are those with a text. -/
theorem isSome_get?_contents (h : Substitution.contents leaves grid = .ok contents) (cell : Address) :
    (contents.get? cell).isSome = (grid.text? cell).isSome := by
  cases htext : grid.text? cell with
  | none =>
    rw [(get?_contents h).2 cell htext]
    rfl
  | some text =>
    obtain ⟨v, -, hget⟩ := (get?_contents h).1 cell text htext
    rw [hget]
    rfl

variable {f g : Address → String → String}

/-- There are contents of replaced texts exactly if each of them has a value. -/
theorem exists_contents_mapCells_iff : (∃ c, Substitution.contents leaves (grid.mapCells f) = .ok c) ↔
    ∀ cell text, grid.text? cell = some text → ∃ v, value leaves cell (f cell text) = .ok v := by
  rw [exists_contents_iff]
  constructor
  · intro h cell text htext
    exact h cell (f cell text) (by rw [Grid.text?_mapCells, htext, Option.map_some])
  · intro h cell replaced hreplaced
    rw [Grid.text?_mapCells, Option.map_eq_some_iff] at hreplaced
    obtain ⟨text, htext, rfl⟩ := hreplaced
    exact h cell text htext

/-- A cell holds the value of what its text is replaced by. -/
theorem get?_contents_mapCells (h : Substitution.contents leaves (grid.mapCells f) = .ok contents) {cell : Address} {text : String}
    (htext : grid.text? cell = some text) : ∃ v, value leaves cell (f cell text) = .ok v ∧ contents.get? cell = some v :=
  (get?_contents h).1 cell (f cell text) (by rw [Grid.text?_mapCells, htext, Option.map_some])

/-- A cell holds the same if its text is replaced in the same way. -/
theorem get?_contents_congr {contents' : Contents} (h : Substitution.contents leaves (grid.mapCells f) = .ok contents)
    (h' : Substitution.contents leaves (grid.mapCells g) = .ok contents') {cell : Address} (hsame : f cell = g cell) :
    contents.get? cell = contents'.get? cell := by
  cases htext : grid.text? cell with
  | none =>
    rw [(get?_contents h).2 cell, (get?_contents h').2 cell]
    · rw [Grid.text?_mapCells, htext, Option.map_none]
    · rw [Grid.text?_mapCells, htext, Option.map_none]
  | some text =>
    obtain ⟨v, hv, hget⟩ := get?_contents_mapCells h htext
    obtain ⟨v', hv', hget'⟩ := get?_contents_mapCells h' htext
    rw [hsame] at hv
    obtain rfl := Except.ok.inj (hv.symm.trans hv')
    rw [hget, hget']

/-- Where the texts of some cells are kept and the others are replaced, there are contents exactly if the kept ones have values. -/
theorem exists_contents_kept_iff {kept : Address → Bool} (h : Substitution.contents leaves (grid.mapCells f) = .ok contents) :
    (∃ c, Substitution.contents leaves (grid.mapCells fun cell text => if kept cell then text else f cell text) = .ok c) ↔
      ∀ cell text, kept cell = true → grid.text? cell = some text → ∃ v, value leaves cell text = .ok v := by
  rw [exists_contents_mapCells_iff]
  constructor
  · intro hvalues cell text hkept htext
    obtain ⟨v, hv⟩ := hvalues cell text htext
    rw [hkept, if_pos rfl] at hv
    exact ⟨v, hv⟩
  · intro hvalues cell text htext
    cases hkept : kept cell with
    | true => exact hvalues cell text hkept htext
    | false =>
      obtain ⟨v, hv, -⟩ := get?_contents_mapCells h htext
      exact ⟨v, hv⟩

/-- Where the texts of some cells are kept and the others are replaced, the kept ones are filled with their values and the others as they
are where all are replaced. -/
theorem get?_contents_kept {kept : Address → Bool} {contents' : Contents}
    (h : Substitution.contents leaves (grid.mapCells f) = .ok contents)
    (h' : Substitution.contents leaves (grid.mapCells fun cell text => if kept cell then text else f cell text) = .ok contents') :
    (∀ cell, kept cell = false → contents'.get? cell = contents.get? cell) ∧
      ∀ cell text, kept cell = true → grid.text? cell = some text →
        ∃ v, value leaves cell text = .ok v ∧ contents'.get? cell = some v := by
  constructor
  · intro cell hkept
    refine get?_contents_congr h' h ?_
    funext text
    rw [hkept]
    rfl
  · intro cell text hkept htext
    obtain ⟨v, hv, hget⟩ := get?_contents_mapCells h' htext
    rw [hkept, if_pos rfl] at hv
    exact ⟨v, hv, hget⟩

/-- Texts with the same values have the same contents. -/
theorem contents_mapCells_congr
    (h : ∀ cell text, grid.text? cell = some text → value leaves cell (f cell text) = value leaves cell (g cell text)) :
    Substitution.contents leaves (grid.mapCells f) = Substitution.contents leaves (grid.mapCells g) := by
  have hcells : ∀ cell ∈ grid.cells, entry leaves (cell.1, f cell.1 cell.2) = entry leaves (cell.1, g cell.1 cell.2) := by
    rintro ⟨cell, text⟩ hcell
    rw [entry, entry, h cell text (Grid.mem_cells.1 hcell)]
  rw [contents_eq, contents_eq, Grid.cells_mapCells, Grid.cells_mapCells, List.mapM_map, List.mapM_map]
  exact congrArg (Except.map _) (mapM_congr hcells)

end Substitution
end SheetTemplate

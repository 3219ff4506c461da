import SheetTemplate.Template.Reading
import SheetTemplate.Proofs.CellContents
import SheetTemplate.Proofs.Spellings
import SheetTemplate.Proofs.WrittenDocuments

/-!
# Templates read back

A template is read back from its JSON text (`Template.template_read_back`), whichever library writes and reads the text, as long as it reads
back what it writes (`Template.Codec.Inverse`): texts under keys, in objects, and the ranges in an array. The writer and the reader of this
project are such a library (`Template.jsonCodec_inverse`).

What the library gives back is put into an empty grid, rows and cells in the order of their keys as texts, which is not the order of the
grid. `SortedMap.Filling` is what the loop over the rows and the one over the cells of a row keep: what was put in are entries of the
whole, and those that are missing are still to come. No entry takes the place of another, because rows and columns are read back from
their keys.
-/

namespace SheetTemplate

/-! ## Maps put together in another order -/

namespace SortedMap

variable {κ ν ι β : Type} [Ord κ] [Std.TransOrd κ] [Std.LawfulEqOrd κ]

omit [Std.TransOrd κ] in
/-- Entries whose keys are read back are told apart by these. -/
theorem eq_of_read {whole : SortedMap κ ν} {spell : κ × ν → ι × β} {read : ι → Option κ}
    (hread : ∀ e ∈ whole.entries, read (spell e).1 = some e.1) {e other : κ × ν} (he : e ∈ whole.entries)
    (hother : other ∈ whole.entries) (h : (spell e).1 = (spell other).1) : e = other := by
  obtain ⟨k, v⟩ := e
  obtain ⟨k', v'⟩ := other
  have hkey : k = k' := Option.some.inj ((hread _ he).symm.trans ((congrArg read h).trans (hread _ hother)))
  subst hkey
  have hvalue := (get?_eq_some_iff _ _ _).2 he
  rw [(get?_eq_some_iff _ _ _).2 hother] at hvalue
  rw [Option.some.inj hvalue]

omit [Std.TransOrd κ] in
/-- Entries whose keys are read back have different keys as they are spelled. -/
theorem nodup_map_of_read {whole : SortedMap κ ν} {spell : κ × ν → ι × β} (read : ι → Option κ)
    (hread : ∀ e ∈ whole.entries, read (spell e).1 = some e.1) : (whole.entries.map fun e => (spell e).1).Nodup := by
  refine List.Nodup.map_on (fun e he other hother h => eq_of_read hread he hother h) ?_
  refine whole.sorted.imp ?_
  rintro e other hlt rfl
  have heq : compare e.1 e.1 = .eq := Std.ReflCmp.compare_self
  rw [heq] at hlt
  cases hlt

/-- A part of a map, with what is left to be put in: entries of the whole as they are spelled, all that are missing among them. -/
structure Filling (spell : κ × ν → ι × β) (whole part : SortedMap κ ν) (left : List (ι × β)) : Prop where
  within : ∀ k v, part.get? k = some v → whole.get? k = some v
  spelled : ∀ field ∈ left, ∃ e ∈ whole.entries, spell e = field
  missing : ∀ e ∈ whole.entries, part.get? e.1 = some e.2 ∨ spell e ∈ left

namespace Filling

variable {spell : κ × ν → ι × β} {read : ι → Option κ} {whole part : SortedMap κ ν} {left : List (ι × β)}

omit [Std.TransOrd κ] in
/-- All entries are left, in the order of their keys as they are spelled. -/
theorem start [Ord ι] [Std.TransOrd ι] [Std.LawfulEqOrd ι] (hread : ∀ e ∈ whole.entries, read (spell e).1 = some e.1)
    (hpart : ∀ k v, part.get? k = some v → whole.get? k = some v) :
    Filling spell whole part (ofList (whole.entries.map spell)).entries := by
  have hmem : ∀ field, field ∈ (ofList (whole.entries.map spell)).entries ↔ ∃ e ∈ whole.entries, spell e = field := by
    intro field
    rw [mem_entries_ofList, List.mem_map]
    simp only [List.forall_mem_map]
    intro e he other hother h
    rw [eq_of_read hread he hother h]
  exact ⟨hpart, fun field => (hmem field).1, fun e he => Or.inr ((hmem _).2 ⟨e, he, rfl⟩)⟩

/-- One more entry is put in. -/
theorem insert (hread : ∀ e ∈ whole.entries, read (spell e).1 = some e.1) {e : κ × ν} (he : e ∈ whole.entries)
    (h : Filling spell whole part (spell e :: left)) : Filling spell whole (part.insert e.1 e.2) left where
  within k v hget := by
    rw [get?_insert] at hget
    split at hget
    · next hk =>
      cases hget
      rw [Std.LawfulEqOrd.eq_of_compare hk]
      exact (get?_eq_some_iff _ _ _).2 he
    · exact h.within k v hget
  spelled field hfield := h.spelled field (List.mem_cons_of_mem _ hfield)
  missing other hother := by
    rcases h.missing other hother with hthere | hleft
    · -- The new entry is not another one with the same key.
      rw [get?_insert]
      split
      · next hk =>
        have hwhole := h.within _ _ hthere
        rw [Std.LawfulEqOrd.eq_of_compare hk, (get?_eq_some_iff _ _ _).2 he] at hwhole
        exact Or.inl hwhole
      · exact Or.inl hthere
    · rcases List.mem_cons.1 hleft with hspell | hleft
      · rw [eq_of_read hread hother he (congrArg Prod.fst hspell), get?_insert, if_pos Std.ReflCmp.compare_self]
        exact Or.inl rfl
      · exact Or.inr hleft

/-- With nothing left the part is the whole. -/
theorem eq_whole (h : Filling spell whole part []) : part = whole := by
  apply ext_get?
  intro k
  apply Option.ext
  intro v
  constructor
  · exact h.within k v
  · intro hget
    exact (h.missing (k, v) ((get?_eq_some_iff _ _ _).1 hget)).resolve_right List.not_mem_nil

end Filling
end SortedMap

/-! ## Grids -/

theorem Column.ofText?_text (c : Column) : ofText? c.text = some c := by
  rw [ofText?, text, String.toList_ofList, ofChars?_letters]

namespace Grid

/-- A row is read back from its key. -/
theorem rowOfKey?_rowKey {row : Nat} (h : row ≤ lastRow) : rowOfKey? (Template.rowKey row) = some row := by
  have hdigits : ∀ c ∈ Text.digits row, c.isDigit = true := List.all_eq_true.1 (Text.all_isDigit_digits row)
  rw [rowOfKey?, Template.rowKey, String.toList_ofList, Text.trimChars_of_isAlphanum fun c hc => Text.isAlphanum_of_isDigit (hdigits c hc)]
  split
  · next digits heq =>
    have hplus := hdigits '+' (by rw [heq]; exact List.mem_cons_self)
    exact absurd hplus (by decide)
  · exact Text.number?_digits h

/-- A cell as a value under the key of its column. -/
def cellField (cell : Column × String) : String × Json := (cell.1.text, .string cell.2)

/-- A row as values by keys under its own key. -/
def rowField (row : Nat × Line) : String × SortedMap String Json :=
  (Template.rowKey row.1, SortedMap.ofList (row.2.entries.map cellField))

theorem read_rowField {grid : Grid} (hrows : ∀ row ∈ grid.keys, row ≤ lastRow) :
    ∀ row ∈ grid.entries, rowOfKey? (rowField row).1 = some row.1 :=
  fun row hrow => rowOfKey?_rowKey (hrows row.1 (List.mem_map_of_mem hrow))

theorem read_cellField {line : Line} : ∀ cell ∈ line.entries, Column.ofText? (cellField cell).1 = some cell.1 :=
  fun cell _ => Column.ofText?_text cell.1

variable {spell : Json → String}

/-- Cells that are left are put into their row. -/
theorem putCells_of_filling {line part : Line} {left : List (String × Json)} (h : SortedMap.Filling cellField line part left) :
    putCells spell part left = .ok line := by
  induction left generalizing part with
  | nil => rw [putCells, h.eq_whole]
  | cons field left ih =>
    obtain ⟨cell, hcell, rfl⟩ := h.spelled field List.mem_cons_self
    have hread := read_cellField cell hcell
    simp only [cellField] at hread
    simp only [cellField, putCells, hread, textOfJson?]
    exact ih (h.insert read_cellField hcell)

/-- Rows that are left are put into their grid. -/
theorem putRows_of_filling {grid part : Grid} {left : List (String × SortedMap String Json)}
    (hrows : ∀ row ∈ grid.keys, row ≤ lastRow) (h : SortedMap.Filling rowField grid part left) : putRows spell part left = .ok grid := by
  induction left generalizing part with
  | nil => rw [putRows, h.eq_whole]
  | cons field left ih =>
    obtain ⟨row, hrow, rfl⟩ := h.spelled field List.mem_cons_self
    have hpart : ∀ column text, (part.line row.1).get? column = some text → row.2.get? column = some text := by
      intro column text hget
      rw [line] at hget
      cases hthere : part.get? row.1 with
      | none =>
        rw [hthere] at hget
        cases hget
      | some there =>
        have hwhole := h.within _ _ hthere
        rw [(SortedMap.get?_eq_some_iff _ _ _).2 hrow] at hwhole
        cases hwhole
        rwa [hthere] at hget
    have hline : putCells spell (part.line row.1) (rowField row).2.entries = .ok row.2 :=
      putCells_of_filling (SortedMap.Filling.start read_cellField hpart)
    have hkey := read_rowField hrows row hrow
    rw [putRows, hkey]
    simp only [hline]
    exact ih (h.insert (read_rowField hrows) hrow)

end Grid

namespace Template

/-- The values of texts by keys; of several under one key the last. -/
def rawGrid (rows : List (String × List (String × String))) : RawGrid :=
  SortedMap.ofList (rows.map fun row => (row.1, SortedMap.ofList (row.2.map fun cell => (cell.1, Json.string cell.2))))

variable {template : Template}

/-- The grid of a template is made of its texts by keys, whatever values that are no strings would become. -/
theorem ofRaw_rawGrid (spell : Json → String) (hrows : ∀ row ∈ template.grid.keys, row ≤ lastRow) :
    Grid.ofRaw spell (rawGrid template.rows) = .ok template.grid := by
  have hraw : rawGrid template.rows = SortedMap.ofList (template.grid.entries.map Grid.rowField) := by
    simp only [rawGrid, rows, List.map_map]
    refine congrArg SortedMap.ofList (List.map_congr_left fun row _ => ?_)
    simp only [Function.comp_apply, List.map_map, Grid.rowField]
    rfl
  rw [Grid.ofRaw, hraw]
  exact Grid.putRows_of_filling hrows (SortedMap.Filling.start (Grid.read_rowField hrows) nofun)

/-- Different rows have different keys, and so have the columns of a row. -/
theorem nodup_keys (hrows : ∀ row ∈ template.grid.keys, row ≤ lastRow) :
    (template.rows.map Prod.fst).Nodup ∧ ∀ row ∈ template.rows, (row.2.map Prod.fst).Nodup := by
  constructor
  · rw [rows, List.map_map]
    exact SortedMap.nodup_map_of_read Grid.rowOfKey? (Grid.read_rowField hrows)
  · rintro _ hrow
    obtain ⟨row, -, rfl⟩ := List.mem_map.1 hrow
    rw [List.map_map]
    exact SortedMap.nodup_map_of_read Column.ofText? Grid.read_cellField

end Template

/-! ## Fields and items -/

/-- A list of results that are all values is the list of the values. -/
theorem mapM_map_eq_ok {ε α β γ : Type} {f : β → Except ε γ} {g : α → β} {h : α → γ} {l : List α} (hf : ∀ a ∈ l, f (g a) = .ok (h a)) :
    (l.map g).mapM f = .ok (l.map h) := by
  rw [mapM_eq_ok_iff, List.forall₂_map_left_iff, List.forall₂_map_right_iff, List.forall₂_same]
  exact hf

namespace Document

/-- The fields of an object whose values can all be read. -/
theorem fieldsOf_object {α β : Type} {f : Document → Except Fault β} {key : α → String} {document : α → Document} {value : α → β}
    {items : List α} (h : ∀ a ∈ items, f (document a) = .ok (value a)) :
    (Document.object (items.map fun a => (some (key a), document a)) true).fieldsOf f = .ok (items.map fun a => (key a, value a)) := by
  rw [fieldsOf, mapM_map_eq_ok (h := fun a => (key a, value a))]
  · rfl
  · intro a ha
    simp only [h a ha]
    rfl

/-- The strings of an array of strings. -/
theorem texts_array (l : List String) : (Document.array (l.map fun s => .string (some s)) true).texts = .ok l := by
  have htexts : (l.map fun s => Document.string (some s)).mapM text = .ok (l.map id) := mapM_map_eq_ok fun _ _ => rfl
  rw [texts, htexts, List.map_id]
  rfl

end Document

/-! ## Libraries -/

namespace Template

/-- A library reads back what it writes. Of texts under different keys it gives back the same texts as values under these keys, from which
the grid is made, and of ranges the same ranges. -/
structure Codec.Inverse (codec : Codec) : Prop where
  read_write : ∀ rows merges, (rows.map Prod.fst).Nodup → (∀ row ∈ rows, (row.2.map Prod.fst).Nodup) → ∀ decode grid,
    decode (rawGrid rows) = .ok grid → codec.read decode (codec.write rows merges) = .ok ⟨grid, merges⟩

section

variable (rows : List (String × List (String × String))) (merges : List String)

/-- Texts by keys as a document. -/
def gridDocument : Document :=
  .object (rows.map fun row => (some row.1, .object (row.2.map fun cell => (some cell.1, .string (some cell.2))) true)) true

/-- Texts by keys and ranges as a document. -/
def treeDocument : Document :=
  .object [(some "values", gridDocument rows), (some "mergeCells", .array (merges.map fun s => .string (some s)) true)] true

/-- The text of a JSON form spells its document. -/
theorem spells_tree : Document.Spells (tree rows merges).chars (treeDocument rows merges) := by
  have hline : ∀ row : String × List (String × String), Document.Spells (Json.object (row.2.map fun cell => (cell.1, .string cell.2))).chars
      (.object (row.2.map fun cell => (some cell.1, .string (some cell.2))) true) :=
    fun row => Document.spells_object fun cell _ => Document.spells_string cell.2
  have hvalues : Document.Spells
      (Json.object (rows.map fun row => (row.1, .object (row.2.map fun cell => (cell.1, .string cell.2))))).chars (gridDocument rows) :=
    Document.spells_object fun row _ => hline row
  have hmerges : Document.Spells (Json.array (merges.map .string)).chars (.array (merges.map fun s => .string (some s)) true) :=
    Document.spells_array fun s _ => Document.spells_string s
  let fields : List (String × Json × Document) :=
    [("values", .object (rows.map fun row => (row.1, .object (row.2.map fun cell => (cell.1, .string cell.2)))), gridDocument rows),
      ("mergeCells", .array (merges.map .string), .array (merges.map fun s => .string (some s)) true)]
  have hfields : ∀ field ∈ fields, Document.Spells field.2.1.chars field.2.2 :=
    List.forall_mem_cons.2 ⟨hvalues, List.forall_mem_cons.2 ⟨hmerges, List.forall_mem_nil _⟩⟩
  have hobject : Document.Spells (Json.object (fields.map fun field => (field.1, field.2.1))).chars
      (.object (fields.map fun field => (some field.1, field.2.2)) true) := Document.spells_object hfields
  exact hobject

/-- Texts by keys are read back from their document. -/
theorem rawGrid_gridDocument : (gridDocument rows).rawGrid = .ok (rawGrid rows) := by
  have hline : ∀ row : String × List (String × String),
      (Document.object (row.2.map fun cell => (some cell.1, .string (some cell.2))) true).fieldsOf (Document.json 3) =
        .ok (row.2.map fun cell => (cell.1, .string cell.2)) := fun row => Document.fieldsOf_object fun _ _ => rfl
  have hfields : (gridDocument rows).fieldsOf (fun row => do
      let cells ← row.fieldsOf (Document.json 3)
      return SortedMap.ofList cells) =
        .ok (rows.map fun row => (row.1, SortedMap.ofList (row.2.map fun cell => (cell.1, .string cell.2)))) := by
    refine Document.fieldsOf_object fun row _ => ?_
    rw [hline]
    rfl
  rw [Document.rawGrid, hfields]
  rfl

end

theorem Fields.takeAll_cons {decode : RawGrid → Except Fault Grid} {fields more : Fields} {key : String} {value : Document}
    {rest : List (Option String × Document)} (h : fields.take decode key value = .ok more) :
    fields.takeAll decode ((some key, value) :: rest) = more.takeAll decode rest := by
  simp only [takeAll, Document.key]
  exact congrArg (fun taken => taken >>= fun fields => takeAll decode fields rest) h

/-- A template is read back from its document. -/
theorem ofDocument_treeDocument {rows : List (String × List (String × String))} {merges : List String}
    {decode : RawGrid → Except Fault Grid} {grid : Grid} (h : decode (rawGrid rows) = .ok grid) :
    ofDocument decode (treeDocument rows merges) = .ok ⟨grid, merges⟩ := by
  have hvalues : Fields.empty.take decode "values" (gridDocument rows) = .ok ⟨some grid, none⟩ := by
    rw [Fields.take, if_pos rfl, rawGrid_gridDocument]
    change (do let _ ← Document.require true _; let grid ← decode (rawGrid rows); pure (Fields.mk (some grid) none)) = _
    rw [h]
    rfl
  have hmerges : Fields.take decode ⟨some grid, none⟩ "mergeCells" (.array (merges.map fun s => .string (some s)) true) =
      .ok ⟨some grid, some merges⟩ := by
    rw [Fields.take, if_neg (by decide), if_pos rfl, Document.texts_array]
    rfl
  have hfields : Fields.empty.takeAll decode [(some "values", gridDocument rows),
      (some "mergeCells", .array (merges.map fun s => .string (some s)) true)] = .ok ⟨some grid, some merges⟩ := by
    rw [Fields.takeAll_cons hvalues, Fields.takeAll_cons hmerges, Fields.takeAll]
  rw [treeDocument, ofDocument, hfields]
  rfl

/-- The writer and the reader of JSON documents read back what they write. -/
theorem jsonCodec_inverse : jsonCodec.Inverse where
  read_write rows merges _ _ decode grid h := by
    have hread : Document.read (tree rows merges).text = (treeDocument rows merges, true) := Document.read_of_spells (spells_tree rows merges)
    simp only [jsonCodec, hread, ofDocument_treeDocument h]
    rfl

/-! ## Templates -/

/-- A template is read back from its JSON text: all texts at their rows and columns, rows without cells, and the merged ranges as they were
written, whether or not they can be read. -/
theorem template_read_back {codec : Codec} (hinverse : codec.Inverse) (template : Template)
    (hrows : ∀ row ∈ template.grid.keys, row ≤ lastRow) : readBy codec (textBy codec template) = .ok template := by
  obtain ⟨hkeys, hcolumns⟩ := nodup_keys hrows
  exact hinverse.read_write template.rows template.merges hkeys hcolumns _ _ (ofRaw_rawGrid codec.spell hrows)

/-- A template with row 0 and the last row, a row without cells, columns and rows that are sorted otherwise than their keys, characters that
are escaped, and ranges that cannot be read. -/
def mixed : Template where
  grid := .ofList [(2, .ofList [(Column.first.offset 26, "\"\\/\n\x01\u00e9"), (Column.first.offset 2, "[*name]")]),
    (10, ∅), (0, .ofList [(.first, "")]), (lastRow, .ofList [(Column.first.offset lastColumn, "null")])]
  merges := ["A1:B2", "no range", ""]

theorem mixed_read_back :
    jsonCodec.Inverse ∧ (∀ row ∈ mixed.grid.keys, row ≤ lastRow) ∧ readBy jsonCodec (textBy jsonCodec mixed) = .ok mixed :=
  ⟨jsonCodec_inverse, by decide, template_read_back jsonCodec_inverse mixed (by decide)⟩

end Template
end SheetTemplate

import Mathlib.Data.List.Perm.Basic
import SheetTemplate.Proofs.Walk

/-!
# The order of merges

A layout asks of the merges of a template only which of them begin in a cell (`areasFrom`), which rows they begin and end in, and where each of
them comes to stand. If no two merges begin in the same cell, none of this depends on their order (`areasFrom_perm`), so the list may be given
in any order (`merges_in_any_order`). With two merges on one cell the first one within the row would count for the copies beside it.
-/

namespace SheetTemplate

variable {areas areas' : List Area}

/-! ## Merges that begin in a cell -/

/-- Of merges that begin in different cells at most one begins in a cell, in whatever order they are. -/
theorem areasFrom_perm (hanchors : (areas.map Area.anchor).Nodup) (hperm : areas'.Perm areas) (cell : Address) :
    areasFrom areas' cell = areasFrom areas cell := by
  have hfrom : (areasFrom areas' cell).Perm (areasFrom areas cell) := hperm.filter _
  have hanchor : ∀ area ∈ areasFrom areas cell, area.anchor = cell := by
    intro area harea
    exact of_decide_eq_true (List.mem_filter.1 harea).2
  have hdistinct : ((areasFrom areas cell).map Area.anchor).Nodup := hanchors.sublist (List.filter_sublist.map _)
  match hlist : areasFrom areas cell with
  | [] => rwa [hlist, List.perm_nil] at hfrom
  | [area] => rwa [hlist, List.perm_singleton] at hfrom
  | area :: other :: rest =>
    rw [hlist] at hanchor hdistinct
    have hsame : area.anchor = other.anchor :=
      (hanchor area (by simp)).trans (hanchor other (by simp)).symm
    simp [hsame] at hdistinct

theorem areasFrom_append (areas others : List Area) (cell : Address) :
    areasFrom (areas ++ others) cell = areasFrom areas cell ++ areasFrom others cell :=
  List.filter_append ..

/-! ## Rows -/

section

variable (hcells : ∀ cell, areasFrom areas' cell = areasFrom areas cell)
include hcells

theorem Widening.ofLine?_congr (row : Nat) (line : Line) (r : Repetition) :
    Widening.ofLine? areas' row line r = Widening.ofLine? areas row line r := by
  simp only [Widening.ofLine?, hcells]

theorem Stacking.height_congr (row : Nat) (line : Line) : Stacking.height areas' row line = Stacking.height areas row line := by
  simp only [Stacking.height, hcells]

theorem Stacking.ofLine_congr (row : Nat) (line : Line) (copies stride : Nat) :
    Stacking.ofLine areas' row line copies stride = Stacking.ofLine areas row line copies stride := by
  simp only [Stacking.ofLine, Stacking.copied, hcells]

/-- A row expands alike with any merges of which the same ones begin in each cell. -/
theorem Expansion.ofLine_congr (block : Block) (row : Nat) (line : Line) (r : Repetition) :
    Expansion.ofLine areas' block row line r = Expansion.ofLine areas block row line r := by
  have hmore : ∀ (more : List Area) (cell : Address), areasFrom (areas' ++ more) cell = areasFrom (areas ++ more) cell := by
    intro more cell
    rw [areasFrom_append, areasFrom_append, hcells]
  simp only [Expansion.ofLine, Widening.ofLine?_congr hcells, Stacking.height_congr (hmore _), Stacking.ofLine_congr (hmore _)]

namespace Layout

theorem step_congr (leaves : Leaves) (row : Nat) (line : Line) (cursor : Cursor) :
    step leaves areas' row line cursor = step leaves areas row line cursor := by
  simp only [step, Expansion.ofLine_congr hcells]

theorem walk_congr (leaves : Leaves) (grid : Grid) (rows : List Nat) (cursor : Cursor) :
    walk leaves areas' grid rows cursor = walk leaves areas grid rows cursor := by
  induction rows generalizing cursor with
  | nil => rfl
  | cons row rest ih => simp only [walk, step_congr hcells, ih]

end Layout
end

/-! ## Layouts -/

namespace Layout

theorem pairwise_usedRows (areas : List Area) (grid : Grid) : (usedRows areas grid).Pairwise (· < ·) := by
  obtain ⟨first, stop, -, hused, -⟩ := usedRows_eq areas grid
  rw [hused]
  exact List.pairwise_lt_range'

/-- The used rows are the same for merges in any order. -/
theorem usedRows_perm (hperm : areas'.Perm areas) (grid : Grid) : usedRows areas' grid = usedRows areas grid := by
  have hrows : ∀ row, (row ∈ grid.keys ++ areas'.flatMap fun area => [area.top, area.bottom]) ↔
      row ∈ grid.keys ++ areas.flatMap fun area => [area.top, area.bottom] := by
    intro row
    exact ((hperm.flatMap_right _).append_left _).mem_iff
  have hused : (usedRows areas' grid).Perm (usedRows areas grid) := by
    rw [List.perm_ext_iff_of_nodup (pairwise_usedRows areas' grid).nodup (pairwise_usedRows areas grid).nodup]
    intro row
    simp only [mem_usedRows, hrows]
  -- Both lists go up, so they can only be the same.
  refine List.Perm.eq_of_pairwise ?_ (pairwise_usedRows areas' grid) (pairwise_usedRows areas grid) hused
  intro a b _ _ hab hba
  exact absurd hba (Nat.lt_asymm hab)

/-- The rows are laid out alike for merges in any order. -/
theorem ofTemplate_perm (hanchors : (areas.map Area.anchor).Nodup) (hperm : areas'.Perm areas) (leaves : Leaves) (grid : Grid) :
    ofTemplate leaves areas' grid = ofTemplate leaves areas grid := by
  simp only [ofTemplate, usedRows_perm hperm, walk_congr (areasFrom_perm hanchors hperm)]

/-- The merges of the sheet are the same for those of the template in any order, and nothing else depends on them. -/
theorem scaffold_perm (hperm : areas'.Perm areas) (layout : Layout) : layout.scaffold areas' = layout.scaffold areas := by
  have hareas : SortedSet.ofMembers (layout.strips.flatMap (·.areas) ++ areas'.filterMap layout.place?) =
      SortedSet.ofMembers (layout.strips.flatMap (·.areas) ++ areas.filterMap layout.place?) :=
    SortedSet.ofMembers_congr fun _ => ((hperm.filterMap _).append_left _).mem_iff
  rw [scaffold, hareas, scaffold]

/-- The order of the merges does not matter. For every grid, payload and list of merges that begin in different cells, and every order of this
list, the template is refused with the same error, or it gives the same texts at the same rows, the same row actions and merges, and the same
copies of styles, formats and widths in the same order. -/
theorem merges_in_any_order (hanchors : (areas.map Area.anchor).Nodup) (hperm : areas'.Perm areas) (leaves : Leaves) (grid : Grid) :
    ((ofTemplate leaves areas' grid).map fun layout => (layout.grid, layout.scaffold areas')) =
      (ofTemplate leaves areas grid).map fun layout => (layout.grid, layout.scaffold areas) := by
  rw [ofTemplate_perm hanchors hperm]
  simp only [scaffold_perm hperm]

namespace Sample

/-- The merge of the sample block, one beside it, and one that makes the copies across two columns wide. -/
def mergesBeside : List Area :=
  [Area.between ⟨columnA, 4⟩ ⟨columnA, 5⟩, Area.between ⟨columnB, 4⟩ ⟨columnC, 4⟩, Area.between ⟨columnA, 3⟩ ⟨columnB, 3⟩]

end Sample

/-- The sample has a layout with more merges, and it is the same in the opposite order. -/
theorem merges_in_opposite_order :
    (Sample.mergesBeside.map Area.anchor).Nodup ∧ Sample.mergesBeside.reverse.Perm Sample.mergesBeside ∧
    (∃ layout, ofTemplate Sample.data Sample.mergesBeside Sample.texts = .ok layout) ∧
    ((ofTemplate Sample.data Sample.mergesBeside.reverse Sample.texts).map fun layout =>
        (layout.grid, layout.scaffold Sample.mergesBeside.reverse)) =
      (ofTemplate Sample.data Sample.mergesBeside Sample.texts).map fun layout =>
        (layout.grid, layout.scaffold Sample.mergesBeside) := by
  have hanchors : (Sample.mergesBeside.map Area.anchor).Nodup := by decide +kernel
  have hperm : Sample.mergesBeside.reverse.Perm Sample.mergesBeside := List.reverse_perm _
  obtain ⟨layout, hlayout, -⟩ := exists_ok_of_any (show (ofTemplate Sample.data Sample.mergesBeside Sample.texts).toOption.any
    (fun layout => layout.fate? 5 = some (.placed 5 1 2)) = true by decide +kernel)
  exact ⟨hanchors, hperm, ⟨layout, hlayout⟩, merges_in_any_order hanchors hperm Sample.data Sample.texts⟩

end Layout
end SheetTemplate

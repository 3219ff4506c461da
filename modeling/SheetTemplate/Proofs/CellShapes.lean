import SheetTemplate.Compile
import SheetTemplate.Proofs.SplicedTexts
import SheetTemplate.Proofs.Walk

/-!
# What cells hold

A plan writes the cells of the sheet as it is laid out and its formulas set right, and no others. What it writes has one of a few shapes
(`Value.FitsCell`): a cell is cleared or gets a boolean, a number, a callback, or a text that is not empty and has no blanks around it.
Lists and maps of a payload have their elements under longer paths and never stand at the end of one, so no marker takes one over; a null
and a blank text clear the cell, and a text that takes values in is trimmed once they are in.
-/

namespace SheetTemplate

/-- A value that a cell may hold. -/
inductive Value.FitsCell : Value → Prop
  | bool (b : Bool) : FitsCell (.bool b)
  | int (n : Int) : FitsCell (.int n)
  | float (x : Binary64) : FitsCell (.float x)
  | callable (call : Address → Value) : FitsCell (.callable call)
  | text {s : String} (hne : s ≠ "") (htrim : Text.trim s = s) : FitsCell (.text s)

namespace Substitution

variable {payload v w : Value} {cell : Address} {text s : String}

/-- A trimmed text fits unless it is empty, and then the cell is cleared. -/
theorem fitsCell_of_nonEmpty? (h : nonEmpty? (Text.trim s) = some v) : v.FitsCell := by
  rw [nonEmpty?] at h
  split at h
  · cases h
  · next hne =>
    cases h
    exact .text hne (Text.trim_trim s)

/-- What a cell takes over from the end of a path fits. -/
theorem fitsCell_of_taken? (hleaf : v.isLeaf = true) (h : taken? v = some w) : w.FitsCell := by
  cases v with
  | list | map => cases hleaf
  | null => cases h
  | bool b =>
    cases h
    exact .bool b
  | int n =>
    cases h
    exact .int n
  | float x =>
    cases h
    exact .float x
  | callable call =>
    cases h
    exact .callable call
  | text s => exact fitsCell_of_nonEmpty? h

/-- Whatever becomes of a text, the value fits its cell. -/
theorem fitsCell_of_value (h : value (.ofValue payload) cell text = .ok (some v)) : v.FitsCell := by
  by_cases hmet : ConditionsMet (.ofValue payload) text
  · by_cases htaken : TakesValue (.ofValue payload) (stripped text)
    · obtain ⟨m, found, hwhole, hget⟩ := htaken
      rw [value_of_whole hmet hwhole hget] at h
      exact fitsCell_of_taken? (Leaves.isLeaf_of_get? hget) (Except.ok.inj h)
    · rw [value_of_not_takesValue hmet htaken] at h
      cases hreplaced : Marker.tryReplace (spliced (.ofValue payload) cell) (stripped text) with
      | error e =>
        rw [hreplaced] at h
        cases h
      | ok replaced =>
        rw [hreplaced] at h
        exact fitsCell_of_nonEmpty? (Except.ok.inj h)
  · rw [value_of_not_conditionsMet hmet] at h
    cases h

/-- What is put into a cell, if it is not cleared, fits. -/
theorem fitsCell_of_get?_contents {grid : Grid} {c : Contents} (h : contents (.ofValue payload) grid = .ok c)
    (hget : c.get? cell = some (some v)) : v.FitsCell := by
  have hsome : (grid.text? cell).isSome = true := by
    rw [← isSome_get?_contents h, hget]
    rfl
  obtain ⟨text, htext⟩ := Option.isSome_iff_exists.1 hsome
  obtain ⟨found, hvalue, hfound⟩ := (get?_contents h).1 cell text htext
  obtain rfl := Option.some.inj (hget.symm.trans hfound)
  exact fitsCell_of_value hvalue

end Substitution

namespace Template

/-- The cells of a plan. Where a template and a payload give a plan, it is that of the rows laid out for the template with its short paths
resolved; with the formulas of these rows set right for the row actions and merged areas of the plan, the cells that the plan writes are
exactly those that have a text, and each of them is cleared or holds a value that fits. -/
theorem written_cells_fit {template : Template} {payload : Value} {plan : Plan} (h : template.compile payload = .ok plan) :
    ∃ areas layout, template.areas = .ok areas ∧
      Layout.ofTemplate (.ofValue payload) areas (resolve (.ofValue payload) template.grid) = .ok layout ∧
      plan.toScaffold = layout.scaffold areas ∧
      (∀ cell, plan.writes cell = true ↔ ∃ text, (Formula.rebase plan.rows plan.areas layout.grid).text? cell = some text) ∧
      ∀ cell, plan.writes cell = true →
        Contents.get? plan.contents cell = some none ∨ ∃ v, Contents.get? plan.contents cell = some (some v) ∧ v.FitsCell := by
  obtain ⟨areas, layout, hareas, hlayout, hscaffold, hcontents⟩ := compile_eq_ok_iff.1 h
  rw [← hscaffold] at hcontents
  refine ⟨areas, layout, hareas, hlayout, hscaffold, ?_, ?_⟩
  · intro cell
    rw [Plan.writes, Substitution.isSome_get?_contents hcontents, Option.isSome_iff_exists]
  · intro cell hwrites
    obtain ⟨found, hfound⟩ := Option.isSome_iff_exists.1 hwrites
    cases found with
    | none => exact Or.inl hfound
    | some v => exact Or.inr ⟨v, hfound, Substitution.fitsCell_of_get?_contents hcontents hfound⟩

namespace Sample

/-- A payload with a text of blanks, and a list, a null and a padded text in a map. -/
def padded : Value := .map [("blank", .text "  "), ("in", .map [("list", .list []), ("null", .null), ("pad", .text " x ")])]

/-- Markers alone in their cells, and texts with markers whose values have blanks around them or nothing else. -/
def spacious : Template :=
  (((empty.put ⟨Layout.Sample.columnA, 1⟩ "[in.null]").put ⟨Layout.Sample.columnB, 1⟩ " [in.pad] ").put
    ⟨Layout.Sample.columnA, 2⟩ " [blank] [in.list] ").put ⟨Layout.Sample.columnB, 2⟩ "[in.pad] [blank]"

end Sample

/-- The null and the text in which nothing but blanks is left clear their cells; the padded text fits in both of its cells. -/
theorem padded_texts_fit : ∃ plan, Sample.spacious.compile Sample.padded = .ok plan ∧
    Contents.get? plan.contents ⟨Layout.Sample.columnA, 1⟩ = some none ∧
    Contents.get? plan.contents ⟨Layout.Sample.columnA, 2⟩ = some none ∧
    (∃ v, Contents.get? plan.contents ⟨Layout.Sample.columnB, 1⟩ = some (some v) ∧ v.FitsCell) ∧
    (∃ v, Contents.get? plan.contents ⟨Layout.Sample.columnB, 2⟩ = some (some v) ∧ v.FitsCell) ∧
    plan.writes ⟨Layout.Sample.columnA, 3⟩ = false := by
  obtain ⟨plan, hplan, hfacts⟩ := Layout.exists_ok_of_any (show (Sample.spacious.compile Sample.padded).toOption.any (fun plan =>
      (Contents.get? plan.contents ⟨Layout.Sample.columnA, 1⟩).map Option.isSome = some false ∧
      (Contents.get? plan.contents ⟨Layout.Sample.columnA, 2⟩).map Option.isSome = some false ∧
      (Contents.get? plan.contents ⟨Layout.Sample.columnB, 1⟩).map Option.isSome = some true ∧
      (Contents.get? plan.contents ⟨Layout.Sample.columnB, 2⟩).map Option.isSome = some true ∧
      plan.writes ⟨Layout.Sample.columnA, 3⟩ = false) = true by decide +kernel)
  obtain ⟨hnull, hblank, halone, hmixed, hother⟩ := of_decide_eq_true hfacts
  obtain ⟨areas, layout, -, -, -, hwritten, hfits⟩ := written_cells_fit hplan
  have hcleared : ∀ cell, (Contents.get? plan.contents cell).map Option.isSome = some false →
      Contents.get? plan.contents cell = some none := by
    intro cell h
    obtain ⟨found, hfound, hnone⟩ := Option.map_eq_some_iff.1 h
    cases found with
    | none => exact hfound
    | some v => cases hnone
  have hfilled : ∀ cell, (Contents.get? plan.contents cell).map Option.isSome = some true →
      ∃ v, Contents.get? plan.contents cell = some (some v) ∧ v.FitsCell := by
    intro cell h
    obtain ⟨found, hfound, hsome⟩ := Option.map_eq_some_iff.1 h
    refine (hfits cell (by rw [Plan.writes, hfound]; rfl)).resolve_left fun hnone => ?_
    obtain rfl := Option.some.inj (hfound.symm.trans hnone)
    cases hsome
  exact ⟨plan, hplan, hcleared _ hnull, hcleared _ hblank, hfilled _ halone, hfilled _ hmixed, hother⟩

end Template
end SheetTemplate

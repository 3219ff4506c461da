import SheetTemplate.Compile
import SheetTemplate.Proofs.CellContents
import SheetTemplate.Proofs.GuardedCell
import SheetTemplate.Proofs.PayloadLeaves

/-!
# Conditions in front of formulas

A text with a condition in front of it is no formula, so its references keep the rows of the template. That is all that a condition
which is met changes: the rows, merges and copies of the plan are the same, so are the contents of all cells that are not filled from
the one with the condition, and these hold what substitution makes of their texts before formulas were set right
(`condition_before_formula`).
-/

namespace SheetTemplate

namespace Grid

/-- A condition comes in front of a text by writing the text anew. -/
theorem put_before {grid : Grid} {cell : Address} {text : String} (h : grid.text? cell = some text) (m : Marker) :
    grid.put cell (m.before text) = guarded m cell grid := by
  have hline : SortedMap.get? grid cell.row = some (grid.line cell.row) := by
    rw [text?, line] at h
    rw [line]
    cases hrow : SortedMap.get? grid cell.row with
    | none =>
      rw [hrow] at h
      cases h
    | some line => rfl
  apply SortedMap.ext_get?
  intro row
  simp only [put, guarded, SortedMap.get?_insert, SortedMap.get?_mapValues, Std.LawfulEqOrd.compare_eq_iff_eq]
  by_cases hrow : row = cell.row
  · subst hrow
    simp only [if_true, hline, Option.map_some, Option.some.injEq]
    apply SortedMap.ext_get?
    intro column
    simp only [Line.guarded, SortedMap.get?_insert, SortedMap.get?_mapValues, Std.LawfulEqOrd.compare_eq_iff_eq]
    by_cases hcolumn : column = cell.column
    · subst hcolumn
      rw [text?] at h
      simp only [if_true, h, decide_true, Option.map_some]
    · simp only [if_neg hcolumn, decide_eq_false hcolumn, Bool.false_eq_true, if_false, Option.map_id']
  · simp only [if_neg hrow, Option.map_id']

/-- Short paths are resolved as they are without a condition in front of a cell. -/
theorem resolve_guarded {leaves : Leaves} {m : Marker} (h : m.Settled leaves) (cell : Address) (grid : Grid) :
    Template.resolve leaves (guarded m cell grid) = guarded m cell (Template.resolve leaves grid) := by
  simp only [Template.resolve, mapTexts, guarded, SortedMap.mapValues_mapValues]
  congr 1
  funext row line
  split
  · exact Line.mapValues_guarded h.resolve_before line
  · rfl

end Grid

namespace Formula

/-- Ranges are extended as they are with texts that hold the same markers for values. -/
theorem growths_mapCells {f : Address → String → String} {grid : Grid}
    (hf : ∀ cell text, Marker.valueInText (f cell text) = Marker.valueInText text) (runs : List RowAction.Run)
    (areas : SortedSet Area) : growths runs (grid.mapCells f) areas = growths runs grid areas := by
  have hblock : isInBlock (grid.mapCells f) areas = isInBlock grid areas := by
    funext row
    simp only [isInBlock, Grid.text?_mapCells, Option.any_map, hf]
  simp only [growths, hblock]

/-- Of texts with a condition in front of some, rebasing sets right the others. -/
theorem rebase_before {leaves : Leaves} {m : Marker} (h : m.Settled leaves) (filled : Address → Bool) (actions : List RowAction)
    (areas : SortedSet Area) (grid : Grid) : ∃ f : Address → String → String,
      rebase actions areas grid = grid.mapCells f ∧
        rebase actions areas (grid.mapCells fun cell text => if filled cell then m.before text else text) =
          grid.mapCells fun cell text => if filled cell then m.before text else f cell text := by
  have hgrowths : growths (RowAction.runs actions) (grid.mapCells fun cell text => if filled cell then m.before text else text)
      areas = growths (RowAction.runs actions) grid areas := by
    refine growths_mapCells ?_ _ _
    intro cell text
    split
    · exact h.valueInText_before text
    · rfl
  refine ⟨fun cell text =>
    if isFormula text then
      grow (growths (RowAction.runs actions) grid areas) (localize (RowAction.runs actions) cell.row (shift actions text))
    else text, rfl, ?_⟩
  rw [rebase, hgrowths]
  simp only [Grid.mapTexts, Grid.mapCells, SortedMap.mapValues_mapValues]
  congr 1
  funext row line
  congr 1
  funext column text
  cases filled ⟨column, row⟩ with
  | true => simp only [if_true, Marker.isFormula_before, Bool.false_eq_true, if_false]
  | false => simp only [Bool.false_eq_true, if_false]

end Formula

namespace Marker

/-- A condition on a key of the payload with a true leaf is met wherever the cell comes to stand, unless the key reads as a path
through a list. -/
theorem settled_of_field {fields : List (String × Value)} (hsorted : fields.Pairwise fun a b => compare a.1 b.1 = .lt)
    {path : Path} {value : Value} (hfield : (path.text, value) ∈ fields) (hleaf : value.isLeaf = true)
    (htruthy : value.isTruthy = true) (hpath : admits path = true) (hwildcard : path.hasWildcard = false)
    (hposition : path.hasPosition = false) : Settled (Leaves.ofValue (.map fields)) ⟨.cellIf, [], path⟩ := by
  have hget := Leaves.get?_ofValue_of_field hsorted hfield hleaf
  refine ⟨⟨fun _ h => absurd h List.not_mem_nil, nofun, hpath⟩, rfl, ?_, ?_, hwildcard, hposition⟩
  · change Leaves.isSet _ path.text = true
    rw [Leaves.isSet, hget, Option.any_some, htruthy, Bool.true_or]
  · have hcontains : (Leaves.ofValue (.map fields)).contains path.text = true := by
      rw [Leaves.contains, SortedMap.contains]
      exact Option.isSome_iff_exists.2 ⟨value, hget⟩
    change Leaves.resolve? _ path = none
    rw [Leaves.resolve?, if_pos hcontains]

end Marker

namespace Template

open Layout (ofTemplate)

variable {template : Template} {payload : Value} {plan : Plan} {cell : Address} {text : String}

/-- A template with a condition in front of a formula is compiled from the layout of the template. What is filled from the formula keeps
its text as it is laid out, and other formulas are set right as they are without the condition. -/
theorem compile_before {m : Marker} (h : m.Settled (Leaves.ofValue payload)) (hcompile : template.compile payload = .ok plan)
    (htext : template.grid.text? cell = some text) (hformula : Formula.isFormula text = true) :
    ∃ areas layout, ∃ filled : Address → Bool, ∃ f : Address → String → String, template.areas = .ok areas ∧
      ofTemplate (Leaves.ofValue payload) areas (resolve (Leaves.ofValue payload) template.grid) = .ok layout ∧
      filled = layout.isFilledFrom (Leaves.ofValue payload) areas (resolve (Leaves.ofValue payload) template.grid) cell ∧
      Formula.rebase (layout.scaffold areas).rows (layout.scaffold areas).areas layout.grid = layout.grid.mapCells f ∧
      Substitution.contents (Leaves.ofValue payload) (layout.grid.mapCells f) = .ok plan.contents ∧
      ∀ guarded : Plan, (template.put cell (m.before text)).compile payload = .ok guarded ↔
        guarded.toScaffold = plan.toScaffold ∧
        Substitution.contents (Leaves.ofValue payload)
          (layout.grid.mapCells fun target laid => if filled target then laid else f target laid) = .ok guarded.contents := by
  obtain ⟨areas, layout, hareas, hlayout, hscaffold, hcontents⟩ := compile_eq_ok_iff.1 hcompile
  -- A formula has to be written, whatever was made of the paths in it.
  have hlive : ∀ laid, (resolve (Leaves.ofValue payload) template.grid).text? cell = some laid →
      Strip.isLive (Marker.ground laid) = true := by
    intro laid hlaid
    rw [resolve, Grid.text?_mapTexts, htext, Option.map_some, Option.some.injEq] at hlaid
    subst hlaid
    have hlaid := Marker.isFormula_mapPaths (fun path => if path.hasWildcard then some path.grounded else none)
      (Marker.isFormula_mapPaths (Leaves.ofValue payload).resolve? hformula)
    rw [Strip.isLive, Bool.or_eq_true]
    exact Or.inr hlaid
  have hgrid : resolve (Leaves.ofValue payload) (template.put cell (m.before text)).grid =
      Grid.guarded m cell (resolve (Leaves.ofValue payload) template.grid) := by
    rw [put, Grid.put_before htext, Grid.resolve_guarded h]
  have hguarded : ofTemplate (Leaves.ofValue payload) areas
      (Grid.guarded m cell (resolve (Leaves.ofValue payload) template.grid)) = _ := Layout.ofTemplate_guarded h hlive
  rw [hlayout] at hguarded
  have hmarked : (layout.guarded (Leaves.ofValue payload) areas (resolve (Leaves.ofValue payload) template.grid) m cell).grid = _ :=
    Layout.grid_guarded hlayout
  generalize hfilled : layout.isFilledFrom (Leaves.ofValue payload) areas
    (resolve (Leaves.ofValue payload) template.grid) cell = filled at hmarked
  obtain ⟨f, hf, hbefore⟩ := Formula.rebase_before h filled (layout.scaffold areas).rows (layout.scaffold areas).areas layout.grid
  -- What stands behind the condition has the value that it has without.
  have hvalues : ∀ target laid, layout.grid.text? target = some laid →
      Substitution.value (Leaves.ofValue payload) target (if filled target then m.before laid else f target laid) =
        Substitution.value (Leaves.ofValue payload) target (if filled target then laid else f target laid) := by
    intro target laid _
    split
    · exact h.value_before target laid
    · rfl
  refine ⟨areas, layout, filled, f, hareas, hlayout, hfilled.symm, hf, by rw [← hf]; exact hcontents, ?_⟩
  intro guarded
  rw [← Substitution.contents_mapCells_congr hvalues, ← hbefore, ← hmarked, hscaffold, compile_eq_ok_iff, hgrid]
  constructor
  · rintro ⟨areas', layout', hareas', hlayout', hscaffold', hcontents'⟩
    obtain rfl := Except.ok.inj (hareas.symm.trans hareas')
    obtain rfl := Except.ok.inj (hguarded.symm.trans hlayout')
    rw [Layout.scaffold_guarded] at hscaffold' hcontents'
    exact ⟨hscaffold', hcontents'⟩
  · rintro ⟨hscaffold', hcontents'⟩
    refine ⟨areas, _, hareas, hguarded, ?_, ?_⟩
    · rw [Layout.scaffold_guarded]
      exact hscaffold'
    · rw [Layout.scaffold_guarded]
      exact hcontents'

/-- A condition in front of a formula on a key of the payload that holds a true leaf changes nothing about the layout: the rows, merges
and copies are the same. What is filled from the formula holds what substitution makes of its text as it is laid out, with references to
the rows of the template; the template can be compiled exactly if each of these texts has a value. All other cells hold the same, and
the whole plan is the same if setting formulas right leaves these texts as they are. -/
theorem condition_before_formula {fields : List (String × Value)} (hsorted : fields.Pairwise fun a b => compare a.1 b.1 = .lt)
    (hcompile : template.compile (.map fields) = .ok plan) (htext : template.grid.text? cell = some text)
    (hformula : Formula.isFormula text = true) {path : Path} (hpath : Marker.admits path = true) {value : Value}
    (hfield : (path.text, value) ∈ fields) (hleaf : value.isLeaf = true) (htruthy : value.isTruthy = true)
    (hwildcard : path.hasWildcard = false) (hposition : path.hasPosition = false) :
    ∃ areas layout, ∃ filled : Address → Bool, template.areas = .ok areas ∧
      ofTemplate (Leaves.ofValue (.map fields)) areas (resolve (Leaves.ofValue (.map fields)) template.grid) = .ok layout ∧
      filled = layout.isFilledFrom (Leaves.ofValue (.map fields)) areas (resolve (Leaves.ofValue (.map fields)) template.grid) cell ∧
      ((∃ guarded, (template.put cell (Marker.before ⟨.cellIf, [], path⟩ text)).compile (.map fields) = .ok guarded) ↔
        ∀ target laid, filled target = true → layout.grid.text? target = some laid →
          ∃ v, Substitution.value (Leaves.ofValue (.map fields)) target laid = .ok v) ∧
      (∀ guarded, (template.put cell (Marker.before ⟨.cellIf, [], path⟩ text)).compile (.map fields) = .ok guarded →
        guarded.toScaffold = plan.toScaffold ∧
        (∀ target, filled target = false → guarded.contents.get? target = plan.contents.get? target) ∧
        ∀ target laid, filled target = true → layout.grid.text? target = some laid →
          ∃ v, Substitution.value (Leaves.ofValue (.map fields)) target laid = .ok v ∧ guarded.contents.get? target = some v) ∧
      ((∀ target laid, filled target = true → layout.grid.text? target = some laid →
          (Formula.rebase (layout.scaffold areas).rows (layout.scaffold areas).areas layout.grid).text? target = some laid) →
        (template.put cell (Marker.before ⟨.cellIf, [], path⟩ text)).compile (.map fields) = .ok plan) := by
  have h := Marker.settled_of_field hsorted hfield hleaf htruthy hpath hwildcard hposition
  obtain ⟨areas, layout, filled, f, hareas, hlayout, hfilled, hf, hcontents, hguarded⟩ := compile_before h hcompile htext hformula
  refine ⟨areas, layout, filled, hareas, hlayout, hfilled, ?_, ?_, ?_⟩
  · rw [← Substitution.exists_contents_kept_iff hcontents]
    constructor
    · rintro ⟨guarded, hok⟩
      exact ⟨guarded.contents, ((hguarded guarded).1 hok).2⟩
    · rintro ⟨contents, hok⟩
      exact ⟨⟨plan.toScaffold, contents⟩, (hguarded _).2 ⟨rfl, hok⟩⟩
  · intro guarded hok
    obtain ⟨hscaffold, hfound⟩ := (hguarded guarded).1 hok
    exact ⟨hscaffold, Substitution.get?_contents_kept hcontents hfound⟩
  · intro hkept
    rw [hguarded, ← hcontents]
    refine ⟨rfl, Substitution.contents_mapCells_congr ?_⟩
    intro target laid hlaid
    split
    · rename_i htarget
      have hsame := hkept target laid htarget hlaid
      rw [hf, Grid.text?_mapCells, hlaid, Option.map_some, Option.some.injEq] at hsame
      rw [hsame]
    · rfl

/-- A list with its total below. -/
def Sample.totalled : Template :=
  ⟨SortedMap.ofList [(1, SortedMap.ofList [(Layout.Sample.columnA, "[items.*.v]")]),
    (2, SortedMap.ofList [(Layout.Sample.columnB, "=SUM(A1:A1)")])], []⟩

/-- Two items and a flag. -/
def Sample.items : List (String × Value) :=
  [("items", .list [.map [("v", .int 1)], .map [("v", .int 2)]]), ("on", .int 1)]

/-- What the total reads without and with the flag in front of it. -/
theorem Sample.exists_totals : ∃ plan guarded, Sample.totalled.compile (.map Sample.items) = .ok plan ∧
    (Sample.totalled.put ⟨Layout.Sample.columnB, 2⟩ "[$=on]=SUM(A1:A1)").compile (.map Sample.items) = .ok guarded ∧
      (plan.value? ⟨Layout.Sample.columnB, 3⟩).bind Value.text? = some "=SUM(A1:A2)" ∧
      (guarded.value? ⟨Layout.Sample.columnB, 3⟩).bind Value.text? = some "=SUM(A1:A1)" := by
  obtain ⟨plan, hplan, htotal⟩ := Layout.exists_ok_of_any (show ((Sample.totalled.compile (.map Sample.items)).toOption.any
    fun plan => (plan.value? ⟨Layout.Sample.columnB, 3⟩).bind Value.text? = some "=SUM(A1:A2)") = true by decide +kernel)
  obtain ⟨guarded, hguarded, hkept⟩ := Layout.exists_ok_of_any (show
    (((Sample.totalled.put ⟨Layout.Sample.columnB, 2⟩ "[$=on]=SUM(A1:A1)").compile (.map Sample.items)).toOption.any
      fun plan => (plan.value? ⟨Layout.Sample.columnB, 3⟩).bind Value.text? = some "=SUM(A1:A1)") = true by decide +kernel)
  exact ⟨plan, guarded, hplan, hguarded, of_decide_eq_true htotal, of_decide_eq_true hkept⟩

/-- On the sample the total may have the flag in front of it. -/
theorem condition_before_total : ∃ plan guarded, Sample.totalled.compile (.map Sample.items) = .ok plan ∧
    (Sample.totalled.put ⟨Layout.Sample.columnB, 2⟩ "[$=on]=SUM(A1:A1)").compile (.map Sample.items) = .ok guarded ∧
      guarded.toScaffold = plan.toScaffold := by
  obtain ⟨plan, guarded, hplan, hguarded, -⟩ := Sample.exists_totals
  have htext : Sample.totalled.grid.text? ⟨Layout.Sample.columnB, 2⟩ = some "=SUM(A1:A1)" := by decide +kernel
  have hfield : ((⟨["on"]⟩ : Path).text, Value.int 1) ∈ Sample.items := List.mem_cons_of_mem _ List.mem_cons_self
  obtain ⟨_, _, _, -, -, -, -, hcondition, -⟩ := condition_before_formula (by decide +kernel) hplan htext (by decide +kernel)
    (show Marker.admits ⟨["on"]⟩ = true by decide +kernel) hfield rfl rfl rfl (by decide +kernel)
  have hbefore : Marker.before ⟨.cellIf, [], ⟨["on"]⟩⟩ "=SUM(A1:A1)" = "[$=on]=SUM(A1:A1)" := by decide +kernel
  rw [hbefore] at hcondition
  exact ⟨plan, guarded, hplan, hguarded, (hcondition guarded hguarded).1⟩

/-- With the flag in front of it the total leaves the second item out. -/
theorem condition_stops_total : ∃ plan guarded, Sample.totalled.compile (.map Sample.items) = .ok plan ∧
    (Sample.totalled.put ⟨Layout.Sample.columnB, 2⟩ "[$=on]=SUM(A1:A1)").compile (.map Sample.items) = .ok guarded ∧
      (plan.value? ⟨Layout.Sample.columnB, 3⟩).bind Value.text? = some "=SUM(A1:A2)" ∧
      (guarded.value? ⟨Layout.Sample.columnB, 3⟩).bind Value.text? = some "=SUM(A1:A1)" ∧ guarded ≠ plan := by
  obtain ⟨plan, guarded, hplan, hguarded, htotal, hkept⟩ := Sample.exists_totals
  refine ⟨plan, guarded, hplan, hguarded, htotal, hkept, ?_⟩
  rintro rfl
  rw [htotal] at hkept
  exact absurd hkept (by decide)

end Template
end SheetTemplate

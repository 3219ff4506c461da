import SheetTemplate.Formula.Rebase
import SheetTemplate.Layout
import SheetTemplate.Plan.Written
import SheetTemplate.Resolution
import SheetTemplate.Substitution
import SheetTemplate.Template.Reading

/-!
# Compilation

From a template and a payload to a plan. The ranges of the template are read, short paths are resolved, the rows are laid out,
formulas are set right for the rows that came in and went out, and the texts are turned into values.
-/

namespace SheetTemplate

/-- The version of the library. -/
def version : String := "0.1.0"

namespace Template

/-- The grid with the short paths of all its markers resolved. -/
def resolve (leaves : Leaves) (grid : Grid) : Grid :=
  grid.mapTexts fun _ text => Marker.resolve leaves text

/-- The plan that fills a template with a payload. -/
def compile (template : Template) (payload : Value) : Except Error Plan := do
  let areas ← template.areas
  let leaves := Leaves.ofValue payload
  let layout ← Layout.ofTemplate leaves areas (resolve leaves template.grid)
  let scaffold := layout.scaffold areas
  let contents ← Substitution.contents leaves (Formula.rebase scaffold.rows scaffold.areas layout.grid)
  return { scaffold with contents }

/-- A plan is that of a template if its ranges can be read, its rows laid out and its cells filled. -/
theorem compile_eq_ok_iff {template : Template} {payload : Value} {plan : Plan} : template.compile payload = .ok plan ↔
    ∃ areas layout, template.areas = .ok areas ∧
      Layout.ofTemplate (Leaves.ofValue payload) areas (resolve (Leaves.ofValue payload) template.grid) = .ok layout ∧
      plan.toScaffold = layout.scaffold areas ∧
      Substitution.contents (Leaves.ofValue payload)
        (Formula.rebase (layout.scaffold areas).rows (layout.scaffold areas).areas layout.grid) = .ok plan.contents := by
  rw [compile]
  cases template.areas with
  | error e => exact ⟨nofun, fun ⟨_, _, h, _⟩ => nomatch h⟩
  | ok areas =>
    change (Layout.ofTemplate _ areas _).bind _ = .ok plan ↔ _
    cases hlayout : Layout.ofTemplate (Leaves.ofValue payload) areas (resolve (Leaves.ofValue payload) template.grid) with
    | error e =>
      refine ⟨nofun, ?_⟩
      rintro ⟨_, _, ⟨⟩, hok, -⟩
      rw [hlayout] at hok
      cases hok
    | ok layout =>
      change (Substitution.contents _ _).bind _ = .ok plan ↔ _
      constructor
      · intro h
        cases hcontents : Substitution.contents (Leaves.ofValue payload)
            (Formula.rebase (layout.scaffold areas).rows (layout.scaffold areas).areas layout.grid) with
        | error e =>
          rw [hcontents] at h
          cases h
        | ok contents =>
          rw [hcontents] at h
          cases h
          exact ⟨areas, layout, rfl, hlayout, rfl, hcontents⟩
      · rintro ⟨_, _, ⟨⟩, hok, hscaffold, hcontents⟩
        obtain rfl := Except.ok.inj (hlayout.symm.trans hok)
        rw [hcontents, ← hscaffold]
        rfl

end Template

namespace Request

/-- The plan for a request that is a JSON text. -/
def compile (s : String) : Except Error Plan := do
  let request ← (ofText s).mapError .json
  request.template.compile request.payload

/-- The JSON text of the plan for a request that is a JSON text. -/
def compileText (s : String) : Except Error String := do
  let plan ← compile s
  plan.text

end Request
end SheetTemplate

import SheetTemplate.Plan.Rendering
import SheetTemplate.Proofs.CellContents

/-!
# The calls of a plan

To carry out a plan is to make the calls of one list (`Plan.calls`), whatever the renderer: row actions, style copies, format copies, width
copies, contents of cells and merges (`render_eq_forM`). A renderer that may refuse gets the calls of this list up to and including the first
one that it refuses, and no other, or all of them (`render_stops_at_refusal`). Which calls a renderer gets is told by a second renderer, which
does the same on a sheet with a log (`Renderer.recorded`).
-/

namespace SheetTemplate

/-- A call that a renderer may get. -/
inductive Call
  | insertRow (row : Nat)
  | deleteRow (row : Nat)
  | copyStyle (copy : Copy Address)
  | copyFormat (copy : Copy Address)
  | copyWidth (copy : Copy Column)
  | setCell (cell : Address) (value : Value)
  | clearCell (cell : Address)
  | merge (area : Area)

/-! ## The list of calls -/

namespace Call

/-- The call for a row action. -/
def ofAction : RowAction → Call
  | .add row => .insertRow row
  | .delete row => .deleteRow row

/-- The call for what is put into a cell. -/
def ofCell (cell : Address × Option Value) : Call :=
  match cell.2 with
  | some value => .setCell cell.1 value
  | none => .clearCell cell.1

end Call

/-- The calls of a plan in their order. -/
def Plan.calls (plan : Plan) : List Call :=
  plan.rows.map .ofAction ++ plan.styles.map .copyStyle ++ plan.formats.map .copyFormat ++ plan.widths.map .copyWidth ++
    plan.contents.cells.map .ofCell ++ plan.areas.keys.map .merge

namespace Renderer

variable {m : Type → Type}

/-- Makes a call. -/
def perform (renderer : Renderer m) : Call → m Unit
  | .insertRow row => renderer.insertRow row
  | .deleteRow row => renderer.deleteRow row
  | .copyStyle copy => renderer.copyStyle copy
  | .copyFormat copy => renderer.copyFormat copy
  | .copyWidth copy => renderer.copyWidth copy
  | .setCell cell value => renderer.setCell cell value
  | .clearCell cell => renderer.clearCell cell
  | .merge area => renderer.merge area

/-- The renderer that answers each call as told. -/
def ofCalls (answer : Call → m Unit) : Renderer m where
  insertRow row := answer (.insertRow row)
  deleteRow row := answer (.deleteRow row)
  copyStyle copy := answer (.copyStyle copy)
  copyFormat copy := answer (.copyFormat copy)
  copyWidth copy := answer (.copyWidth copy)
  setCell cell value := answer (.setCell cell value)
  clearCell cell := answer (.clearCell cell)
  merge area := answer (.merge area)

theorem perform_ofCalls (answer : Call → m Unit) (call : Call) : (ofCalls answer).perform call = answer call := by
  cases call <;> rfl

theorem perform_ofAction [Monad m] (renderer : Renderer m) (action : RowAction) :
    renderer.perform (.ofAction action) = Plan.renderRow renderer action := by
  cases action <;> rfl

theorem perform_ofCell [Monad m] (renderer : Renderer m) (cell : Address × Option Value) :
    renderer.perform (.ofCell cell) = Plan.renderCell renderer cell.1 cell.2 := by
  obtain ⟨cell, value⟩ := cell
  cases value <;> rfl

end Renderer

/-- A walk over lists put together is one over each of them. -/
theorem forM_flatMap {m : Type → Type} [Monad m] [LawfulMonad m] {α β : Type} (l : List α) (g : α → List β) (f : β → m Unit) :
    (l.flatMap g).forM f = l.forM fun a => (g a).forM f := by
  simp only [List.forM_eq_forM]
  induction l with
  | nil => rfl
  | cons a l ih => rw [List.flatMap_cons, List.forM_append, List.forM_cons, ih]

/-- To carry out a plan is to make its calls one after the other. -/
theorem Plan.render_eq_forM {m : Type → Type} [Monad m] [LawfulMonad m] (renderer : Renderer m) (plan : Plan) :
    plan.render renderer = plan.calls.forM renderer.perform := by
  have hcells : (plan.contents.cells.map Call.ofCell).forM renderer.perform =
      plan.contents.entries.forM fun line => line.2.entries.forM fun cell => renderCell renderer ⟨cell.1, line.1⟩ cell.2 := by
    rw [List.forM_eq_forM, List.forM_map, ← List.forM_eq_forM, Contents.cells, forM_flatMap]
    simp only [List.forM_eq_forM, List.forM_map, Renderer.perform_ofCell]
  simp only [List.forM_eq_forM] at hcells
  simp only [render, calls, List.forM_eq_forM, List.forM_append, hcells, List.forM_map, Renderer.perform_ofAction, bind_assoc]
  rfl

/-! ## Renderers that may refuse -/

namespace Renderer

variable {σ ε : Type}

/-- What a program does to a sheet in a state: how it ends, and the state that it leaves. -/
def outcome (program : ExceptT ε (StateM σ) Unit) (state : σ) : Except ε Unit × σ := (program.run.run state).run

/-- `renderer.Accepts first calls last`: in state `first` of its sheet the renderer accepts the calls one after the other and comes to
state `last`. -/
inductive Accepts (renderer : Renderer (ExceptT ε (StateM σ))) : σ → List Call → σ → Prop
  | nil (state : σ) : Accepts renderer state [] state
  | cons {first next last : σ} {call : Call} {calls : List Call} (accepted : outcome (renderer.perform call) first = (.ok (), next))
      (rest : Accepts renderer next calls last) : Accepts renderer first (call :: calls) last

/-- The renderer with a log of the calls that it got, those it refused included. -/
def recorded (renderer : Renderer (ExceptT ε (StateM σ))) : Renderer (ExceptT ε (StateM (σ × List Call))) :=
  ofCalls fun call => ExceptT.mk fun sheet =>
    let (ended, state) := outcome (renderer.perform call) sheet.1
    (ended, state, sheet.2 ++ [call])

variable {renderer : Renderer (ExceptT ε (StateM σ))} {first next last : σ} {call : Call} {calls rest log : List Call}

theorem outcome_recorded (state : σ) : outcome (renderer.recorded.perform call) (state, log) =
    ((outcome (renderer.perform call) state).1, (outcome (renderer.perform call) state).2, log ++ [call]) := by
  rw [recorded, perform_ofCalls]
  rfl

/-- A program goes on after another one unless that one ends with an error. -/
theorem outcome_bind (program other : ExceptT ε (StateM σ) Unit) (state : σ) : outcome (do program; other) state =
    match outcome program state with
    | (.ok (), next) => outcome other next
    | (.error e, next) => (.error e, next) := by
  simp only [outcome, ExceptT.run_bind, StateT.run_bind, Id.run_bind]
  rcases (program.run.run state).run with ⟨ended, next⟩
  cases ended <;> rfl

/-- After a call that is accepted the next ones are made. -/
theorem outcome_forM_of_ok (h : outcome (renderer.perform call) first = (.ok (), next)) :
    outcome ((call :: rest).forM renderer.perform) first = outcome (rest.forM renderer.perform) next := by
  rw [List.forM_eq_forM, List.forM_cons, outcome_bind, h]

/-- After a call that is refused no other is made. -/
theorem outcome_forM_of_error {e : ε} (h : outcome (renderer.perform call) first = (.error e, next)) :
    outcome ((call :: rest).forM renderer.perform) first = (.error e, next) := by
  rw [List.forM_eq_forM, List.forM_cons, outcome_bind, h]

/-- Behind calls that are accepted the list goes on in the state to which they lead. -/
theorem Accepts.outcome_append (h : renderer.Accepts first calls last) (rest : List Call) :
    outcome ((calls ++ rest).forM renderer.perform) first = outcome (rest.forM renderer.perform) last := by
  induction h with
  | nil => rfl
  | cons accepted _ ih => rw [List.cons_append, outcome_forM_of_ok accepted, ih]

/-- The log does not change what is accepted, and holds it in the end. -/
theorem Accepts.recorded (h : renderer.Accepts first calls last) (log : List Call) :
    renderer.recorded.Accepts (first, log) calls (last, log ++ calls) := by
  induction h generalizing log with
  | nil state =>
    rw [List.append_nil]
    exact .nil _
  | @cons first next last call calls accepted _ ih =>
    have hcall : outcome (renderer.recorded.perform call) (first, log) = (.ok (), next, log ++ [call]) := by
      rw [outcome_recorded, accepted]
    rw [List.append_cons log call calls]
    exact .cons hcall (ih (log ++ [call]))

/-- The outcome of a list of calls that are all accepted. -/
theorem Accepts.outcome_eq (h : renderer.Accepts first calls last) : outcome (calls.forM renderer.perform) first = (.ok (), last) := by
  have hnone := h.outcome_append []
  rwa [List.append_nil] at hnone

/-- The outcome of a list of calls of which one is refused. -/
theorem Accepts.outcome_of_refused (h : renderer.Accepts first calls last) {e : ε}
    (hrefused : outcome (renderer.perform call) last = (.error e, next)) (rest : List Call) :
    outcome ((calls ++ call :: rest).forM renderer.perform) first = (.error e, next) :=
  (h.outcome_append (call :: rest)).trans (outcome_forM_of_error hrefused)

/-- Of a list of calls either all are accepted, or all before one that is refused. -/
theorem exists_accepts (renderer : Renderer (ExceptT ε (StateM σ))) (calls : List Call) (first : σ) :
    (∃ last, renderer.Accepts first calls last) ∨
      ∃ accepted refused rest before e after, calls = accepted ++ refused :: rest ∧ renderer.Accepts first accepted before ∧
        outcome (renderer.perform refused) before = (.error e, after) := by
  induction calls generalizing first with
  | nil => exact Or.inl ⟨first, .nil first⟩
  | cons call calls ih =>
    cases hcall : outcome (renderer.perform call) first with
    | mk ended next =>
      cases ended with
      | error e => exact Or.inr ⟨[], call, calls, first, e, next, rfl, .nil first, hcall⟩
      | ok done =>
        rcases ih next with ⟨last, hlast⟩ | ⟨accepted, refused, rest, before, e, after, rfl, haccepted, hrefused⟩
        · exact Or.inl ⟨last, .cons hcall hlast⟩
        · exact Or.inr ⟨call :: accepted, refused, rest, before, e, after, rfl, .cons hcall haccepted, hrefused⟩

end Renderer

/-- A plan is carried out in order and up to the first call that is refused. The list of its calls is the same for every renderer: the row
actions, style copies, format copies and width copies as they were noted, then what is put into each cell, row by row and from left to right,
then the merges in the order of areas. Every renderer that may refuse, with whatever state, either accepts all calls of this list, and then
carrying out the plan goes well and makes exactly these calls; or it accepts the first ones and refuses the next, and then carrying out the
plan ends with the error of this refusal, in the state that it left, and the calls made are those accepted and the one refused. -/
theorem Plan.render_stops_at_refusal {σ ε : Type} (renderer : Renderer (ExceptT ε (StateM σ))) (plan : Plan) (start : σ) :
    (plan.contents.cells.Pairwise fun a b => a.1.Before b.1) ∧
    (∀ cell value, (cell, value) ∈ plan.contents.cells ↔ Contents.get? plan.contents cell = some value) ∧
    (plan.areas.keys.Pairwise fun a b => compare a b = .lt) ∧
    ((∃ last, renderer.Accepts start plan.calls last ∧ Renderer.outcome (plan.render renderer) start = (.ok (), last) ∧
        Renderer.outcome (plan.render renderer.recorded) (start, []) = (.ok (), last, plan.calls)) ∨
      ∃ accepted refused rest before e after, plan.calls = accepted ++ refused :: rest ∧ renderer.Accepts start accepted before ∧
        Renderer.outcome (renderer.perform refused) before = (.error e, after) ∧
        Renderer.outcome (plan.render renderer) start = (.error e, after) ∧
        Renderer.outcome (plan.render renderer.recorded) (start, []) = (.error e, after, accepted ++ [refused])) := by
  refine ⟨SortedMap.pairwise_cells plan.contents, fun cell value => SortedMap.mem_cells_iff, List.pairwise_map.2 plan.areas.sorted, ?_⟩
  rw [render_eq_forM, render_eq_forM]
  rcases renderer.exists_accepts plan.calls start with
    ⟨last, haccepts⟩ | ⟨accepted, refused, rest, before, e, after, hcalls, haccepts, hrefused⟩
  · exact Or.inl ⟨last, haccepts, haccepts.outcome_eq, (haccepts.recorded []).outcome_eq⟩
  · refine Or.inr ⟨accepted, refused, rest, before, e, after, hcalls, haccepts, hrefused, ?_, ?_⟩
    · rw [hcalls]
      exact haccepts.outcome_of_refused hrefused rest
    · rw [hcalls]
      refine (haccepts.recorded []).outcome_of_refused ?_ rest
      rw [Renderer.outcome_recorded, hrefused]
      rfl

end SheetTemplate

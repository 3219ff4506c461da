import SheetTemplate.Proofs.Sheet
import SheetTemplate.Proofs.ShiftedReferences

/-!
# References follow rows

A reference moves as a number (`RowAction.move`), while on a sheet whole rows come in and go out (`Sheet.act`). The two agree for row
actions of any kind and in any order (`Formula.shift_follows_rows`): a reference names the place of its row as long as that is on the
sheet. If its row goes out, the row below slides into its place, and from then on the reference follows that row. `Sheet.Leads` says
so of sheets alone.

What one action preserves is that a label stands nowhere but where the number says (`Sheet.OnlyAt.act`) and that it does stand there
unless its row goes out (`Sheet.act_move`).
-/

namespace SheetTemplate

namespace Sheet

open RowAction

variable {sheet : Sheet} {actions : List RowAction} {label position place row : Nat}

/-! ## Labels -/

/-- A label stands in no row but this one. -/
def OnlyAt (sheet : Sheet) (label position : Nat) : Prop := ∀ place, sheet place = some label → place = position

theorem onlyAt_numbered (row : Nat) : numbered.OnlyAt row row := fun _ h => Option.some.inj h

/-- Where else a label does not stand before an action, it does not stand afterwards. -/
theorem OnlyAt.act (h : sheet.OnlyAt label position) (action : RowAction) :
    (sheet.act action).OnlyAt label (move position action) := by
  intro place hplace
  cases action with
  | add added =>
    simp only [Sheet.act] at hplace
    simp only [move]
    split at hplace
    · have := h place hplace
      rw [if_neg (by omega)]
      exact this
    · split at hplace
      · cases hplace
      · have := h (place - 1) hplace
        rw [if_pos (by omega)]
        omega
  | delete deleted =>
    simp only [Sheet.act] at hplace
    simp only [move]
    split at hplace
    · have := h place hplace
      rw [if_neg (by omega)]
      exact this
    · have := h (place + 1) hplace
      rw [if_pos (by omega)]
      omega

theorem OnlyAt.actAll (h : sheet.OnlyAt label position) (actions : List RowAction) :
    (sheet.actAll actions).OnlyAt label (moveAll actions position) := by
  induction actions generalizing sheet position with
  | nil => exact h
  | cons action actions ih => exact ih (h.act action)

/-- A label moves with its row, unless the row goes out. -/
theorem act_move (h : sheet position = some label) {action : RowAction} (hstays : action ≠ .delete position) :
    sheet.act action (move position action) = some label := by
  cases action with
  | add added =>
    simp only [Sheet.act, move]
    split
    · rw [if_neg (by omega), if_neg (by omega), Nat.add_sub_cancel]
      exact h
    · rw [if_pos (by omega)]
      exact h
  | delete deleted =>
    have hne : deleted ≠ position := fun heq => hstays (congrArg RowAction.delete heq)
    simp only [Sheet.act, move]
    split
    · rw [if_neg (by omega), show position - 1 + 1 = position by omega]
      exact h
    · rw [if_pos (by omega)]
      exact h

/-- A label moves with its row, unless the row goes out at some point. -/
theorem actAll_moveAll (h : sheet position = some label) (hkept : some label ∉ sheet.removed actions) :
    sheet.actAll actions (moveAll actions position) = some label := by
  induction actions generalizing sheet position with
  | nil => exact h
  | cons action actions ih =>
    have hstays : action ≠ .delete position := by
      rintro rfl
      exact hkept (List.mem_cons.2 (Or.inl h.symm))
    refine ih (act_move h hstays) fun hmem => hkept ?_
    cases action with
    | add added => exact hmem
    | delete deleted => exact List.mem_cons_of_mem _ hmem

/-- A label that stands in one row only, and whose row never goes out, stands where a reference to its row moves, and nowhere else. -/
theorem actAll_eq_iff (h : sheet position = some label) (honly : sheet.OnlyAt label position)
    (hkept : some label ∉ sheet.removed actions) : sheet.actAll actions place = some label ↔ place = moveAll actions position := by
  constructor
  · exact honly.actAll actions place
  · rintro rfl
    exact actAll_moveAll h hkept

/-- A label that goes out does so at some action, at the place where it stands then. -/
theorem exists_of_mem_removed (h : some label ∈ sheet.removed actions) :
    ∃ before position after, actions = before ++ .delete position :: after ∧ sheet.actAll before position = some label := by
  induction actions generalizing sheet with
  | nil => cases h
  | cons action actions ih =>
    cases action with
    | add added =>
      obtain ⟨before, position, after, rfl, hstood⟩ := ih h
      exact ⟨.add added :: before, position, after, rfl, hstood⟩
    | delete deleted =>
      rcases List.mem_cons.1 h with hfirst | hlater
      · exact ⟨[], deleted, actions, rfl, hfirst.symm⟩
      · obtain ⟨before, position, after, rfl, hstood⟩ := ih hlater
        exact ⟨.delete deleted :: before, position, after, rfl, hstood⟩

/-! ## Where references lead -/

/-- Where a reference to a row has to point after row actions, told by sheets whose rows bear their numbers. -/
inductive Leads : List RowAction → Nat → Nat → Prop
  /-- The row never goes out: to where it stands in the end. -/
  | stays {actions : List RowAction} {row place : Nat} (kept : some row ∉ numbered.removed actions)
      (stands : numbered.actAll actions place = some row) : Leads actions row place
  /-- The row goes out where it stands, at `position`: the row below slides into this place, and from there on the reference leads
  where that row does on a sheet that is numbered anew. -/
  | slides {before after : List RowAction} {row position place : Nat} (stood : numbered.actAll before position = some row)
      (leads : Leads after position place) : Leads (before ++ .delete position :: after) row place

/-- A reference to a row that goes out moves as one to the place where the row stood does from then on. -/
theorem moveAll_of_stood {before after : List RowAction} (h : numbered.actAll before position = some row) :
    moveAll (before ++ .delete position :: after) row = moveAll after position := by
  have hposition : moveAll before row = position := ((onlyAt_numbered row).actAll before position h).symm
  rw [moveAll_append, hposition]
  exact congrArg (moveAll after) (if_neg (Nat.lt_irrefl position))

/-- A reference to the row below one that goes out moves into its place. -/
theorem moveAll_of_slid {before after : List RowAction} (h : numbered.actAll before (position + 1) = some row) :
    moveAll (before ++ .delete position :: after) row = moveAll after position := by
  have hposition : moveAll before row = position + 1 := ((onlyAt_numbered row).actAll before (position + 1) h).symm
  rw [moveAll_append, hposition]
  exact congrArg (moveAll after) (if_pos (Nat.lt_succ_self position))

/-- Every row leads to one place, the one to which a reference moves. -/
theorem leads_iff : Leads actions row place ↔ place = moveAll actions row := by
  constructor
  · intro h
    induction h with
    | stays kept stands => exact (actAll_eq_iff rfl (onlyAt_numbered _) kept).1 stands
    | slides stood leads ih => rw [ih, moveAll_of_stood stood]
  · rintro rfl
    -- The actions that remain after a row goes out are fewer.
    induction hlength : actions.length using Nat.strong_induction_on generalizing actions row with
    | _ length ih =>
      subst hlength
      by_cases hremoved : some row ∈ numbered.removed actions
      · obtain ⟨before, position, after, rfl, hstood⟩ := exists_of_mem_removed hremoved
        rw [moveAll_of_stood hstood]
        refine .slides hstood (ih after.length ?_ rfl)
        rw [List.length_append, List.length_cons]
        omega
      · exact .stays hremoved (actAll_moveAll rfl hremoved)

end Sheet

namespace Formula

open RowAction

/-- Moving a reference follows its row, whatever the row actions and their order. If the row never goes out, the reference names the
place where its label stands in the end, and the label stands nowhere else. If it goes out, the reference leads from there on where
the row does that slides into its place: one to that row names the same place, if it is a row that the sheet held to begin with. -/
theorem shift_follows_rows {actions : List RowAction} (hpositions : ∀ position, .delete position ∈ actions → 1 ≤ position)
    {s : String} {place : Nat} {r : Reference} (hr : (pieces s)[place]? = some (.reference r))
    (hstays : StaysOnSheet actions r.row) :
    ∃ r', (pieces (shift actions s))[place]? = some (.reference r') ∧ r'.head = r.head ∧
      (∀ p, Sheet.Leads actions r.row p ↔ p = r'.row) ∧
      (some r.row ∉ Sheet.numbered.removed actions → ∀ p, Sheet.numbered.actAll actions p = some r.row ↔ p = r'.row) ∧
      ∀ before position after, actions = before ++ .delete position :: after →
        Sheet.numbered.actAll before position = some r.row →
          (∀ p, Sheet.Leads after position p ↔ p = r'.row) ∧
            ∀ next, Sheet.numbered.actAll before (position + 1) = some next → ∀ p, Sheet.Leads actions next p ↔ p = r'.row := by
  have hone := one_le_moveAll hpositions (row_of_mem_pieces (List.mem_of_getElem? hr)).1
  obtain ⟨r', hr', hhead, hrow⟩ := reference_shift hr ⟨hone, hstays.le⟩
  refine ⟨r', hr', hhead, ?_, ?_, ?_⟩
  · intro p
    rw [hrow]
    exact Sheet.leads_iff
  · intro hkept p
    rw [hrow]
    exact Sheet.actAll_eq_iff rfl (Sheet.onlyAt_numbered r.row) hkept
  · rintro before position after rfl hstood
    rw [Sheet.moveAll_of_stood hstood] at hrow
    refine ⟨fun p => ?_, fun next hslid p => ?_⟩
    · rw [hrow]
      exact Sheet.leads_iff
    · rw [hrow, ← Sheet.moveAll_of_slid hslid]
      exact Sheet.leads_iff

/-- Row 5 moves down and goes out at row 6. Row 6 slides into its place and goes on to row 7, and the reference follows it. -/
theorem shift_follows_sample : ∃ r', (pieces (shift [.add 2, .delete 6, .add 3] "=B5"))[1]? = some (.reference r') ∧ r'.row = 7 ∧
    (∀ p, Sheet.Leads [.add 2, .delete 6, .add 3] 5 p ↔ p = 7) ∧ ∀ p, Sheet.Leads [.add 2, .delete 6, .add 3] 6 p ↔ p = 7 := by
  have hpositions : ∀ position, .delete position ∈ [RowAction.add 2, .delete 6, .add 3] → 1 ≤ position := by
    intro position hmem
    obtain rfl : position = 6 := by simpa using hmem
    decide
  have hr : (pieces "=B5")[1]? = some (.reference ⟨['B'], ['5'], 5⟩) := by decide +kernel
  obtain ⟨r', hr', -, hleads, -, hslides⟩ := shift_follows_rows hpositions hr (by decide)
  have hrow : r'.row = 7 := Sheet.leads_iff.1 ((hleads r'.row).2 rfl)
  have hnext := (hslides [.add 2] 6 [.add 3] rfl rfl).2 6 rfl
  rw [hrow] at hleads hnext
  exact ⟨r', hr', hrow, hleads, hnext⟩

end Formula
end SheetTemplate

import Mathlib.Data.List.Infix
import SheetTemplate.Proofs.FormulaSteps

/-!
# Formulas whose references moved

A formula whose references moved is taken apart into the same pieces, each reference in its new row (`Formula.pieces_shift`), as long
as no reference leaves the sheet (`RowAction.StaysOnSheet`). So moving references is stable under reading the text again: the
references are as many as before and each in the row to which it moved, the text without their rows is the same, and colons join the
same of them (`Formula.rescan_after_shift`). Moving by some actions and then by others names the same cells as moving by all of them.

A reference that moved away and came back is spelled without leading zeros, so the two texts need not be the same to the character.

Positions are counted without a limit. For a reference that stays on the sheet it makes no difference whether they are counted in 32 bits
(`RowAction.StaysOnSheet.toNat_foldl_move32`).
-/

namespace SheetTemplate

namespace RowAction

/-- Row actions carry a reference to a row past the last row of the sheet at no time. -/
def StaysOnSheet (actions : List RowAction) (row : Nat) : Prop := ∀ seen ∈ actions.inits, moveAll seen row ≤ lastRow

instance (actions : List RowAction) (row : Nat) : Decidable (StaysOnSheet actions row) :=
  inferInstanceAs (Decidable (∀ seen ∈ actions.inits, moveAll seen row ≤ lastRow))

theorem StaysOnSheet.of_append {a b : List RowAction} {row : Nat} (h : StaysOnSheet (a ++ b) row) : StaysOnSheet a row := by
  intro seen hseen
  rw [List.mem_inits] at hseen
  exact h seen ((List.mem_inits _ _).2 (hseen.trans (List.prefix_append a b)))

theorem StaysOnSheet.le {actions : List RowAction} {row : Nat} (h : StaysOnSheet actions row) : moveAll actions row ≤ lastRow :=
  h actions ((List.mem_inits _ _).2 (List.prefix_refl actions))

theorem staysOnSheet_cons {action : RowAction} {rest : List RowAction} {row : Nat} :
    StaysOnSheet (action :: rest) row ↔ row ≤ lastRow ∧ StaysOnSheet rest (move row action) := by
  simp only [StaysOnSheet, List.inits_cons, List.forall_mem_cons, List.forall_mem_map]
  exact Iff.rfl

theorem StaysOnSheet.first_le {actions : List RowAction} {row : Nat} (h : StaysOnSheet actions row) : row ≤ lastRow :=
  h [] ((List.mem_inits _ _).2 (List.nil_prefix))

/-- The position that a reference has after an action, as a number of 32 bits: 0 follows the last row of the sheet. -/
def move32 (row : UInt32) : RowAction → UInt32
  | .add position => if position ≤ row.toNat then row + 1 else row
  | .delete position => if position < row.toNat then row - 1 else row

/-- A reference that an action keeps on the sheet has the same position in 32 bits. -/
theorem toNat_move32 {action : RowAction} {row : UInt32} (h : move row.toNat action ≤ lastRow) :
    (move32 row action).toNat = move row.toNat action := by
  cases action with
  | add position =>
    simp only [move32, move] at h ⊢
    split
    · rename_i hbelow
      rw [if_pos hbelow, lastRow] at h
      rw [UInt32.toNat_add, UInt32.toNat_one, Nat.mod_eq_of_lt (by omega)]
    · rfl
  | delete position =>
    simp only [move32, move]
    split
    · rename_i habove
      have hone : 1 ≤ row := UInt32.le_iff_toNat_le.2 (show 1 ≤ row.toNat by omega)
      exact UInt32.toNat_sub_of_le row 1 hone
    · rfl

/-- A reference that stays on the sheet moves in 32 bits as it does without a limit. -/
theorem StaysOnSheet.toNat_foldl_move32 {actions : List RowAction} {row : UInt32} (h : StaysOnSheet actions row.toNat) :
    (actions.foldl move32 row).toNat = moveAll actions row.toNat := by
  induction actions generalizing row with
  | nil => rfl
  | cons action rest ih =>
    have hrest := (staysOnSheet_cons.1 h).2
    have hmoved := toNat_move32 hrest.first_le
    rw [← hmoved] at hrest
    rw [List.foldl_cons, ih hrest, hmoved]
    rfl

/-- References stay on the sheet if no row above its first one is taken out. -/
theorem one_le_moveAll {actions : List RowAction} (h : ∀ position, .delete position ∈ actions → 1 ≤ position) {row : Nat}
    (hrow : 1 ≤ row) : 1 ≤ moveAll actions row := by
  induction actions generalizing row with
  | nil => exact hrow
  | cons action rest ih =>
    refine ih (fun position hmem => h position (List.mem_cons_of_mem _ hmem)) ?_
    cases action with
    | add position =>
      simp only [move]
      split <;> omega
    | delete position =>
      have hposition := h position List.mem_cons_self
      simp only [move]
      split <;> omega

end RowAction

namespace Formula

open RowAction

/-! ## Pieces -/

/-- The reference in the row to which row actions move its own. One whose row stays keeps its digits as written. -/
def Reference.move (actions : List RowAction) (r : Reference) : Reference :=
  if moveAll actions r.row = r.row then r else r.withRow (moveAll actions r.row)

@[simp] theorem Reference.head_move (actions : List RowAction) (r : Reference) : (r.move actions).head = r.head := by
  unfold move
  split <;> rfl

@[simp] theorem Reference.row_move (actions : List RowAction) (r : Reference) : (r.move actions).row = moveAll actions r.row := by
  unfold move
  split
  · rename_i hstays
    exact hstays.symm
  · rfl

theorem Reference.move_of_stays {actions : List RowAction} {r : Reference} (h : moveAll actions r.row = r.row) : r.move actions = r :=
  if_pos h

namespace Piece

/-- The piece with a reference in the row to which row actions move its own. -/
def move (actions : List RowAction) : Piece → Piece
  | .reference r => .reference (r.move actions)
  | piece => piece

/-- The characters of a piece without the row of a reference. -/
def frame : Piece → List Char
  | .other lexeme => lexeme.chars
  | .reference r => r.head

@[simp] theorem frame_move (actions : List RowAction) (piece : Piece) : (piece.move actions).frame = piece.frame := by
  cases piece with
  | other lexeme => rfl
  | reference r => exact r.head_move actions

@[simp] theorem reference?_move (actions : List RowAction) (piece : Piece) :
    (piece.move actions).reference? = piece.reference?.map (Reference.move actions) := by
  cases piece <;> rfl

/-- Moving references is replacing their rows. -/
theorem setRow_moved (actions : List RowAction) (piece : Piece) :
    piece.setRow (fun row => let moved := moveAll actions row; if moved = row then none else some moved) = piece.move actions := by
  cases piece with
  | other lexeme => rfl
  | reference r =>
    simp only [setRow, move, Reference.move]
    split <;> rfl

end Piece

/-- The text with the rows of its references taken out. -/
def withoutRows (s : String) : String := String.ofList ((pieces s).flatMap Piece.frame)

/-- What is no reference stays when rows move. -/
theorem other_shift {actions : List RowAction} {s : String} {place : Nat} {lexeme : Lexeme}
    (h : (pieces s)[place]? = some (.other lexeme)) : (pieces (shift actions s))[place]? = some (.other lexeme) := by
  rw [shift, getElem?_mapRows, h]
  rfl

/-- A formula has as many pieces as before when rows move. -/
theorem length_pieces_shift (actions : List RowAction) (s : String) :
    (pieces (shift actions s)).length = (pieces s).length := by
  rw [shift, pieces_mapRows, List.length_map]

/-- A reference in a formula names a row of the sheet. -/
theorem row_of_mem_pieces {s : String} {r : Reference} (h : Piece.reference r ∈ pieces s) : 1 ≤ r.row ∧ r.row ≤ lastRow := by
  have hsettle := Piece.settle_of_mem_pieces h
  by_contra hrow
  rw [Piece.settle_lost hrow] at hsettle
  cases hsettle

/-- A piece that is a reference is one of the references of the text. -/
theorem mem_references {s : String} {place : Nat} {r : Reference} (h : (pieces s)[place]? = some (.reference r)) : r ∈ references s :=
  List.mem_filterMap.2 ⟨_, List.mem_of_getElem? h, rfl⟩

theorem row_of_mem_references {s : String} {r : Reference} (h : r ∈ references s) : 1 ≤ r.row ∧ r.row ≤ lastRow := by
  obtain ⟨piece, hpiece, hr⟩ := List.mem_filterMap.1 h
  cases piece with
  | other lexeme => cases hr
  | reference r =>
    cases hr
    exact row_of_mem_pieces hpiece

/-- The pieces of a text after its references moved to rows of the sheet. -/
theorem pieces_shift {actions : List RowAction} {s : String}
    (h : ∀ r ∈ references s, 1 ≤ moveAll actions r.row ∧ moveAll actions r.row ≤ lastRow) :
    pieces (shift actions s) = (pieces s).map (Piece.move actions) := by
  rw [shift, pieces_mapRows]
  apply List.map_congr_left
  intro piece hpiece
  rw [Piece.setRow_moved]
  cases piece with
  | other lexeme => rfl
  | reference r =>
    refine Piece.settle_reference ?_
    rw [Reference.row_move]
    exact h r (List.mem_filterMap.2 ⟨_, hpiece, rfl⟩)

section Moved

variable {actions : List RowAction} {s : String}

/-- The references of a text after they moved. -/
theorem references_shift (h : ∀ r ∈ references s, 1 ≤ moveAll actions r.row ∧ moveAll actions r.row ≤ lastRow) :
    references (shift actions s) = (references s).map (Reference.move actions) := by
  simp only [references, pieces_shift h, List.filterMap_map, List.map_filterMap]
  congr 1
  funext piece
  exact piece.reference?_move actions

theorem withoutRows_shift (h : ∀ r ∈ references s, 1 ≤ moveAll actions r.row ∧ moveAll actions r.row ≤ lastRow) :
    withoutRows (shift actions s) = withoutRows s := by
  simp only [withoutRows, pieces_shift h, List.flatMap_map, Piece.frame_move]

end Moved

/-! ## Ranges -/

/-- The reference that ends the range which one in front of the pieces opens, if a colon joins the two. -/
def closer? : List Piece → Option Reference
  | .other lexeme :: next :: _ => if lexeme = .mark ':' then next.reference? else none
  | _ => none

/-- The numbers of the references that open a range, the first reference of the pieces having number `number`. -/
def openersFrom (number : Nat) : List Piece → List Nat
  | [] => []
  | .other _ :: rest => openersFrom number rest
  | .reference _ :: rest =>
    if (closer? rest).isSome then number :: openersFrom (number + 1) rest else openersFrom (number + 1) rest

/-- The ranges of a text are those that the references with the given numbers form with the next one, in order. -/
def RangesAt (s : String) (numbers : List Nat) : Prop :=
  List.Forall₂ (fun number range => (places s)[number]? = some range.1 ∧ (places s)[number + 1]? = some range.2) numbers (ranges s)

theorem closer?_move (actions : List RowAction) (ps : List Piece) :
    closer? (ps.map (Piece.move actions)) = (closer? ps).map (Reference.move actions) := by
  match ps with
  | [] => rfl
  | .reference _ :: _ => rfl
  | [.other _] => rfl
  | .other lexeme :: next :: rest =>
    change closer? (.other lexeme :: next.move actions :: rest.map (Piece.move actions)) = _
    simp only [closer?, Piece.reference?_move]
    split <;> rfl

/-- Colons join the same references after they moved. -/
theorem openersFrom_move (actions : List RowAction) (number : Nat) (ps : List Piece) :
    openersFrom number (ps.map (Piece.move actions)) = openersFrom number ps := by
  induction ps generalizing number with
  | nil => rfl
  | cons piece rest ih =>
    cases piece with
    | other lexeme => exact ih number
    | reference r =>
      simp only [List.map_cons, Piece.move, openersFrom, closer?_move, Option.isSome_map, ih]

/-- A reference opens a range with the next one if a colon joins them. -/
theorem rangesFrom_reference (start : Nat) (r : Reference) (rest : List Piece) :
    rangesFrom start (.reference r :: rest) =
      ((closer? rest).map fun b => (⟨start, r⟩, ⟨start + Text.width r.chars + 1, b⟩)).toList ++
        rangesFrom (start + Text.width r.chars) rest := by
  match rest with
  | [] => rfl
  | .reference _ :: _ => rfl
  | [.other _] => simp [rangesFrom, closer?]
  | .other _ :: .other _ :: _ => simp [rangesFrom, closer?, Piece.reference?, Piece.chars]
  | .other lexeme :: .reference b :: rest =>
    by_cases h : lexeme = .mark ':'
    · subst h
      rfl
    · simp [rangesFrom, closer?, h, Piece.chars]

/-- What stands behind a colon that a reference follows. -/
theorem placesFrom_of_closer? {ps : List Piece} {r : Reference} (h : closer? ps = some r) (start : Nat) :
    (placesFrom start ps).head? = some ⟨start + 1, r⟩ := by
  match ps with
  | [] => cases h
  | .reference _ :: _ => cases h
  | [.other _] => cases h
  | .other lexeme :: next :: rest =>
    rw [closer?, Option.ite_none_right_eq_some] at h
    obtain ⟨rfl, hnext⟩ := h
    cases next with
    | other lexeme => cases hnext
    | reference b =>
      cases hnext
      rfl

/-- The ranges among pieces, of which some references stand in front, are those that the references opening one form with the next. -/
theorem forall₂_rangesFrom (before : List Place) (start : Nat) (ps : List Piece) :
    List.Forall₂ (fun number range => (before ++ placesFrom start ps)[number]? = some range.1 ∧
        (before ++ placesFrom start ps)[number + 1]? = some range.2)
      (openersFrom before.length ps) (rangesFrom start ps) := by
  induction ps generalizing before start with
  | nil => exact .nil
  | cons piece rest ih =>
    cases piece with
    | other lexeme => exact ih before (start + Text.width lexeme.chars)
    | reference r =>
      have hlater := ih (before ++ [⟨start, r⟩]) (start + Text.width r.chars)
      rw [List.append_assoc, List.length_append, List.length_singleton, List.singleton_append] at hlater
      rw [rangesFrom_reference, openersFrom, placesFrom]
      cases hcloser : closer? rest with
      | none => exact hlater
      | some b =>
        refine .cons ⟨?_, ?_⟩ hlater
        · rw [List.getElem?_append_right (Nat.le_refl _), Nat.sub_self]
          rfl
        · rw [List.getElem?_append_right (Nat.le_add_right _ 1), Nat.add_sub_cancel_left, List.getElem?_cons_succ,
            ← List.head?_eq_getElem?, placesFrom_of_closer? hcloser]

/-- The ranges of a text are formed by the references that open one. -/
theorem rangesAt_openers (s : String) : RangesAt s (openersFrom 0 (pieces s)) := forall₂_rangesFrom [] 0 (pieces s)

/-! ## Texts that are read again -/

/-- References that row actions keep on the sheet move to rows of the sheet. -/
theorem moved_bounds {actions : List RowAction} {s : String} (hpositions : ∀ position, .delete position ∈ actions → 1 ≤ position)
    (hstays : ∀ r ∈ references s, StaysOnSheet actions r.row) :
    ∀ r ∈ references s, 1 ≤ moveAll actions r.row ∧ moveAll actions r.row ≤ lastRow :=
  fun r hr => ⟨one_le_moveAll hpositions (row_of_mem_references hr).1, (hstays r hr).le⟩

/-- Moving references is stable under reading the text again, as long as none leaves the sheet. The new text has as many references
as the old one, each in the same columns and in the row to which its row moved, spelled as before where that is the same row. Without
their rows the texts are the same, and colons join the same references. So a text whose references moved by some actions and then by
others has the same references and the same remaining text as one whose references moved by all of them at once. -/
theorem rescan_after_shift {actions : List RowAction} {s : String}
    (hpositions : ∀ position, .delete position ∈ actions → 1 ≤ position)
    (hstays : ∀ r ∈ references s, StaysOnSheet actions r.row) :
    List.Forall₂ (fun r r' => r'.head = r.head ∧ r'.row = moveAll actions r.row ∧
        r'.digits = if moveAll actions r.row = r.row then r.digits else Text.digits (moveAll actions r.row))
      (references s) (references (shift actions s)) ∧
      withoutRows (shift actions s) = withoutRows s ∧
      (∃ numbers, RangesAt s numbers ∧ RangesAt (shift actions s) numbers) ∧
      ∀ a b, actions = a ++ b →
        List.Forall₂ (fun r r' => r'.head = r.head ∧ r'.row = r.row) (references (shift actions s))
            (references (shift b (shift a s))) ∧
          withoutRows (shift b (shift a s)) = withoutRows (shift actions s) := by
  have hbounds := moved_bounds hpositions hstays
  refine ⟨?_, withoutRows_shift hbounds, ⟨openersFrom 0 (pieces s), rangesAt_openers s, ?_⟩, ?_⟩
  · rw [references_shift hbounds, List.forall₂_map_right_iff]
    refine List.forall₂_same.2 fun r _ => ⟨r.head_move actions, r.row_move actions, ?_⟩
    unfold Reference.move
    split <;> rfl
  · rw [← openersFrom_move actions, ← pieces_shift hbounds]
    exact rangesAt_openers _
  · rintro a b rfl
    have hbefore : ∀ r ∈ references s, 1 ≤ moveAll a r.row ∧ moveAll a r.row ≤ lastRow :=
      moved_bounds (fun position hmem => hpositions position (List.mem_append_left b hmem)) fun r hr => (hstays r hr).of_append
    have hafter : ∀ r ∈ references (shift a s), 1 ≤ moveAll b r.row ∧ moveAll b r.row ≤ lastRow := by
      intro r hr
      rw [references_shift hbefore, List.mem_map] at hr
      obtain ⟨r, hr, rfl⟩ := hr
      rw [Reference.row_move, ← moveAll_append]
      exact hbounds r hr
    refine ⟨?_, ?_⟩
    · rw [references_shift hafter, references_shift hbefore, references_shift hbounds, List.map_map, List.forall₂_map_left_iff,
        List.forall₂_map_right_iff]
      refine List.forall₂_same.2 fun r _ => ?_
      simp [moveAll_append]
    · rw [withoutRows_shift hafter, withoutRows_shift hbefore, withoutRows_shift hbounds]

/-- Two of three references move down two rows and up one, at once or one after the other. -/
theorem rescan_sample : withoutRows (shift [.add 9, .add 9, .delete 3] "=SUM(A9:$B$10)+C002") = withoutRows "=SUM(A9:$B$10)+C002" ∧
    List.Forall₂ (fun r r' => r'.head = r.head ∧ r'.row = r.row)
      (references (shift [.add 9, .add 9, .delete 3] "=SUM(A9:$B$10)+C002"))
      (references (shift [.delete 3] (shift [.add 9, .add 9] "=SUM(A9:$B$10)+C002"))) ∧
    (references (shift [.add 9, .add 9, .delete 3] "=SUM(A9:$B$10)+C002")).map (·.row) = [10, 11, 2] := by
  have hpositions : ∀ position, .delete position ∈ [RowAction.add 9, .add 9, .delete 3] → 1 ≤ position := by
    intro position hmem
    obtain rfl : position = 3 := by simpa using hmem
    decide
  have hstays : ∀ r ∈ references "=SUM(A9:$B$10)+C002", StaysOnSheet [.add 9, .add 9, .delete 3] r.row := by decide +kernel
  obtain ⟨-, hremaining, -, hsplit⟩ := rescan_after_shift hpositions hstays
  exact ⟨hremaining, (hsplit [.add 9, .add 9] [.delete 3] rfl).1, by decide +kernel⟩

/-- The digits themselves may differ where a reference comes back. -/
example : shift [.add 2, .delete 2] "=A02" = "=A02" ∧ shift [.delete 2] (shift [.add 2] "=A02") = "=A2" := by decide +kernel

end Formula
end SheetTemplate

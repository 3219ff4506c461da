import SheetTemplate.Proofs.FormulaScan

/-!
# What the steps do to a reference

A step that sets a formula right leaves every piece in its place: piece `place` of the new text comes from piece `place` of the old
one. `Formula.mapRows` gives a reference the row that it asks for (`getElem?_mapRows`), and `Formula.grow` extends a reference that
ends a range of one row (`getElem?_grow`).
-/

namespace SheetTemplate
namespace Formula

namespace Piece

/-- The piece with the row of a reference replaced where `f` gives another one. -/
def setRow (f : Nat → Option Nat) : Piece → Piece
  | .reference r => .reference (((f r.row).map r.withRow).getD r)
  | piece => piece

/-- The piece with a reference extended that ends a range of one row. -/
def extend (growths : List Growth) (opener : Option Reference) (piece : Piece) : Piece :=
  match opener, piece with
  | some first, .reference r =>
    if first.row = r.row then
      match growths.find? fun g => g.above = r.row with
      | some g => .reference (r.withRow g.last)
      | none => piece
    else
      piece
  | _, _ => piece

theorem setRow_rerowed (f : Nat → Option Nat) (piece : Piece) : Rerowed piece (setRow f piece) := by
  cases piece with
  | other lexeme => exact .same _
  | reference r =>
    cases h : f r.row with
    | none =>
      rw [setRow, h]
      exact .same _
    | some row =>
      rw [setRow, h]
      exact .row r row

theorem extend_rerowed (growths : List Growth) (opener : Option Reference) (piece : Piece) :
    Rerowed piece (extend growths opener piece) := by
  unfold extend
  split
  · split
    · split
      · exact .row _ _
      · exact .same _
    · exact .same _
  · exact .same _

/-- The pieces of a text have rows of the sheet, so that they are read back as they are. -/
theorem settle_of_mem_pieces {s : String} {piece : Piece} (h : piece ∈ pieces s) : piece.settle = piece := by
  have hmap : (pieces s).map settle = pieces s := by
    have hsame : List.Forall₂ Rerowed (pieces s) (pieces s) := List.forall₂_same.2 fun piece _ => .same piece
    rw [← pieces_join hsame, join_pieces]
  exact List.map_inj_left.1 (hmap.trans (List.map_id _).symm) piece h

end Piece

/-! ## Rows -/

/-- The pieces of a text with other rows. -/
theorem pieces_mapRows (f : Nat → Option Nat) (s : String) :
    pieces (mapRows f s) = (pieces s).map fun piece => (piece.setRow f).settle := by
  have hrerowed : List.Forall₂ Piece.Rerowed (pieces s) ((pieces s).map (Piece.setRow f)) := by
    rw [List.forall₂_map_right_iff]
    exact List.forall₂_same.2 fun piece _ => Piece.setRow_rerowed f piece
  have hjoin := pieces_join hrerowed
  rw [List.map_map] at hjoin
  exact hjoin

theorem getElem?_mapRows (f : Nat → Option Nat) (s : String) (place : Nat) :
    (pieces (mapRows f s))[place]? = ((pieces s)[place]?).map fun piece => (piece.setRow f).settle := by
  rw [pieces_mapRows, List.getElem?_map]

/-- A reference whose row is replaced by one of the sheet stays a reference to the same column. -/
theorem reference_mapRows {f : Nat → Option Nat} {s : String} {place : Nat} {r : Reference}
    (h : (pieces s)[place]? = some (.reference r)) (hrow : ∀ row, f r.row = some row → 1 ≤ row ∧ row ≤ lastRow) :
    ∃ r', (pieces (mapRows f s))[place]? = some (.reference r') ∧ r'.head = r.head ∧ r'.row = (f r.row).getD r.row := by
  rw [getElem?_mapRows, h, Option.map_some]
  cases hf : f r.row with
  | none =>
    refine ⟨r, ?_, rfl, rfl⟩
    rw [Piece.setRow, hf]
    exact congrArg some (Piece.settle_of_mem_pieces (List.mem_of_getElem? h))
  | some row =>
    refine ⟨r.withRow row, ?_, rfl, rfl⟩
    rw [Piece.setRow, hf]
    exact congrArg some (Piece.settle_reference (r := r.withRow row) (hrow row hf))

/-- A reference comes from a reference with its row. -/
theorem reference_of_mapRows {f : Nat → Option Nat} {s : String} {place : Nat} {r' : Reference}
    (h : (pieces (mapRows f s))[place]? = some (.reference r')) :
    ∃ r, (pieces s)[place]? = some (.reference r) ∧ r'.row = (f r.row).getD r.row := by
  rw [getElem?_mapRows, Option.map_eq_some_iff] at h
  obtain ⟨piece, hpiece, h⟩ := h
  cases piece with
  | other lexeme => cases h
  | reference r =>
    refine ⟨r, hpiece, ?_⟩
    have hrow : (((f r.row).map r.withRow).getD r).row = (f r.row).getD r.row := by
      cases f r.row <;> rfl
    rw [← hrow]
    simp only [Piece.setRow, Piece.settle] at h
    split at h
    · rw [Piece.reference.inj h]
    · cases h

/-- Marks stay where they are. -/
theorem mark_mapRows {f : Nat → Option Nat} {s : String} {place : Nat} {c : Char} :
    (pieces (mapRows f s))[place]? = some (.other (.mark c)) ↔ (pieces s)[place]? = some (.other (.mark c)) := by
  rw [getElem?_mapRows]
  cases (pieces s)[place]? with
  | none => exact Iff.rfl
  | some piece =>
    cases piece with
    | other lexeme => exact Iff.rfl
    | reference r =>
      simp only [Option.map_some, Piece.setRow, Option.some.injEq, reduceCtorEq, iff_false, Piece.settle]
      split <;> simp

/-! ## Ranges -/

/-- The reference that opens the range which ends at a piece, if one does. -/
def openerAt (ps : List Piece) : Nat → Option Reference
  | place + 2 => opener ps[place]? ps[place + 1]?
  | _ => none

/-- Applying a function to every piece with its opener, after pieces of which the last two were `earlier` and `last`. -/
theorem getElem?_mapWithOpener_after {α : Type} (f : Option Reference → Piece → α) (earlier last : Option Piece) (ps : List Piece) :
    (mapWithOpener f earlier last ps)[0]? = (ps[0]?).map (f (opener earlier last)) ∧
      (mapWithOpener f earlier last ps)[1]? = (ps[1]?).map (f (opener last ps[0]?)) ∧
        ∀ place, (mapWithOpener f earlier last ps)[place + 2]? = (ps[place + 2]?).map (f (opener ps[place]? ps[place + 1]?)) := by
  induction ps generalizing earlier last with
  | nil => exact ⟨rfl, rfl, fun _ => rfl⟩
  | cons piece rest ih =>
    obtain ⟨hzero, hone, hmore⟩ := ih last (some piece)
    refine ⟨rfl, ?_, ?_⟩
    · simpa [mapWithOpener] using hzero
    · intro place
      cases place with
      | zero => simpa [mapWithOpener] using hone
      | succ place => simpa [mapWithOpener] using hmore place

theorem getElem?_mapWithOpener {α : Type} (f : Option Reference → Piece → α) (ps : List Piece) (place : Nat) :
    (mapWithOpener f none none ps)[place]? = (ps[place]?).map (f (openerAt ps place)) := by
  obtain ⟨hzero, hone, hmore⟩ := getElem?_mapWithOpener_after f none none ps
  match place with
  | 0 => exact hzero
  | 1 => exact hone
  | place + 2 => exact hmore place

/-- Pieces are related to what is made of them with their openers if each is, whatever its opener. -/
theorem forall₂_mapWithOpener {f : Option Reference → Piece → Piece} {R : Piece → Piece → Prop} (h : ∀ o piece, R piece (f o piece))
    (earlier last : Option Piece) (ps : List Piece) : List.Forall₂ R ps (mapWithOpener f earlier last ps) := by
  induction ps generalizing earlier last with
  | nil => exact .nil
  | cons piece rest ih => exact .cons (h _ _) (ih _ _)

/-- The pieces of a text with extended ranges. -/
theorem getElem?_grow (growths : List Growth) (s : String) (place : Nat) :
    (pieces (grow growths s))[place]? =
      ((pieces s)[place]?).map fun piece => (piece.extend growths (openerAt (pieces s) place)).settle := by
  have hjoin := pieces_join (forall₂_mapWithOpener (Piece.extend_rerowed growths) none none (pieces s))
  change pieces (grow growths s) = _ at hjoin
  rw [hjoin, List.getElem?_map, getElem?_mapWithOpener, Option.map_map]
  rfl

/-- A piece that ends no range of one row is left alone. -/
theorem getElem?_grow_of_not (growths : List Growth) {s : String} {place : Nat} {piece : Piece}
    (h : (pieces s)[place]? = some piece)
    (hends : ∀ first r, openerAt (pieces s) place = some first → piece = .reference r → first.row = r.row →
      growths.find? (fun g => g.above = r.row) = none) : (pieces (grow growths s))[place]? = some piece := by
  have hextend : piece.extend growths (openerAt (pieces s) place) = piece := by
    unfold Piece.extend
    split
    · rename_i first r hopener
      split
      · rename_i hrow
        rw [hends first r hopener rfl hrow]
      · rfl
    · rfl
  rw [getElem?_grow, h, Option.map_some, hextend, Piece.settle_of_mem_pieces (List.mem_of_getElem? h)]

/-- A reference that ends a range of one row goes on to the end of the growth below that row. -/
theorem reference_grow {growths : List Growth} {s : String} {place : Nat} {first r : Reference} {g : Growth}
    (h : (pieces s)[place]? = some (.reference r)) (hopener : openerAt (pieces s) place = some first) (hrow : first.row = r.row)
    (hfind : growths.find? (fun g => g.above = r.row) = some g) (hlast : 1 ≤ g.last ∧ g.last ≤ lastRow) :
    (pieces (grow growths s))[place]? = some (.reference (r.withRow g.last)) := by
  have hextend : (Piece.reference r).extend growths (some first) = .reference (r.withRow g.last) := by
    simp only [Piece.extend, hrow, if_true, hfind]
  rw [getElem?_grow, h, hopener, Option.map_some, hextend]
  exact congrArg some (Piece.settle_reference (r := r.withRow g.last) hlast)

/-- A formula has as many pieces as before when ranges are extended. -/
theorem length_pieces_grow (growths : List Growth) (s : String) : (pieces (grow growths s)).length = (pieces s).length := by
  have hsame : ∀ place : Nat, (pieces (grow growths s))[place]? = none ↔ (pieces s)[place]? = none := by
    intro place
    rw [getElem?_grow, Option.map_eq_none_iff]
  simp only [List.getElem?_eq_none_iff] at hsame
  exact Nat.le_antisymm ((hsame _).2 (Nat.le_refl _)) ((hsame _).1 (Nat.le_refl _))

/-- What extending ranges makes of a reference: it goes on to the end of a growth below its row if it ends a range of one row, and
stays otherwise. -/
theorem reference_grow_cases {growths : List Growth} {s : String} {place : Nat} {r : Reference}
    (h : (pieces s)[place]? = some (.reference r)) (hlast : ∀ g ∈ growths, 1 ≤ g.last ∧ g.last ≤ lastRow) :
    (pieces (grow growths s))[place]? = some (.reference r) ∨
      ∃ first, ∃ g ∈ growths, openerAt (pieces s) place = some first ∧ first.row = r.row ∧ g.above = r.row ∧
        (pieces (grow growths s))[place]? = some (.reference (r.withRow g.last)) := by
  by_cases hends : ∃ first g, openerAt (pieces s) place = some first ∧ first.row = r.row ∧
      growths.find? (fun g => g.above = r.row) = some g
  · obtain ⟨first, g, hopener, hrow, hfind⟩ := hends
    have hmem := List.mem_of_find?_eq_some hfind
    have habove : g.above = r.row := by simpa using List.find?_some hfind
    exact Or.inr ⟨first, g, hmem, hopener, hrow, habove, reference_grow h hopener hrow hfind (hlast g hmem)⟩
  · refine Or.inl (getElem?_grow_of_not growths h ?_)
    rintro first r' hopener ⟨⟩ hrow
    by_contra hsome
    obtain ⟨g, hfind⟩ := Option.ne_none_iff_exists'.1 hsome
    exact hends ⟨first, g, hopener, hrow, hfind⟩

/-! ## All steps -/

/-- A reference that moves within the sheet stays a reference to the same column. -/
theorem reference_shift {actions : List RowAction} {s : String} {place : Nat} {r : Reference}
    (h : (pieces s)[place]? = some (.reference r))
    (hrow : 1 ≤ RowAction.moveAll actions r.row ∧ RowAction.moveAll actions r.row ≤ lastRow) :
    ∃ r', (pieces (shift actions s))[place]? = some (.reference r') ∧ r'.head = r.head ∧ r'.row = RowAction.moveAll actions r.row := by
  obtain ⟨r', hr', hhead, hrow'⟩ := reference_mapRows
    (f := fun row => let moved := RowAction.moveAll actions row; if moved = row then none else some moved) h (by
      intro row hmoved
      simp only [Option.ite_none_left_eq_some, Option.some.injEq] at hmoved
      rw [← hmoved.2]
      exact hrow)
  refine ⟨r', hr', hhead, hrow'.trans ?_⟩
  simp only
  split
  · rename_i hstays
    exact hstays.symm
  · rfl

/-- Marks stay where they are when references move. -/
theorem mark_shift {actions : List RowAction} {s : String} {place : Nat} {c : Char} :
    (pieces (shift actions s))[place]? = some (.other (.mark c)) ↔ (pieces s)[place]? = some (.other (.mark c)) :=
  mark_mapRows

/-- A reference comes from a reference that moved there. -/
theorem reference_of_shift {actions : List RowAction} {s : String} {place : Nat} {r' : Reference}
    (h : (pieces (shift actions s))[place]? = some (.reference r')) :
    ∃ r, (pieces s)[place]? = some (.reference r) ∧ r'.row = RowAction.moveAll actions r.row := by
  obtain ⟨r, hr, hrow⟩ := reference_of_mapRows h
  refine ⟨r, hr, hrow.trans ?_⟩
  simp only
  split
  · rename_i heq
    exact heq.symm
  · rfl

/-- On a row outside of runs nothing is pointed to the row itself. -/
theorem localize_of_nil {runs : List RowAction.Run} {row : Nat} (h : runs.filter (fun run => run.contains row) = []) (s : String) :
    localize runs row s = s := by
  rw [localize, h]
  rfl

/-- On a row of one run references to the row above the run are pointed to the row itself, and others are left alone. -/
theorem reference_localize {runs : List RowAction.Run} {row : Nat} {run : RowAction.Run}
    (h : runs.filter (fun run => run.contains row) = [run]) (hrow : 1 ≤ row ∧ row ≤ lastRow) {s : String} {place : Nat}
    {r : Reference} (hr : (pieces s)[place]? = some (.reference r)) :
    ∃ r', (pieces (localize runs row s))[place]? = some (.reference r') ∧ r'.head = r.head ∧
      r'.row = if r.row = run.first - 1 then row else r.row := by
  have hlocalize : localize runs row s = mapRows (fun r => if r = run.first - 1 then some row else none) s := by
    rw [localize, h]
    rfl
  obtain ⟨r', hr', hhead, hrow'⟩ := reference_mapRows (f := fun r => if r = run.first - 1 then some row else none) hr (by
    intro own hown
    simp only [Option.ite_none_right_eq_some, Option.some.injEq] at hown
    rw [← hown.2]
    exact hrow)
  rw [hlocalize]
  refine ⟨r', hr', hhead, hrow'.trans ?_⟩
  split <;> rfl

/-- On a row of the sheet references stay references to the same column, whichever runs hold the row. -/
theorem reference_localize_head (runs : List RowAction.Run) {row : Nat} (hrow : 1 ≤ row ∧ row ≤ lastRow) {s : String} {place : Nat}
    {r : Reference} (hr : (pieces s)[place]? = some (.reference r)) :
    ∃ r', (pieces (localize runs row s))[place]? = some (.reference r') ∧ r'.head = r.head := by
  rw [localize]
  generalize runs.filter (fun run => run.contains row) = own
  induction own generalizing s r with
  | nil => exact ⟨r, hr, rfl⟩
  | cons run rest ih =>
    obtain ⟨r1, hr1, hhead1, -⟩ := reference_mapRows (f := fun above => if above = run.first - 1 then some row else none) hr (by
      intro own hown
      simp only [Option.ite_none_right_eq_some, Option.some.injEq] at hown
      rw [← hown.2]
      exact hrow)
    obtain ⟨r2, hr2, hhead2⟩ := ih hr1
    exact ⟨r2, hr2, hhead2.trans hhead1⟩

/-- A reference that moves within the sheet stays a reference to the same column in all steps. -/
theorem reference_rebase {actions : List RowAction} {runs : List RowAction.Run} {growths : List Growth} {row : Nat}
    (hrow : 1 ≤ row ∧ row ≤ lastRow) (hlast : ∀ g ∈ growths, 1 ≤ g.last ∧ g.last ≤ lastRow) {s : String} {place : Nat} {r : Reference}
    (hr : (pieces s)[place]? = some (.reference r))
    (hmoved : 1 ≤ RowAction.moveAll actions r.row ∧ RowAction.moveAll actions r.row ≤ lastRow) :
    ∃ r', (pieces (grow growths (localize runs row (shift actions s))))[place]? = some (.reference r') ∧ r'.head = r.head := by
  obtain ⟨r1, hr1, hhead1, -⟩ := reference_shift hr hmoved
  obtain ⟨r2, hr2, hhead2⟩ := reference_localize_head runs hrow hr1
  rcases reference_grow_cases hr2 hlast with hstays | ⟨first, g, -, -, -, -, hgrows⟩
  · exact ⟨r2, hstays, hhead2.trans hhead1⟩
  · exact ⟨_, hgrows, hhead2.trans hhead1⟩

/-- What becomes of a formula. -/
theorem text?_rebase {actions : List RowAction} {areas : SortedSet Area} {grid : Grid} {cell : Address} {text : String}
    (h : grid.text? cell = some text) (hformula : isFormula text = true) :
    (rebase actions areas grid).text? cell =
      some (grow (growths (RowAction.runs actions) grid areas) (localize (RowAction.runs actions) cell.row (shift actions text))) := by
  rw [rebase, Grid.text?_mapTexts, h, Option.map_some, if_pos hformula]

end Formula
end SheetTemplate

import SheetTemplate.Proofs.ShiftedReferences

/-!
# What is foreign to the sheet

Moving references changes one lexeme of a formula at a time, and which one it changes depends on the lexemes next to it alone
(`Formula.getElem?_lexemes_shift`). So what stands in quotes stays, and so does a word directly behind `!` or directly before `(` or
`!`: a reference into another sheet, the name of a function, the name of a sheet (`Formula.foreign_words_stay`).

A reference that ends a range is the only one of another sheet that no such mark sets apart: in `Data!A1:A5` what stands before `A5` is
a colon. It moves with the rows of this sheet while the first one stays (`Formula.foreign_range_end_moves`).
-/

namespace SheetTemplate
namespace Formula

open RowAction

/-! ## Lexemes and pieces -/

/-- The lexemes of a text, whose characters in order are the text (`flatMap_chars_lex`). -/
def lexemes (s : String) : List Lexeme := lex s.toList 0

/-- What stands before a place among lexemes, of which `previous` stands before the first. -/
def previousAt (previous : Option Lexeme) (ls : List Lexeme) : Nat → Option Lexeme
  | 0 => previous
  | place + 1 => ls[place]?

/-- A word at this place is no reference to a cell of the same sheet, however it is spelled: it stands directly behind `!`, or
directly before `(` or `!`. -/
def SetApart (ls : List Lexeme) (place : Nat) : Prop :=
  previousAt none ls place = some (.mark '!') ∨ makesName ls[place + 1]? = true

instance (ls : List Lexeme) (place : Nat) : Decidable (SetApart ls place) :=
  inferInstanceAs (Decidable (previousAt none ls place = some (.mark '!') ∨ makesName ls[place + 1]? = true))

theorem map_lexeme_classify (previous : Option Lexeme) (ls : List Lexeme) : (classify previous ls).map Piece.lexeme = ls := by
  induction ls generalizing previous with
  | nil => rfl
  | cons lexeme rest ih => rw [classify_cons, List.map_cons, lexeme_classifyOne, ih]

/-- The pieces of a text are spelled by its lexemes. -/
theorem map_lexeme_pieces (s : String) : (pieces s).map Piece.lexeme = lexemes s := map_lexeme_classify none _

/-- What a lexeme in the middle is taken for. -/
theorem getElem?_classify (previous : Option Lexeme) (ls : List Lexeme) (place : Nat) :
    (classify previous ls)[place]? = (ls[place]?).map (classifyOne (previousAt previous ls place) ls[place + 1]?) := by
  induction ls generalizing previous place with
  | nil => rfl
  | cons lexeme rest ih =>
    cases place with
    | zero =>
      rw [classify_cons, List.getElem?_cons_zero, List.getElem?_cons_zero, List.getElem?_cons_succ, List.head?_eq_getElem?]
      rfl
    | succ place =>
      rw [classify_cons, List.getElem?_cons_succ, List.getElem?_cons_succ, List.getElem?_cons_succ, ih]
      cases place <;> rfl

theorem getElem?_pieces (s : String) (place : Nat) :
    (pieces s)[place]? = ((lexemes s)[place]?).map (classifyOne (previousAt none (lexemes s) place) (lexemes s)[place + 1]?) :=
  getElem?_classify none _ place

section Place

variable {s : String} {place : Nat} {cs : List Char}

theorem pieces_of_not_word {lexeme : Lexeme} (h : (lexemes s)[place]? = some lexeme) (hword : ∀ cs, lexeme ≠ .word cs) :
    (pieces s)[place]? = some (.other lexeme) := by
  rw [getElem?_pieces, h, Option.map_some]
  cases lexeme with
  | word cs => exact absurd rfl (hword cs)
  | quoted cs => rfl
  | mark c => rfl

theorem pieces_of_setApart (h : (lexemes s)[place]? = some (.word cs)) (hapart : SetApart (lexemes s) place) :
    (pieces s)[place]? = some (.other (.word cs)) := by
  have hcond : (decide (previousAt none (lexemes s) place = some (.mark '!')) || makesName (lexemes s)[place + 1]?) = true := by
    rw [Bool.or_eq_true, decide_eq_true_iff]
    exact hapart
  rw [getElem?_pieces, h, Option.map_some, classifyOne, if_pos hcond]

theorem pieces_of_not_setApart (h : (lexemes s)[place]? = some (.word cs)) (hapart : ¬SetApart (lexemes s) place) :
    (pieces s)[place]? = some (((Reference.ofWord? cs).map Piece.reference).getD (.other (.word cs))) := by
  have hcond : ¬(decide (previousAt none (lexemes s) place = some (.mark '!')) || makesName (lexemes s)[place + 1]?) = true := by
    rw [Bool.or_eq_true, decide_eq_true_iff]
    exact hapart
  rw [getElem?_pieces, h, Option.map_some, classifyOne, if_neg hcond]
  cases Reference.ofWord? cs <;> rfl

end Place

/-! ## Moved lexemes -/

theorem Piece.lexeme_settle (piece : Piece) : piece.settle.lexeme = piece.lexeme := by
  cases piece with
  | other lexeme => rfl
  | reference r =>
    simp only [settle]
    split <;> rfl

/-- The lexemes of a text whose references moved are those of the moved pieces, wherever the rows lie. -/
theorem lexemes_shift (actions : List RowAction) (s : String) :
    lexemes (shift actions s) = (pieces s).map fun piece => (piece.move actions).lexeme := by
  rw [← map_lexeme_pieces, shift, pieces_mapRows, List.map_map]
  refine List.map_congr_left fun piece _ => ?_
  rw [Function.comp_apply, Piece.lexeme_settle, Piece.setRow_moved]

/-- What becomes of a piece is seen from the piece alone. -/
theorem getElem?_lexemes_shift (actions : List RowAction) (s : String) (place : Nat) :
    (lexemes (shift actions s))[place]? = ((pieces s)[place]?).map fun piece => (piece.move actions).lexeme := by
  rw [lexemes_shift, List.getElem?_map]

/-- A reference that was read keeps its spelling exactly if its row stays. -/
theorem Reference.chars_move_eq_iff {actions : List RowAction} {cs : List Char} {r : Reference} (h : ofWord? cs = some r) :
    (r.move actions).chars = cs ↔ moveAll actions r.row = r.row := by
  constructor
  · intro hchars
    by_contra hmoves
    have hread := ofWord?_withRow h (moveAll actions r.row)
    rw [move, if_neg hmoves] at hchars
    rw [hchars, h] at hread
    split at hread
    · exact hmoves (congrArg Reference.row (Option.some.inj hread)).symm
    · cases hread
  · intro hstays
    rw [move_of_stays hstays, chars_of_ofWord? h]

/-- A reference that moves within the sheet is read back in its new row. -/
theorem Reference.ofWord?_chars_move {actions : List RowAction} {cs : List Char} {r : Reference} (h : ofWord? cs = some r)
    (hrow : 1 ≤ moveAll actions r.row ∧ moveAll actions r.row ≤ lastRow) : ofWord? (r.move actions).chars = some (r.move actions) := by
  by_cases hstays : moveAll actions r.row = r.row
  · rw [move_of_stays hstays, chars_of_ofWord? h, h]
  · rw [move, if_neg hstays, ofWord?_withRow h, if_pos hrow]

/-! ## Words of other sheets -/

section Shifted

variable {actions : List RowAction} {s : String} {place : Nat} {cs : List Char}

/-- What is no reference is spelled as before. -/
theorem lexeme_shift_of_other {lexeme : Lexeme} (h : (pieces s)[place]? = some (.other lexeme)) :
    (lexemes (shift actions s))[place]? = some lexeme := by
  rw [getElem?_lexemes_shift, h]
  rfl

/-- A word that no mark sets apart and that spells a cell moves. -/
theorem word_shift_of_reads {r : Reference} (h : (lexemes s)[place]? = some (.word cs)) (hapart : ¬SetApart (lexemes s) place)
    (hr : Reference.ofWord? cs = some r) : (lexemes (shift actions s))[place]? = some (.word (r.move actions).chars) := by
  rw [getElem?_lexemes_shift, pieces_of_not_setApart h hapart, hr]
  rfl

/-- A word stays if a mark sets it apart or it spells no cell. -/
theorem word_shift_of_stays (h : (lexemes s)[place]? = some (.word cs))
    (hstays : SetApart (lexemes s) place ∨ Reference.ofWord? cs = none) :
    (lexemes (shift actions s))[place]? = some (.word cs) := by
  refine lexeme_shift_of_other ?_
  by_cases hapart : SetApart (lexemes s) place
  · exact pieces_of_setApart h hapart
  · rw [pieces_of_not_setApart h hapart, hstays.resolve_left hapart, Option.map_none, Option.getD_none]

/-- A word that spells a cell stays exactly if a mark sets it apart or its row stays. -/
theorem word_shift_iff {r : Reference} (h : (lexemes s)[place]? = some (.word cs)) (hr : Reference.ofWord? cs = some r) :
    (lexemes (shift actions s))[place]? = some (.word cs) ↔ moveAll actions r.row = r.row ∨ SetApart (lexemes s) place := by
  by_cases hapart : SetApart (lexemes s) place
  · exact iff_of_true (word_shift_of_stays h (.inl hapart)) (.inr hapart)
  · rw [word_shift_of_reads h hapart hr, Option.some_inj, Lexeme.word.injEq, Reference.chars_move_eq_iff hr, or_iff_left hapart]

end Shifted

/-- What moving references does to the lexemes of a text, as long as none of them leaves the sheet. It leaves alone what stands in quotes,
all marks, the words that are no references by the marks next to them, and those that do not spell a cell. Any other word that spells a
cell moves with its row, and spells the cell in the new row. So of a range in another sheet the first word stays, and the second one stays
exactly if its row does or a mark behind it makes it a name. -/
theorem foreign_words_stay {actions : List RowAction} {s : String}
    (hpositions : ∀ position, .delete position ∈ actions → 1 ≤ position) (hstays : ∀ r ∈ references s, StaysOnSheet actions r.row) :
    (lexemes (shift actions s)).length = (lexemes s).length ∧
      (∀ (place : Nat) lexeme, (lexemes s)[place]? = some lexeme → (∀ cs, lexeme ≠ .word cs) →
        (lexemes (shift actions s))[place]? = some lexeme) ∧
      (∀ (place : Nat) cs, (lexemes s)[place]? = some (.word cs) →
        SetApart (lexemes s) place ∨ Reference.ofWord? cs = none → (lexemes (shift actions s))[place]? = some (.word cs)) ∧
      (∀ (place : Nat) cs r, (lexemes s)[place]? = some (.word cs) → ¬SetApart (lexemes s) place → Reference.ofWord? cs = some r →
        (lexemes (shift actions s))[place]? = some (.word (r.move actions).chars) ∧
          Reference.ofWord? (r.move actions).chars = some (r.move actions)) ∧
      ∀ (place : Nat) x y b, (lexemes s)[place]? = some (.mark '!') → (lexemes s)[place + 1]? = some (.word x) →
        (lexemes s)[place + 2]? = some (.mark ':') → (lexemes s)[place + 3]? = some (.word y) → Reference.ofWord? y = some b →
        (lexemes (shift actions s))[place + 1]? = some (.word x) ∧
          ((lexemes (shift actions s))[place + 3]? = some (.word y) ↔
            moveAll actions b.row = b.row ∨ makesName (lexemes s)[place + 4]? = true) := by
  refine ⟨?_, fun place lexeme h hword => lexeme_shift_of_other (pieces_of_not_word h hword),
    fun place cs => word_shift_of_stays, ?_, ?_⟩
  · rw [lexemes_shift, ← map_lexeme_pieces, List.length_map, List.length_map]
  · intro place cs r h hapart hr
    have hpiece := pieces_of_not_setApart h hapart
    rw [hr] at hpiece
    refine ⟨word_shift_of_reads h hapart hr, Reference.ofWord?_chars_move hr ?_⟩
    exact moved_bounds hpositions hstays r (mem_references hpiece)
  · intro place x y b hmark hx hcolon hy hready
    refine ⟨word_shift_of_stays hx (.inl (.inl hmark)), ?_⟩
    -- A colon stands before the second word, so that only the mark behind it can set it apart.
    have hapart : SetApart (lexemes s) (place + 3) ↔ makesName (lexemes s)[place + 4]? = true := by
      rw [SetApart, previousAt, hcolon]
      simp
    rw [word_shift_iff hy hready, hapart]

/-- A row comes in at the top: the name of a function, quoted text, the name of a sheet and the first cell behind it stay, the cell of
the same sheet moves, and so does the last word. -/
theorem foreign_words_sample :
    (lexemes (shift [.add 1] "=LOG10(A5)&\"A1\"&'My Sheet'!A1:C3"))[1]? = some (.word "LOG10".toList) ∧
      (lexemes (shift [.add 1] "=LOG10(A5)&\"A1\"&'My Sheet'!A1:C3"))[3]? = some (.word "A6".toList) ∧
      (lexemes (shift [.add 1] "=LOG10(A5)&\"A1\"&'My Sheet'!A1:C3"))[8]? = some (.quoted "'My Sheet'".toList) ∧
      (lexemes (shift [.add 1] "=LOG10(A5)&\"A1\"&'My Sheet'!A1:C3"))[10]? = some (.word "A1".toList) ∧
      (lexemes (shift [.add 1] "=LOG10(A5)&\"A1\"&'My Sheet'!A1:C3"))[12]? ≠ some (.word "C3".toList) := by
  have hpositions : ∀ position, .delete position ∈ [RowAction.add 1] → 1 ≤ position := by simp
  have hstays : ∀ r ∈ references "=LOG10(A5)&\"A1\"&'My Sheet'!A1:C3", StaysOnSheet [.add 1] r.row := by decide +kernel
  obtain ⟨-, hquoted, hstay, hmove, hrange⟩ := foreign_words_stay hpositions hstays
  obtain ⟨hfirst, hsecond⟩ := hrange 9 "A1".toList "C3".toList ⟨['C'], ['3'], 3⟩ (by decide +kernel) (by decide +kernel)
    (by decide +kernel) (by decide +kernel) (by decide +kernel)
  refine ⟨hstay 1 _ (by decide +kernel) (by decide +kernel), ?_, hquoted 8 _ (by decide +kernel) (by intro cs h; cases h), hfirst, ?_⟩
  · exact (hmove 3 "A5".toList ⟨['A'], ['5'], 5⟩ (by decide +kernel) (by decide +kernel) (by decide +kernel)).1
  · rw [Ne, hsecond]
    decide +kernel

/-- The last cell of a range in another sheet moves with the rows of this one. -/
theorem foreign_range_end_moves : shift [.add 1] "=SUM(Data!A1:A5)" = "=SUM(Data!A1:A6)" ∧
    shift [.add 1] "='My Sheet'!A1:C3" = "='My Sheet'!A1:C4" := by decide +kernel

end Formula
end SheetTemplate

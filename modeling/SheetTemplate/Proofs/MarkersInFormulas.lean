import SheetTemplate.Proofs.FormulaSteps
import SheetTemplate.Proofs.RewrittenText

/-!
# Markers in formulas

Formulas are set right while their markers still stand in them, and the reading of references does not know of markers. All that the
steps change are the rows of references (`Piece.Renumbered`), so in the text only the digits of whole words (`rewritten_of_renumbered`).
`markers_after_rebase`: the markers of a formula keep their order, their signs and blanks, and all paths that do not read as cells.

`marker_read_as_cell`: a marker that reads as a cell does change, and stands for another key from then on.
-/

namespace SheetTemplate
namespace Formula

/-! ## Formulas are rewritten -/

namespace Piece

/-- The same piece, or what may have become of a reference after several steps: a reference to the same column, or a word with the
spelling of one that has left the sheet. -/
inductive Renumbered : Piece → Piece → Prop
  | same (piece : Piece) : Renumbered piece piece
  | row {r r' : Reference} (head_eq : r'.head = r.head) (spelled : Reference.IsRow r'.digits) :
      Renumbered (.reference r) (.reference r')
  | lost {r : Reference} {digits : List Char} (spelled : Reference.IsRow digits) :
      Renumbered (.reference r) (.other (.word (r.head ++ digits)))

/-- A further step gives a reference another row, or none. -/
theorem Renumbered.settle {piece piece' next : Piece} (h : Renumbered piece piece') (hsettled : piece'.settle = piece')
    (hstep : Rerowed piece' next) : Renumbered piece next.settle := by
  cases hstep with
  | same =>
    rw [hsettled]
    exact h
  | row r' row =>
    have hcolumn : ∃ r, piece = .reference r ∧ r'.head = r.head := by
      cases h with
      | same => exact ⟨r', rfl, rfl⟩
      | row head_eq spelled => exact ⟨_, rfl, head_eq⟩
    obtain ⟨r, rfl, hhead⟩ := hcolumn
    by_cases hrow : 1 ≤ row ∧ row ≤ lastRow
    · rw [settle_reference (r := r'.withRow row) hrow]
      exact .row hhead (Reference.isRow_digits row)
    · rw [settle_lost (r := r'.withRow row) hrow, Reference.chars]
      simp only [Reference.withRow, hhead]
      exact .lost (Reference.isRow_digits row)

end Piece

/-- A step renumbers pieces that were renumbered before. -/
theorem renumbered_join {s t : String} {ps : List Piece} (h : List.Forall₂ Piece.Renumbered (pieces s) (pieces t))
    (hstep : List.Forall₂ Piece.Rerowed (pieces t) ps) : List.Forall₂ Piece.Renumbered (pieces s) (pieces (join ps)) := by
  have hsettled : ∀ piece ∈ pieces t, piece.settle = piece := fun _ => Piece.settle_of_mem_pieces
  rw [pieces_join hstep, List.forall₂_map_right_iff]
  generalize pieces s = before at h
  generalize pieces t = middle at h hstep hsettled
  induction h generalizing ps with
  | nil =>
    cases hstep
    exact .nil
  | cons hfirst hrest ih =>
    cases hstep with
    | cons hnext hafter =>
      exact .cons (hfirst.settle (hsettled _ List.mem_cons_self) hnext)
        (ih hafter fun piece hmem => hsettled piece (List.mem_cons_of_mem _ hmem))

theorem renumbered_mapRows {s t : String} (f : Nat → Option Nat) (h : List.Forall₂ Piece.Renumbered (pieces s) (pieces t)) :
    List.Forall₂ Piece.Renumbered (pieces s) (pieces (mapRows f t)) := by
  refine renumbered_join h ?_
  rw [List.forall₂_map_right_iff]
  exact List.forall₂_same.2 fun piece _ => Piece.setRow_rerowed f piece

/-- All steps together renumber the references of a formula and leave its other pieces alone. -/
theorem renumbered_steps (actions : List RowAction) (runs : List RowAction.Run) (growths : List Growth) (row : Nat) (s : String) :
    List.Forall₂ Piece.Renumbered (pieces s) (pieces (grow growths (localize runs row (shift actions s)))) := by
  have hshift : List.Forall₂ Piece.Renumbered (pieces s) (pieces (shift actions s)) :=
    renumbered_mapRows _ (List.forall₂_same.2 fun piece _ => .same piece)
  have hlocalize : List.Forall₂ Piece.Renumbered (pieces s) (pieces (localize runs row (shift actions s))) := by
    rw [localize]
    generalize runs.filter (fun run => run.contains row) = own
    generalize shift actions s = t at hshift
    induction own generalizing t with
    | nil => exact hshift
    | cons run own ih => exact ih _ (renumbered_mapRows _ hshift)
  exact renumbered_join hlocalize (forall₂_mapWithOpener (Piece.extend_rerowed growths) none none _)

namespace Reference

/-- The row of a reference is spelled in digits. -/
theorem isRow_of_ofWord? {cs : List Char} {r : Reference} (h : ofWord? cs = some r) : IsRow r.digits := by
  simp only [ofWord?, Option.bind_eq_bind, Option.bind_eq_some_iff] at h
  obtain ⟨row, hrow, h⟩ := h
  split at h
  · cases h
    unfold Text.number? at hrow
    split at hrow
    · rename_i hnumber
      exact ⟨hnumber.1, hnumber.2.1⟩
    · cases hrow
  · cases h

end Reference

/-- Quoted text ends with the quote that it begins with if anything follows it. -/
theorem getLast?_of_quotedLength {quote : Char} (content : List Char) {tail : List Char} (htail : tail ≠ [])
    (h : quotedLength quote (content ++ tail) = content.length) : content.getLast? = some quote := by
  match content with
  | [] => exact absurd (eq_nil_of_quotedLength h) htail
  | c :: content =>
    by_cases hc : c = quote
    · subst hc
      match content with
      | [] => rfl
      | d :: content =>
        by_cases hd : d = c
        · subst hd
          rw [List.cons_append, List.cons_append, quotedLength_twice, List.length_cons, List.length_cons] at h
          have hlast := getLast?_of_quotedLength content htail (Nat.add_left_cancel (h.trans (Nat.add_comm _ 2)))
          rw [List.getLast?_cons_cons, List.getLast?_cons, hlast]
          rfl
        · rw [List.cons_append, List.cons_append, quotedLength_closing (by simpa using hd), List.length_cons,
            List.length_cons] at h
          omega
    · rw [List.cons_append, quotedLength_of_ne hc, List.length_cons] at h
      have hlast := getLast?_of_quotedLength content htail (Nat.add_left_cancel (h.trans (Nat.add_comm _ 1)))
      rw [List.getLast?_cons, hlast]
      rfl

/-- Lexemes are not empty, and a word begins with a character of words. -/
theorem Lexed.exists_cons {lexeme : Lexeme} {rest : List Lexeme} (h : Lexed (lexeme :: rest)) :
    ∃ c cs, (lexeme :: rest).flatMap Lexeme.chars = c :: cs ∧ ∀ word, lexeme = .word word → isWordChar c = true := by
  cases h with
  | quoted opens closes after => exact ⟨_, _, rfl, by rintro word ⟨⟩⟩
  | mark no_quote no_word after => exact ⟨_, _, rfl, by rintro word ⟨⟩⟩
  | word ne_nil letters ends after =>
    obtain ⟨c, cs, rfl⟩ := List.exists_cons_of_ne_nil ne_nil
    exact ⟨c, _, rfl, fun _ _ => letters c List.mem_cons_self⟩

/-- Quoted text ends with a quote, unless nothing follows it. -/
theorem Lexed.getLast?_quoted {quote : Char} {content : List Char} {rest : List Lexeme}
    (closes : quotedLength quote (content ++ rest.flatMap Lexeme.chars) = content.length) (after : Lexed rest) :
    (quote :: content).getLast? = some quote ∨ rest = [] := by
  cases rest with
  | nil => exact Or.inr rfl
  | cons next rest =>
    obtain ⟨c, cs, hchars, -⟩ := after.exists_cons
    rw [List.getLast?_cons, getLast?_of_quotedLength content (by simp [hchars]) closes]
    exact Or.inl rfl

/-- A word in front of rewritten text is kept, or spelled with other digits where it is read as a reference. -/
theorem rewritten_word {cs tail tail' : List Char} {previous next : Option Lexeme} {piece : Piece} {opens : Bool} (ne_nil : cs ≠ [])
    (letters : ∀ c ∈ cs, isWordChar c = true) (ends : ∀ c, tail.head? = some c → isWordChar c = false)
    (hopens : previous ≠ some (.mark '!') → opens = true)
    (hpiece : Piece.Renumbered (classifyOne previous next (.word cs)) piece)
    (hafter : Rewritten Reference.Reads false tail tail') :
    Rewritten Reference.Reads opens (cs ++ tail) (piece.chars ++ tail') := by
  have hkeep : Rewritten Reference.Reads opens (cs ++ tail) (cs ++ tail') := by
    refine Rewritten.append_left (List.getLast?_eq_some_getLast ne_nil) ?_ opens
    rw [opensWord, letters _ (List.getLast_mem ne_nil)]
    exact hafter
  simp only [classifyOne] at hpiece
  split at hpiece
  · cases hpiece
    exact hkeep
  · rename_i hname
    have hbegins : opens = true := by
      refine hopens ?_
      rintro rfl
      exact hname rfl
    subst hbegins
    cases hr : Reference.ofWord? cs with
    | none =>
      rw [hr] at hpiece
      cases hpiece
      exact hkeep
    | some r =>
      rw [hr] at hpiece
      have hchars := Reference.chars_of_ofWord? hr
      have hword : ∀ digits : List Char, Reference.IsRow digits →
          Rewritten Reference.Reads true (cs ++ tail) (r.head ++ digits ++ tail') := by
        intro digits hdigits
        rw [← hchars]
        refine .word (Reference.isHead_of_ofWord? hr) (Reference.isRow_of_ofWord? hr) hdigits ?_ ends hafter
        rw [← Reference.chars, hchars, Reference.Reads, hr]
        rfl
      cases hpiece with
      | same =>
        rw [← hchars] at hkeep ⊢
        exact hkeep
      | @row _ r' head_eq spelled =>
        have hspell := hword r'.digits spelled
        rw [← head_eq] at hspell
        exact hspell
      | lost spelled => exact hword _ spelled

/-- Renumbered pieces are spelled with other digits in some words. -/
theorem rewritten_of_renumbered {lexemes : List Lexeme} (h : Lexed lexemes) {previous : Option Lexeme} {ps : List Piece}
    (hs : List.Forall₂ Piece.Renumbered (classify previous lexemes) ps) {opens : Bool}
    (hopens : ∀ word rest, lexemes = .word word :: rest → previous ≠ some (.mark '!') → opens = true) :
    Rewritten Reference.Reads opens (lexemes.flatMap Lexeme.chars) (ps.flatMap Piece.chars) := by
  induction h generalizing previous ps opens with
  | nil =>
    cases hs
    exact .nil
  | @quoted quote content rest opensQuote closes after ih =>
    rw [classify_cons] at hs
    cases hs with
    | @cons _ _ _ ps hfirst hrest =>
      cases hfirst
      rcases after.getLast?_quoted closes with hlast | rfl
      · refine Rewritten.append_left hlast (ih hrest ?_) opens
        intro _ _ _ _
        simp only [isQuote, Bool.or_eq_true, decide_eq_true_eq] at opensQuote
        rcases opensQuote with rfl | rfl <;> decide
      · cases hrest
        exact Rewritten.append_left (List.getLast?_eq_some_getLast (List.cons_ne_nil quote content)) .nil opens
  | @word cs rest ne_nil letters ends after ih =>
    rw [classify_cons] at hs
    cases hs with
    | cons hfirst hrest =>
      refine rewritten_word ne_nil letters ends (hopens cs rest rfl) hfirst (ih hrest ?_)
      -- No word follows the word, so nothing begins directly behind it.
      rintro word rest' rfl -
      obtain ⟨c, others, hchars, hword⟩ := after.exists_cons
      have hnot := ends c (by rw [hchars]; rfl)
      rw [hword word rfl] at hnot
      cases hnot
  | @mark c rest no_quote no_word after ih =>
    rw [classify_cons] at hs
    cases hs with
    | cons hfirst hrest =>
      cases hfirst
      refine .keep (ih hrest ?_)
      intro word rest' _ hmark
      simp only [opensWord, no_word, Bool.not_false, Bool.true_and, decide_eq_true_eq]
      rintro rfl
      exact hmark rfl

/-! ## The markers of a grid -/

/-- Setting formulas right leaves the markers of every cell in order, with their signs and blanks. It leaves their paths too,
unless one spells a cell of the sheet and no exclamation mark stands before it: such a path may name another row afterwards. -/
theorem markers_after_rebase {actions : List RowAction} {areas : SortedSet Area} {grid : Grid} {cell : Address} {text : String}
    (h : grid.text? cell = some text) :
    ∃ rebased, (rebase actions areas grid).text? cell = some rebased ∧
      List.Forall₂ Marker.Follows (Marker.all text) (Marker.all rebased) ∧
      ((∀ m ∈ Marker.all text, m.isCell = false) → Marker.all rebased = Marker.all text) := by
  have hfollows : ∃ rebased, (rebase actions areas grid).text? cell = some rebased ∧
      List.Forall₂ Marker.Follows (Marker.all text) (Marker.all rebased) := by
    cases hformula : isFormula text with
    | true =>
      refine ⟨_, text?_rebase h hformula, ?_⟩
      generalize growths (RowAction.runs actions) grid areas = growths
      have hrewritten : Rewritten _ true _ _ := rewritten_of_renumbered (lexed_lex text.toList 0)
        (renumbered_steps actions (RowAction.runs actions) growths cell.row text) fun _ _ _ _ => rfl
      rw [flatMap_chars_lex, List.drop_zero] at hrewritten
      have hmarkers := hrewritten.markers fun _ hword => hword
      rw [← String.toList_ofList (l := (pieces (grow growths _)).flatMap Piece.chars)] at hmarkers
      change List.Forall₂ _ _ (Marker.all (join (pieces (grow growths _)))) at hmarkers
      rwa [join_pieces] at hmarkers
    | false =>
      refine ⟨text, ?_, List.forall₂_same.2 fun m _ => ⟨rfl, rfl, Or.inl rfl⟩⟩
      rw [rebase, Grid.text?_mapTexts, h, Option.map_some, hformula]
      rfl
  obtain ⟨rebased, hrebased, hall⟩ := hfollows
  refine ⟨rebased, hrebased, hall, ?_⟩
  intro hcell
  generalize Marker.all text = markers at hall hcell
  generalize Marker.all rebased = markers' at hall
  induction hall with
  | nil => rfl
  | cons hfirst hrest ih =>
    rw [hfirst.eq_of_not_isCell (hcell _ List.mem_cons_self), ih fun m hm => hcell m (List.mem_cons_of_mem _ hm)]

/-- A marker beside references that move stays. -/
theorem marker_beside_reference : ∃ rebased,
    (rebase [.add 2, .add 3] ∅ (Grid.put ∅ ⟨.first, 4⟩ "=A2*[a.0]+A1")).text? ⟨.first, 4⟩ = some rebased ∧
      Marker.all rebased = [⟨.value, [], ⟨["a", "0"]⟩⟩] := by
  have htext : (Grid.put ∅ ⟨.first, 4⟩ "=A2*[a.0]+A1").text? ⟨.first, 4⟩ = some "=A2*[a.0]+A1" := by
    rw [Grid.text?_put, if_pos rfl]
  obtain ⟨rebased, hrebased, -, hsame⟩ := @markers_after_rebase [.add 2, .add 3] ∅ _ _ _ htext
  have hmarkers : Marker.all "=A2*[a.0]+A1" = [⟨.value, [], ⟨["a", "0"]⟩⟩] := by decide +kernel
  refine ⟨rebased, hrebased, ?_⟩
  rw [hsame, hmarkers]
  rw [hmarkers]
  decide

/-- A marker whose path spells a cell does not stay: below a list of three `[Q2]` becomes `[Q4]`, which stands for another key. -/
theorem marker_read_as_cell :
    (rebase [.add 2, .add 3] ∅ (Grid.put ∅ ⟨.first, 4⟩ "=SUM([Q2])")).text? ⟨.first, 4⟩ = some "=SUM([Q4])" ∧
      Marker.all "=SUM([Q2])" = [⟨.value, [], ⟨["Q2"]⟩⟩] ∧ Marker.all "=SUM([Q4])" = [⟨.value, [], ⟨["Q4"]⟩⟩] := by
  decide +kernel

end Formula
end SheetTemplate

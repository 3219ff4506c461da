import Mathlib.Data.List.Forall2
import Mathlib.Data.List.TakeWhile
import SheetTemplate.Formula.Rebase

/-!
# Formulas that are read again

Each step that sets a formula right takes it apart anew. What the step before it put together is taken apart into the same pieces
with the new rows (`pieces_join`): a reference is read back from its characters as long as its row is one of the sheet, and one
that has left the sheet is an ordinary word from then on.

The lexemes of the new text are those of the old one with other words in some places. A word ends where it did, since no word
follows another, and whether a quote closes does not depend on the words behind it.
-/

namespace SheetTemplate
namespace Formula

/-! ## References -/

namespace Reference

/-- What stands before the digits of a reference: one to three upper-case letters, with a dollar sign before and behind them or
not. -/
structure IsHead (head : List Char) : Prop where
  spelled : ∃ before letters after : List Char, head = before ++ (letters ++ after) ∧ (before = [] ∨ before = ['$']) ∧
    1 ≤ letters.length ∧ letters.length ≤ 3 ∧ (∀ c ∈ letters, c.isUpper = true) ∧ (after = [] ∨ after = ['$'])

/-- An upper-case letter is no digit and no dollar sign. -/
theorem not_isDigit_of_isUpper {c : Char} (h : c.isUpper = true) : c.isDigit = false ∧ c ≠ '$' := by
  refine ⟨Text.isDigit_eq_false_of_isAlpha (Text.isAlpha_of_isUpper h), ?_⟩
  rintro rfl
  revert h
  decide

theorem take_dollarLength (cs : List Char) : cs.take (dollarLength cs) = [] ∨ cs.take (dollarLength cs) = ['$'] := by
  unfold dollarLength
  split
  · rename_i h
    cases cs with
    | nil => exact Or.inl rfl
    | cons c cs =>
      obtain rfl : c = '$' := by simpa using h
      exact Or.inr rfl
  · exact Or.inl rfl

/-- A reference begins with a column. -/
theorem isHead_of_ofWord? {cs : List Char} {r : Reference} (h : ofWord? cs = some r) : IsHead r.head := by
  simp only [ofWord?, Option.bind_eq_bind, Option.bind_eq_some_iff] at h
  obtain ⟨row, -, h⟩ := h
  split at h
  · rename_i hc
    cases h
    obtain ⟨rest, hrest⟩ := List.takeWhile_prefix (p := Char.isUpper) (l := cs.drop (dollarLength cs))
    have hletters : (cs.drop (dollarLength cs)).take (letters cs).length = letters cs := by
      rw [← hrest, ← letters, List.take_left]
    refine ⟨cs.take (dollarLength cs), letters cs,
      (cs.drop (dollarLength cs + (letters cs).length)).take (dollarLength (cs.drop (dollarLength cs + (letters cs).length))),
      ?_, take_dollarLength cs, hc.1, hc.2.1, fun c hmem => List.mem_takeWhile_imp hmem, take_dollarLength _⟩
    change cs.take (headLength cs) = _
    rw [headLength, List.take_add, List.take_add, hletters, List.append_assoc]
  · cases h

/-- A column is read back before any digits. -/
theorem ofWord?_append {head digits : List Char} (h : IsHead head) (hne : digits ≠ []) (hdigits : digits.all Char.isDigit = true) :
    ofWord? (head ++ digits) =
      (Text.number? lastRow digits).bind fun row => if row ≠ 0 then some ⟨head, digits, row⟩ else none := by
  obtain ⟨before, name, after, rfl, hbefore, hlow, hhigh, hupper, hafter⟩ := h.spelled
  have hname : ∃ c rest, name = c :: rest ∧ c.isUpper = true := by
    cases name with
    | nil => simp at hlow
    | cons c rest => exact ⟨c, rest, rfl, hupper c List.mem_cons_self⟩
  have hdigit : ∃ d rest, digits = d :: rest ∧ d.isDigit = true := by
    cases digits with
    | nil => exact absurd rfl hne
    | cons d rest => exact ⟨d, rest, rfl, List.all_eq_true.1 hdigits d List.mem_cons_self⟩
  obtain ⟨c, names, hname, hc⟩ := hname
  obtain ⟨d, others, hdigit, hd⟩ := hdigit
  have hd' : d ≠ '$' ∧ d.isUpper = false := by
    constructor
    · rintro rfl
      revert hd
      decide
    · by_contra hup
      rw [(not_isDigit_of_isUpper (by simpa using hup)).1] at hd
      cases hd
  have hdollar : ∀ rest, dollarLength (name ++ rest) = 0 := by
    intro rest
    rw [hname, dollarLength, if_neg]
    simpa using (not_isDigit_of_isUpper hc).2
  have hstart : dollarLength (before ++ (name ++ (after ++ digits))) = before.length := by
    rcases hbefore with rfl | rfl
    · exact hdollar _
    · rfl
  have hend : dollarLength (after ++ digits) = after.length := by
    rcases hafter with rfl | rfl
    · rw [List.nil_append, hdigit, dollarLength, if_neg (by simpa using hd'.1)]
      rfl
    · rfl
  have hstop : (after ++ digits).takeWhile Char.isUpper = [] := by
    rcases hafter with rfl | rfl
    · rw [List.nil_append, hdigit, List.takeWhile_cons, if_neg (by simp [hd'.2])]
    · rfl
  have hletters : letters (before ++ (name ++ (after ++ digits))) = name := by
    rw [letters, hstart, List.drop_left, List.takeWhile_append_of_pos hupper, hstop, List.append_nil]
  have hlength : headLength (before ++ (name ++ (after ++ digits))) = (before ++ (name ++ after)).length := by
    simp only [headLength, hstart, hletters]
    have hdrop : (before ++ (name ++ (after ++ digits))).drop (before.length + name.length) = after ++ digits := by
      rw [← List.append_assoc, ← List.length_append, List.drop_left]
    rw [hdrop, hend]
    simp only [List.length_append]
    omega
  have happend : before ++ (name ++ after) ++ digits = before ++ (name ++ (after ++ digits)) := by
    simp only [List.append_assoc]
  rw [ofWord?, happend, hlength, ← happend, List.drop_left, List.take_left, happend, hletters]
  simp only [hlow, hhigh, true_and, Option.bind_eq_bind]

/-- A number is read back from its digits exactly when it keeps the limit. -/
theorem number?_digits_eq (limit n : Nat) : Text.number? limit (Text.digits n) = if n ≤ limit then some n else none := by
  split
  · rename_i h
    exact Text.number?_digits h
  · rename_i h
    have hn : Nat.ofDigitChars 10 (Text.digits n) 0 = n := Nat.ofDigitChars_toDigits (by decide) (by decide)
    rw [Text.number?, if_neg]
    rintro ⟨-, -, hle⟩
    rw [hn] at hle
    exact h hle

/-- A reference with another row is read back if that is a row of the sheet, and is no reference otherwise. -/
theorem ofWord?_withRow {cs : List Char} {r : Reference} (h : ofWord? cs = some r) (row : Nat) :
    ofWord? (r.withRow row).chars = if 1 ≤ row ∧ row ≤ lastRow then some (r.withRow row) else none := by
  rw [chars, withRow, ofWord?_append (isHead_of_ofWord? h) (Text.digits_ne_nil row) (Text.all_isDigit_digits row),
    number?_digits_eq]
  by_cases hlast : row ≤ lastRow
  · by_cases hzero : row = 0
    · simp [hzero]
    · have hone : 1 ≤ row := Nat.one_le_iff_ne_zero.2 hzero
      simp [hlast, hone, hzero]
  · simp [hlast]

/-- A reference that was read is in a row of the sheet. -/
theorem row_of_ofWord? {cs : List Char} {r : Reference} (h : ofWord? cs = some r) : 1 ≤ r.row ∧ r.row ≤ lastRow := by
  simp only [ofWord?, Option.bind_eq_bind, Option.bind_eq_some_iff] at h
  obtain ⟨row, hrow, h⟩ := h
  split at h
  · rename_i hc
    cases h
    unfold Text.number? at hrow
    split at hrow
    · rename_i hnumber
      cases hrow
      exact ⟨Nat.one_le_iff_ne_zero.2 hc.2.2, hnumber.2.2⟩
    · cases hrow
  · cases h

/-- A reference consists of characters of words. -/
theorem isWordChar_of_isHead {head digits : List Char} (h : IsHead head) (hdigits : digits.all Char.isDigit = true) {c : Char}
    (hc : c ∈ head ++ digits) : isWordChar c = true := by
  obtain ⟨before, name, after, rfl, hbefore, -, -, hupper, hafter⟩ := h.spelled
  have hdollar : isWordChar '$' = true := by decide
  simp only [List.mem_append] at hc
  rcases hc with (hc | hc | hc) | hc
  · rcases hbefore with rfl | rfl
    · cases hc
    · rw [List.mem_singleton.1 hc]
      exact hdollar
  · simp [isWordChar, Char.isAlphanum, Text.isAlpha_of_isUpper (hupper c hc)]
  · rcases hafter with rfl | rfl
    · cases hc
    · rw [List.mem_singleton.1 hc]
      exact hdollar
  · simp [isWordChar, Char.isAlphanum, List.all_eq_true.1 hdigits c hc]

end Reference

/-! ## Lexemes -/

/-- Characters that were already taken do not matter. -/
theorem lex_eq_drop (cs : List Char) (covered : Nat) : lex cs covered = lex (cs.drop covered) 0 := by
  induction cs generalizing covered with
  | nil => cases covered <;> rfl
  | cons c rest ih =>
    cases covered with
    | zero => rfl
    | succ covered => exact ih covered

/-- The closing quote is among the characters that are there. -/
theorem quotedLength_le (quote : Char) (cs : List Char) : quotedLength quote cs ≤ cs.length := by
  fun_induction quotedLength quote cs with
  | case1 => exact Nat.le_refl 0
  | case2 => simp
  | case3 rest ih =>
    simp only [List.length_cons]
    omega
  | case4 => simp
  | case5 c rest h ih =>
    simp only [List.length_cons]
    omega

/-- Lexemes as they are found in a text. -/
inductive Lexed : List Lexeme → Prop
  | nil : Lexed []
  | quoted {quote : Char} {content : List Char} {rest : List Lexeme} (opens : isQuote quote = true)
      (closes : quotedLength quote (content ++ rest.flatMap Lexeme.chars) = content.length) (after : Lexed rest) :
      Lexed (.quoted (quote :: content) :: rest)
  | word {cs : List Char} {rest : List Lexeme} (ne_nil : cs ≠ []) (letters : ∀ c ∈ cs, isWordChar c = true)
      (ends : ∀ c, (rest.flatMap Lexeme.chars).head? = some c → isWordChar c = false) (after : Lexed rest) :
      Lexed (.word cs :: rest)
  | mark {c : Char} {rest : List Lexeme} (no_quote : isQuote c = false) (no_word : isWordChar c = false) (after : Lexed rest) :
      Lexed (.mark c :: rest)

theorem isQuote_eq_false_of_isWordChar {c : Char} (h : isWordChar c = true) : isQuote c = false := by
  rw [isQuote, Bool.or_eq_false_iff, decide_eq_false_iff_not, decide_eq_false_iff_not]
  constructor <;> (rintro rfl; revert h; decide)

/-- What follows the longest run of characters with a property begins without it. -/
theorem head?_drop_takeWhile {p : Char → Bool} {cs : List Char} {c : Char}
    (h : (cs.drop (cs.takeWhile p).length).head? = some c) : p c = false := by
  have hdrop : cs.drop (cs.takeWhile p).length = cs.dropWhile p :=
    List.append_cancel_left ((Text.takeWhile_append_drop p cs).symm.trans List.takeWhile_append_dropWhile.symm)
  have hnot := List.head?_dropWhile_not p cs
  rw [hdrop] at h
  rw [h] at hnot
  exact hnot

/-- The lexemes of a text are found in it. -/
theorem lexed_lex (cs : List Char) (covered : Nat) : Lexed (lex cs covered) := by
  induction cs generalizing covered with
  | nil => exact .nil
  | cons c rest ih =>
    match covered with
    | covered + 1 => exact ih covered
    | 0 =>
      simp only [lex]
      split
      · rename_i hquote
        refine .quoted hquote ?_ (ih _)
        have hle := quotedLength_le c rest
        rw [flatMap_chars_lex, List.take_append_drop, List.length_take]
        omega
      · split
        · rename_i hword
          refine .word (List.cons_ne_nil _ _) ?_ ?_ (ih _)
          · intro d hd
            rcases List.mem_cons.1 hd with rfl | hd
            · exact hword
            · exact List.mem_takeWhile_imp hd
          · intro d hd
            rw [flatMap_chars_lex] at hd
            exact head?_drop_takeWhile hd
        · rename_i hquote hword
          exact .mark (by simpa using hquote) (by simpa using hword) (ih 0)

/-- Lexemes as they are found in texts are found again when they are put together. -/
theorem Lexed.lex_chars {lexemes : List Lexeme} (h : Lexed lexemes) : lex (lexemes.flatMap Lexeme.chars) 0 = lexemes := by
  induction h with
  | nil => rfl
  | @quoted quote content rest opens closes after ih =>
    rw [List.flatMap_cons, Lexeme.chars, List.cons_append, lex]
    simp only [opens, if_true, closes, List.take_left]
    rw [lex_eq_drop, List.drop_left, ih]
  | @word cs rest ne_nil letters ends after ih =>
    obtain ⟨c, others, rfl⟩ := List.exists_cons_of_ne_nil ne_nil
    have hc := letters c List.mem_cons_self
    have hothers : ∀ d ∈ others, isWordChar d = true := fun d hd => letters d (List.mem_cons_of_mem c hd)
    have hstop : (rest.flatMap Lexeme.chars).takeWhile isWordChar = [] := by
      cases htail : rest.flatMap Lexeme.chars with
      | nil => rfl
      | cons d tail => rw [List.takeWhile_cons, if_neg (by simp [ends d (by rw [htail]; rfl)])]
    rw [List.flatMap_cons, Lexeme.chars, List.cons_append, lex]
    simp only [isQuote_eq_false_of_isWordChar hc, hc, Bool.false_eq_true, if_false, if_true]
    rw [List.takeWhile_append_of_pos hothers, hstop, List.append_nil, lex_eq_drop, List.drop_left, ih]
  | @mark c rest no_quote no_word after ih =>
    rw [List.flatMap_cons, Lexeme.chars, List.cons_append, List.nil_append, lex]
    simp only [no_quote, no_word, Bool.false_eq_true, if_false, ih]

/-! ## Other words in some places -/

/-- The same lexeme, or another word for a word. -/
inductive Similar : Lexeme → Lexeme → Prop
  | same (lexeme : Lexeme) : Similar lexeme lexeme
  | word {cs cs' : List Char} (ne_nil : cs ≠ []) (letters : ∀ c ∈ cs, isWordChar c = true) (ne_nil' : cs' ≠ [])
      (letters' : ∀ c ∈ cs', isWordChar c = true) : Similar (.word cs) (.word cs')

/-- Characters that are none of words are the same at the start of texts with similar lexemes. -/
theorem head?_of_similar {lexemes lexemes' : List Lexeme} (h : Lexed lexemes) (hs : List.Forall₂ Similar lexemes lexemes') :
    (lexemes.flatMap Lexeme.chars).head? = (lexemes'.flatMap Lexeme.chars).head? ∨
      ∃ c c', (lexemes.flatMap Lexeme.chars).head? = some c ∧ (lexemes'.flatMap Lexeme.chars).head? = some c' ∧
        isWordChar c = true ∧ isWordChar c' = true := by
  cases hs with
  | nil => exact Or.inl rfl
  | cons hfirst hrest =>
    cases hfirst with
    | same =>
      left
      cases h with
      | quoted opens closes after => rfl
      | mark no_quote no_word after => rfl
      | word ne_nil letters ends after =>
        obtain ⟨c, cs, rfl⟩ := List.exists_cons_of_ne_nil ne_nil
        rfl
    | word ne_nil letters ne_nil' letters' =>
      obtain ⟨c, cs, rfl⟩ := List.exists_cons_of_ne_nil ne_nil
      obtain ⟨c', cs', rfl⟩ := List.exists_cons_of_ne_nil ne_nil'
      exact Or.inr ⟨c, c', rfl, rfl, letters c List.mem_cons_self, letters' c' List.mem_cons_self⟩

/-- A character that is no quote is quoted. -/
theorem quotedLength_of_ne {quote c : Char} (h : c ≠ quote) (rest : List Char) :
    quotedLength quote (c :: rest) = 1 + quotedLength quote rest := by
  cases rest <;> simp [quotedLength, h]

/-- A quote that is written twice is quoted. -/
theorem quotedLength_twice (quote : Char) (rest : List Char) :
    quotedLength quote (quote :: quote :: rest) = 2 + quotedLength quote rest := by
  simp [quotedLength]

/-- A quote that is not written twice closes. -/
theorem quotedLength_closing {quote : Char} {rest : List Char} (h : rest.head? ≠ some quote) :
    quotedLength quote (quote :: rest) = 1 := by
  cases rest with
  | nil => simp [quotedLength]
  | cons d rest =>
    have hd : d ≠ quote := by simpa using h
    simp [quotedLength, hd]

/-- Up to the end of a text at least one character is quoted. -/
theorem eq_nil_of_quotedLength {quote : Char} {cs : List Char} (h : quotedLength quote cs = 0) : cs = [] := by
  cases cs with
  | nil => rfl
  | cons c rest =>
    by_cases hc : c = quote
    · subst hc
      by_cases hrest : rest.head? = some c
      · obtain ⟨others, rfl⟩ := List.head?_eq_some_iff.1 hrest
        rw [quotedLength_twice] at h
        omega
      · rw [quotedLength_closing hrest] at h
        cases h
    · rw [quotedLength_of_ne hc] at h
      omega

/-- Whether and where a quote closes depends on what follows only as far as that is another such quote. -/
theorem quotedLength_append {quote : Char} {tail tail' : List Char} (hquote : tail'.head? = some quote → tail.head? = some quote)
    (hnil : tail = [] → tail' = []) (content : List Char) (h : quotedLength quote (content ++ tail) = content.length) :
    quotedLength quote (content ++ tail') = content.length := by
  match content with
  | [] => rw [hnil (eq_nil_of_quotedLength h)]; rfl
  | c :: content =>
    by_cases hc : c = quote
    · subst hc
      match content with
      | [] =>
        rw [List.cons_append, List.nil_append, quotedLength_closing]
        · rfl
        · intro htail'
          obtain ⟨rest, rfl⟩ := List.head?_eq_some_iff.1 (hquote htail')
          rw [List.cons_append, List.nil_append, quotedLength_twice, List.length_singleton] at h
          omega
      | d :: content =>
        by_cases hd : d = c
        · subst hd
          rw [List.cons_append, List.cons_append, quotedLength_twice, List.length_cons, List.length_cons] at h ⊢
          rw [quotedLength_append hquote hnil content (by omega)]
          omega
        · rw [List.cons_append, List.cons_append, quotedLength_closing (by simpa using hd), List.length_cons,
            List.length_cons] at h
          omega
    · rw [List.cons_append, quotedLength_of_ne hc, List.length_cons] at h ⊢
      rw [quotedLength_append hquote hnil content (by omega)]
      omega

/-- Lexemes stay such as they are found in texts when words are replaced by others. -/
theorem Lexed.similar {lexemes lexemes' : List Lexeme} (h : Lexed lexemes) (hs : List.Forall₂ Similar lexemes lexemes') :
    Lexed lexemes' := by
  induction h generalizing lexemes' with
  | nil =>
    cases hs
    exact .nil
  | @quoted quote content rest opens closes after ih =>
    cases hs with
    | @cons _ _ _ rest' hfirst hrest =>
      cases hfirst
      refine .quoted opens (quotedLength_append ?_ ?_ content closes) (ih hrest)
      · intro hquote
        rcases head?_of_similar after hrest with hsame | ⟨c, c', -, hc', -, hword⟩
        · rw [hsame, hquote]
        · rw [hquote] at hc'
          cases hc'
          rw [isQuote_eq_false_of_isWordChar hword] at opens
          cases opens
      · intro hnil
        rcases head?_of_similar after hrest with hsame | ⟨c, c', hc, -⟩
        · rw [hnil] at hsame
          exact List.head?_eq_none_iff.1 hsame.symm
        · rw [hnil] at hc
          cases hc
  | @word cs rest ne_nil letters ends after ih =>
    cases hs with
    | @cons _ lexeme _ rest' hfirst hrest =>
      have hends : ∀ c, (rest'.flatMap Lexeme.chars).head? = some c → isWordChar c = false := by
        intro c hc
        rcases head?_of_similar after hrest with hsame | ⟨d, -, hd, -, hword, -⟩
        · exact ends c (hsame.trans hc)
        · rw [ends d hd] at hword
          cases hword
      cases hfirst with
      | same => exact .word ne_nil letters hends (ih hrest)
      | word _ _ ne_nil' letters' => exact .word ne_nil' letters' hends (ih hrest)
  | @mark c rest no_quote no_word after ih =>
    cases hs with
    | cons hfirst hrest =>
      cases hfirst
      exact .mark no_quote no_word (ih hrest)

/-! ## Pieces -/

namespace Piece

/-- The lexeme that a piece is spelled by. -/
def lexeme : Piece → Lexeme
  | .other lexeme => lexeme
  | .reference r => .word r.chars

/-- The piece as it is read again: a reference outside of the sheet is an ordinary word. -/
def settle : Piece → Piece
  | .other lexeme => .other lexeme
  | .reference r => if 1 ≤ r.row ∧ r.row ≤ lastRow then .reference r else .other (.word r.chars)

theorem settle_reference {r : Reference} (h : 1 ≤ r.row ∧ r.row ≤ lastRow) : settle (.reference r) = .reference r := if_pos h

theorem settle_lost {r : Reference} (h : ¬(1 ≤ r.row ∧ r.row ≤ lastRow)) : settle (.reference r) = .other (.word r.chars) :=
  if_neg h

/-- The same piece, or a reference with another row for a reference. -/
inductive Rerowed : Piece → Piece → Prop
  | same (piece : Piece) : Rerowed piece piece
  | row (r : Reference) (row : Nat) : Rerowed (.reference r) (.reference (r.withRow row))

theorem chars_lexeme (piece : Piece) : piece.lexeme.chars = piece.chars := by
  cases piece <;> rfl

/-- A mark stays a mark when rows change. -/
theorem Rerowed.lexeme_eq_mark_iff {piece piece' : Piece} (h : Rerowed piece piece') (c : Char) :
    piece.lexeme = .mark c ↔ piece'.lexeme = .mark c := by
  cases h with
  | same => exact Iff.rfl
  | row r row => constructor <;> (intro hmark; cases hmark)

end Piece

/-- What a lexeme is taken for between two others. -/
def classifyOne (previous next : Option Lexeme) (lexeme : Lexeme) : Piece :=
  match lexeme with
  | .word cs =>
    if previous = some (.mark '!') || makesName next then
      .other lexeme
    else
      match Reference.ofWord? cs with
      | some r => .reference r
      | none => .other lexeme
  | _ => .other lexeme

theorem classify_cons (previous : Option Lexeme) (lexeme : Lexeme) (rest : List Lexeme) :
    classify previous (lexeme :: rest) = classifyOne previous rest.head? lexeme :: classify (some lexeme) rest :=
  rfl

theorem lexeme_classifyOne (previous next : Option Lexeme) (lexeme : Lexeme) :
    (classifyOne previous next lexeme).lexeme = lexeme := by
  unfold classifyOne
  split
  · split
    · rfl
    · split
      · rename_i hr
        exact congrArg Lexeme.word (Reference.chars_of_ofWord? hr)
      · rfl
  · rfl

/-- A piece with another row is taken for what it is, between the same marks. -/
theorem classifyOne_rerowed {previous previous' next next' : Option Lexeme} {lexeme : Lexeme} {piece : Piece}
    (h : Piece.Rerowed (classifyOne previous next lexeme) piece)
    (hprevious : previous = some (.mark '!') ↔ previous' = some (.mark '!')) (hnext : makesName next = makesName next') :
    classifyOne previous' next' piece.lexeme = piece.settle := by
  have hcond : (decide (previous = some (.mark '!')) || makesName next) =
      (decide (previous' = some (.mark '!')) || makesName next') := by
    rw [hnext, decide_eq_decide.2 hprevious]
  cases lexeme with
  | quoted cs =>
    cases h
    rfl
  | mark c =>
    cases h
    rfl
  | word cs =>
    simp only [classifyOne] at h
    split at h
    · rename_i hname
      cases h
      rw [hcond] at hname
      simp only [Piece.lexeme, classifyOne, hname, if_true, Piece.settle]
    · rename_i hname
      rw [hcond] at hname
      cases hr : Reference.ofWord? cs with
      | none =>
        rw [hr] at h
        cases h
        simp only [Piece.lexeme, classifyOne, hname, Bool.false_eq_true, if_false, hr, Piece.settle]
      | some r =>
        rw [hr] at h
        cases h with
        | same =>
          have hrow := Reference.row_of_ofWord? hr
          simp only [Piece.lexeme, classifyOne, hname, Bool.false_eq_true, if_false, Reference.chars_of_ofWord? hr, hr,
            Piece.settle_reference hrow]
        | row _ row =>
          simp only [Piece.lexeme, classifyOne, hname, Bool.false_eq_true, if_false, Reference.ofWord?_withRow hr]
          by_cases hrow : 1 ≤ row ∧ row ≤ lastRow
          · simp only [hrow, and_self, if_true, Piece.settle_reference (r := r.withRow row) hrow]
          · simp only [hrow, if_false, Piece.settle_lost (r := r.withRow row) hrow]

/-- A piece with another row is spelled by the same mark, if by any. -/
theorem eq_mark_iff_of_rerowed {previous next : Option Lexeme} {lexeme : Lexeme} {piece : Piece}
    (h : Piece.Rerowed (classifyOne previous next lexeme) piece) (c : Char) : lexeme = .mark c ↔ piece.lexeme = .mark c := by
  rw [← h.lexeme_eq_mark_iff c, lexeme_classifyOne]

/-- Whether a word in front makes a name depends on marks alone. -/
theorem makesName_congr {a b : Lexeme} (h : ∀ c, a = .mark c ↔ b = .mark c) : makesName (some a) = makesName (some b) := by
  cases a with
  | mark c => rw [(h c).1 rfl]
  | quoted cs =>
    cases b with
    | mark c => cases (h c).2 rfl
    | quoted cs' => rfl
    | word cs' => rfl
  | word cs =>
    cases b with
    | mark c => cases (h c).2 rfl
    | quoted cs' => rfl
    | word cs' => rfl

/-- Pieces with other rows are taken for what they are. -/
theorem classify_rerowed {lexemes : List Lexeme} {previous previous' : Option Lexeme} {ps : List Piece}
    (h : List.Forall₂ Piece.Rerowed (classify previous lexemes) ps)
    (hprevious : previous = some (.mark '!') ↔ previous' = some (.mark '!')) :
    classify previous' (ps.map Piece.lexeme) = ps.map Piece.settle := by
  induction lexemes generalizing previous previous' ps with
  | nil =>
    cases h
    rfl
  | cons lexeme rest ih =>
    rw [classify_cons] at h
    cases h with
    | @cons _ piece _ ps hfirst hrest =>
      have hnext : makesName rest.head? = makesName (ps.map Piece.lexeme).head? := by
        cases rest with
        | nil =>
          cases hrest
          rfl
        | cons second rest =>
          rw [classify_cons] at hrest
          cases hrest with
          | cons hsecond _ => exact makesName_congr (eq_mark_iff_of_rerowed hsecond)
      rw [List.map_cons, List.map_cons, classify_cons, classifyOne_rerowed hfirst hprevious hnext]
      rw [ih hrest]
      rw [Option.some_inj, Option.some_inj]
      exact eq_mark_iff_of_rerowed hfirst '!'

/-- The lexemes of pieces with other rows are similar. -/
theorem similar_of_rerowed {lexemes : List Lexeme} (h : Lexed lexemes) {previous : Option Lexeme} {ps : List Piece}
    (hs : List.Forall₂ Piece.Rerowed (classify previous lexemes) ps) : List.Forall₂ Similar lexemes (ps.map Piece.lexeme) := by
  induction lexemes generalizing previous ps with
  | nil =>
    cases hs
    exact .nil
  | cons lexeme rest ih =>
    rw [classify_cons] at hs
    cases hs with
    | @cons _ piece _ ps hfirst hrest =>
      have hafter : Lexed rest := by cases h <;> assumption
      refine .cons ?_ (ih hafter hrest)
      have hlexeme := lexeme_classifyOne previous rest.head? lexeme
      generalize hp : classifyOne previous rest.head? lexeme = p at hfirst hlexeme
      subst hlexeme
      cases hfirst with
      | same => exact .same _
      | row r row =>
        cases h with
        | word ne_nil letters ends after =>
          -- The column is that of a word that was read as a reference.
          obtain ⟨cs, hr⟩ : ∃ cs, Reference.ofWord? cs = some r := by
            simp only [Piece.lexeme, classifyOne] at hp
            split at hp
            · cases hp
            · split at hp
              · rename_i hr
                cases hp
                exact ⟨_, hr⟩
              · cases hp
          refine .word ne_nil letters ?_ ?_
          · intro hnil
            exact Text.digits_ne_nil row (List.append_eq_nil_iff.1 hnil).2
          · intro c hc
            exact Reference.isWordChar_of_isHead (Reference.isHead_of_ofWord? hr) (Text.all_isDigit_digits row) hc

/-- Pieces with other rows that are put together are taken apart into the same pieces again, as far as their references are in
rows of the sheet. -/
theorem pieces_join {s : String} {ps : List Piece} (h : List.Forall₂ Piece.Rerowed (pieces s) ps) :
    pieces (join ps) = ps.map Piece.settle := by
  have hlexed := lexed_lex s.toList 0
  have hchars : ps.flatMap Piece.chars = (ps.map Piece.lexeme).flatMap Lexeme.chars := by
    rw [List.flatMap_map]
    exact congrArg (fun f => ps.flatMap f) (funext fun piece => (Piece.chars_lexeme piece).symm)
  rw [pieces, join, String.toList_ofList, hchars, (hlexed.similar (similar_of_rerowed hlexed h)).lex_chars]
  exact classify_rerowed h Iff.rfl

end Formula
end SheetTemplate

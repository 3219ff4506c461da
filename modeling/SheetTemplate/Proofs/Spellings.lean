import Mathlib
import SheetTemplate.Address

/-!
# Spellings of columns, cells and areas

Letters spell a number in base 26 with the digits 1 to 26 (`Column.spelled`). There is no digit for zero, so every number has one
spelling in upper case, and reading the letters of a column and writing the column of letters undo each other (`spelled_lettersUpTo`,
`lettersUpTo_spelled`). Seven letters reach beyond the last column and eight are always too many, which is where reading stops to
succeed. Cells and areas are read back because letters, digits and the colon cannot be taken for each other.
-/

namespace SheetTemplate
namespace Column

/-! ## Letters and numbers -/

/-- The number that letters spell: each letter counts its place in the alphabet, 26 times for each letter behind it. -/
def spelled : List Char → Nat
  | [] => 0
  | letter :: rest => letterValue letter * 26 ^ rest.length + spelled rest

/-- What is read of characters as the letters of a column: all but the blanks around them and the dollar signs before them. -/
def word (cs : List Char) : List Char := (Text.trimChars cs).dropWhile (· = '$')

theorem foldl_eq (letters : List Char) (start : Nat) :
    letters.foldl (fun n c => n * 26 + letterValue c) start = start * 26 ^ letters.length + spelled letters := by
  induction letters generalizing start with
  | nil => simp [spelled]
  | cons letter rest ih =>
    rw [List.foldl_cons, ih, spelled, List.length_cons, Nat.pow_succ]
    ring

/-- One more letter at the end. -/
theorem spelled_concat (letters : List Char) (letter : Char) :
    spelled (letters ++ [letter]) = spelled letters * 26 + letterValue letter := by
  have h := foldl_eq (letters ++ [letter]) 0
  rw [List.foldl_append, foldl_eq letters 0] at h
  simpa using h.symm

theorem toNat_of_isUpper {c : Char} (h : c.isUpper = true) : 65 ≤ c.toNat ∧ c.toNat ≤ 90 := by
  have hrange : decide ('A'.val ≤ c.val ∧ c.val ≤ 'Z'.val) = true := h
  rw [decide_eq_true_eq, UInt32.le_iff_toNat_le, UInt32.le_iff_toNat_le] at hrange
  exact hrange

theorem letterValue_bounds {c : Char} (h : c.isAlpha = true) : 1 ≤ letterValue c ∧ letterValue c ≤ 26 := by
  have hupper := toNat_of_isUpper ((Char.isUpper_toUpper_eq_isAlpha c).trans h)
  rw [letterValue]
  omega

/-- A letter in upper case is the one at its place in the alphabet. -/
theorem ofNat_letterValue {c : Char} (h : c.isAlpha = true) : Char.ofNat (64 + letterValue c) = c.toUpper := by
  have hupper := toNat_of_isUpper ((Char.isUpper_toUpper_eq_isAlpha c).trans h)
  rw [letterValue, Nat.add_sub_cancel' (by omega), Char.ofNat_toNat]

theorem letterValue_ofNat {n : Nat} (h : n < 26) : letterValue (Char.ofNat (65 + n)) = n + 1 := by
  revert n
  decide +kernel

theorem isUpper_ofNat {n : Nat} (h : n < 26) : (Char.ofNat (65 + n)).isUpper = true := by
  revert n
  decide +kernel

/-! ## From numbers to letters and back -/

theorem isUpper_of_mem_lettersUpTo {length n : Nat} {c : Char} (h : c ∈ lettersUpTo length n) : c.isUpper = true := by
  induction length generalizing n with
  | zero => simp [lettersUpTo] at h
  | succ length ih =>
    cases n with
    | zero => simp [lettersUpTo] at h
    | succ n =>
      rw [lettersUpTo, List.mem_append, List.mem_singleton] at h
      rcases h with h | rfl
      · exact ih h
      · exact isUpper_ofNat (Nat.mod_lt n (by decide))

/-- The letters of a number spell it, if they are not too few. -/
theorem spelled_lettersUpTo {length n : Nat} (h : n < 26 ^ length) : spelled (lettersUpTo length n) = n := by
  induction length generalizing n with
  | zero =>
    obtain rfl : n = 0 := by simpa using h
    rfl
  | succ length ih =>
    cases n with
    | zero => rfl
    | succ n =>
      rw [Nat.pow_succ] at h
      rw [lettersUpTo, spelled_concat, ih (by omega), letterValue_ofNat (Nat.mod_lt n (by decide))]
      omega

/-- Letters in upper case are those of the number that they spell. -/
theorem lettersUpTo_spelled {length : Nat} {letters : List Char} (hletters : ∀ c ∈ letters, c.isAlpha = true)
    (hlength : letters.length ≤ length) : lettersUpTo length (spelled letters) = letters.map Char.toUpper := by
  induction letters using List.reverseRecOn generalizing length with
  | nil => cases length <;> rfl
  | append_singleton letters letter ih =>
    cases length with
    | zero => simp at hlength
    | succ length =>
      have hletter := hletters letter (by simp)
      obtain ⟨hpos, hle⟩ := letterValue_bounds hletter
      rw [List.length_append, List.length_singleton] at hlength
      obtain ⟨place, hplace⟩ := Nat.exists_eq_add_of_le' hpos
      have hmore : spelled (letters ++ [letter]) = spelled letters * 26 + place + 1 := by
        rw [spelled_concat, hplace]
        rfl
      have hquotient : (spelled letters * 26 + place) / 26 = spelled letters := by omega
      have hremainder : 65 + (spelled letters * 26 + place) % 26 = 64 + letterValue letter := by omega
      rw [hmore, lettersUpTo, hquotient, hremainder, ofNat_letterValue hletter,
        ih (fun c hc => hletters c (by simp [hc])) (by omega), List.map_append, List.map_singleton]

theorem pow_le_spelled {letters : List Char} (hletters : ∀ c ∈ letters, c.isAlpha = true) (hne : letters ≠ []) :
    26 ^ (letters.length - 1) ≤ spelled letters := by
  cases letters with
  | nil => exact absurd rfl hne
  | cons letter rest =>
    have hpos := (letterValue_bounds (hletters letter List.mem_cons_self)).1
    exact (Nat.le_mul_of_pos_left _ hpos).trans (Nat.le_add_right _ _)

/-- Words of more than seven letters pass the last column. -/
theorem length_le_of_spelled {letters : List Char} (hletters : ∀ c ∈ letters, c.isAlpha = true) (h : spelled letters ≤ lastColumn) :
    letters.length ≤ 7 := by
  by_contra hlong
  have hmost := pow_le_spelled hletters (by rintro rfl; exact hlong (Nat.zero_le 7))
  have hpow : 26 ^ 7 ≤ 26 ^ (letters.length - 1) := Nat.pow_le_pow_right (by decide) (by omega)
  have hlast : lastColumn < 26 ^ 7 := by decide
  omega

theorem spelled_letters (c : Column) : spelled c.letters = c.index :=
  spelled_lettersUpTo (Nat.lt_of_le_of_lt c.le_last (by decide))

theorem isUpper_of_mem_letters {c : Column} {letter : Char} (h : letter ∈ c.letters) : letter.isUpper = true :=
  isUpper_of_mem_lettersUpTo h

/-- A column has the letters, in upper case, of every word that spells its number. -/
theorem letters_eq {c : Column} {letters : List Char} (hletters : ∀ x ∈ letters, x.isAlpha = true) (h : spelled letters = c.index) :
    c.letters = letters.map Char.toUpper := by
  rw [Column.letters, ← h]
  exact lettersUpTo_spelled hletters (length_le_of_spelled hletters (h ▸ c.le_last))

/-! ## Reading columns -/

/-- Characters name the column whose number the letters in them spell. -/
theorem ofChars?_eq_some_iff {cs : List Char} {c : Column} :
    ofChars? cs = some c ↔ (∀ x ∈ word cs, x.isAlpha = true) ∧ spelled (word cs) = c.index := by
  have hfold := foldl_eq (word cs) 0
  rw [Nat.zero_mul, Nat.zero_add] at hfold
  rw [ofChars?]
  change (if (word cs).all Char.isAlpha = true then ofIndex? ((word cs).foldl _ 0) else none) = some c ↔ _
  rw [hfold]
  split
  · rename_i hall
    rw [ofIndex?_eq_some_iff, and_iff_right (List.all_eq_true.1 hall)]
  · rename_i hall
    exact ⟨nofun, fun h => absurd (List.all_eq_true.2 h.1) hall⟩

/-- Characters name a column exactly if letters stand in them that do not spell a number beyond the last column. -/
theorem exists_ofChars?_iff {cs : List Char} : (∃ c, ofChars? cs = some c) ↔
    word cs ≠ [] ∧ (∀ x ∈ word cs, x.isAlpha = true) ∧ spelled (word cs) ≤ lastColumn := by
  constructor
  · intro h
    obtain ⟨c, hc⟩ := h
    obtain ⟨hletters, hnumber⟩ := ofChars?_eq_some_iff.1 hc
    refine ⟨?_, hletters, hnumber ▸ c.le_last⟩
    intro hnil
    have hone := c.one_le
    rw [hnil] at hnumber
    exact absurd hnumber (by rw [spelled]; omega)
  · intro h
    obtain ⟨hne, hletters, hlast⟩ := h
    have hone : 1 ≤ spelled (word cs) := (Nat.one_le_pow _ _ (by decide)).trans (pow_le_spelled hletters hne)
    exact ⟨⟨spelled (word cs), hone, hlast⟩, ofChars?_eq_some_iff.2 ⟨hletters, rfl⟩⟩

/-- Letters are read as they are. -/
theorem word_eq_self {cs : List Char} (h : ∀ x ∈ cs, x.isAlpha = true) : word cs = cs := by
  rw [word, Text.trimChars_of_isAlphanum fun x hx => Text.isAlphanum_of_isAlpha (h x hx)]
  cases cs with
  | nil => rfl
  | cons first rest =>
    rw [List.dropWhile_cons_of_neg]
    have hfirst := h first List.mem_cons_self
    intro hdollar
    obtain rfl : first = '$' := of_decide_eq_true hdollar
    exact absurd hfirst (by decide)

theorem isAlpha_of_mem_letters {c : Column} {letter : Char} (h : letter ∈ c.letters) : letter.isAlpha = true :=
  Text.isAlpha_of_isUpper (isUpper_of_mem_letters h)

/-- A column is read back from its letters. -/
theorem ofChars?_letters (c : Column) : ofChars? c.letters = some c := by
  have hword : word c.letters = c.letters := word_eq_self fun _ => isAlpha_of_mem_letters
  rw [ofChars?_eq_some_iff, hword]
  exact ⟨fun _ => isAlpha_of_mem_letters, spelled_letters c⟩

end Column

namespace Address

theorem isAlphanum_of_mem_chars {a : Address} {c : Char} (h : c ∈ a.chars) : c.isAlphanum = true := by
  rw [chars, List.mem_append] at h
  rcases h with h | h
  · exact Text.isAlphanum_of_isAlpha (Column.isAlpha_of_mem_letters h)
  · exact Text.isAlphanum_of_isDigit (List.all_eq_true.1 (Text.all_isDigit_digits a.row) c h)

/-- No dollar sign stands at the end of the letters of a column. -/
theorem dropLastDollar_letters (c : Column) : dropLastDollar c.letters = c.letters := by
  rw [dropLastDollar, if_neg]
  intro hlast
  exact absurd (Column.isUpper_of_mem_letters (List.mem_of_getLast? hlast)) (by decide)

/-- The row begins with the first digit. -/
theorem split_chars (a : Address) :
    a.chars.takeWhile (!·.isDigit) = a.column.letters ∧ a.chars.dropWhile (!·.isDigit) = Text.digits a.row := by
  have hletters : ∀ c ∈ a.column.letters, (!c.isDigit) = true := by
    intro c hc
    rw [Text.isDigit_eq_false_of_isAlpha (Column.isAlpha_of_mem_letters hc)]
    rfl
  rw [chars, List.takeWhile_append_of_pos hletters, List.dropWhile_append_of_pos hletters]
  cases hdigits : Text.digits a.row with
  | nil => exact absurd hdigits (Text.digits_ne_nil a.row)
  | cons digit rest =>
    have hdigit : digit.isDigit = true :=
      List.all_eq_true.1 (Text.all_isDigit_digits a.row) digit (by rw [hdigits]; exact List.mem_cons_self)
    rw [List.takeWhile_cons_of_neg (by simp [hdigit]), List.dropWhile_cons_of_neg (by simp [hdigit]), List.append_nil]
    exact ⟨rfl, rfl⟩

/-- A cell of the sheet is read back from its spelling. -/
theorem ofChars?_chars {a : Address} (hfirst : 1 ≤ a.row) (hlast : a.row ≤ lastRow) : ofChars? a.chars = some a := by
  obtain ⟨hletters, hdigits⟩ := a.split_chars
  rw [ofChars?, Text.trimChars_of_isAlphanum fun c => isAlphanum_of_mem_chars]
  simp only [hletters, hdigits, dropLastDollar_letters, Column.ofChars?_letters, Text.number?_digits hlast]
  exact if_neg (by omega)

end Address

namespace Area

/-- An area of the sheet is read back from its spelling. -/
theorem ofText?_text {m : Area} (hfirst : 1 ≤ m.top) (hlast : m.bottom ≤ lastRow) : ofText? m.text = some m := by
  have hcolon : ∀ c ∈ (⟨m.left, m.top⟩ : Address).chars, decide (c ≠ ':') = true := by
    intro c hc
    refine decide_eq_true ?_
    rintro rfl
    exact absurd (Address.isAlphanum_of_mem_chars hc) (by decide)
  have hrows := m.top_le
  have htop : Address.ofChars? (⟨m.left, m.top⟩ : Address).chars = some ⟨m.left, m.top⟩ :=
    Address.ofChars?_chars hfirst (hrows.trans hlast)
  have hbottom : Address.ofChars? (⟨m.right, m.bottom⟩ : Address).chars = some ⟨m.right, m.bottom⟩ :=
    Address.ofChars?_chars (hfirst.trans hrows) hlast
  have hread : Address.pairOfText? m.text = some (⟨m.left, m.top⟩, ⟨m.right, m.bottom⟩) := by
    rw [Address.pairOfText?, text, String.toList_ofList, chars, List.takeWhile_append_of_pos hcolon,
      List.dropWhile_append_of_pos hcolon, List.takeWhile_cons_of_neg (by simp), List.dropWhile_cons_of_neg (by simp),
      List.append_nil, htop]
    simp only [Option.bind_eq_bind, Option.bind_some, hbottom]
  rw [ofText?, hread, Option.map_some]
  exact congrArg some (m.withRows_eq hrows)

end Area

/-- Spellings and what they name. Every column, every cell of the sheet and every area of it is what its spelling is read as. A text names
a column exactly if, without the blanks around it and the dollar signs before it, it consists of letters, at least one, that spell no number
beyond the last column. The spelling of the column named is these letters in upper case, so a column has a single spelling in upper-case
letters. -/
theorem spellings_read_back :
    (∀ c : Column, Column.ofText? c.text = some c) ∧
    (∀ a : Address, 1 ≤ a.row → a.row ≤ lastRow → Address.ofText? a.text = some a) ∧
    (∀ m : Area, 1 ≤ m.top → m.bottom ≤ lastRow → Area.ofText? m.text = some m) ∧
    (∀ s : String, (∃ c, Column.ofText? s = some c) ↔ Column.word s.toList ≠ [] ∧
      (∀ x ∈ Column.word s.toList, x.isAlpha = true) ∧ Column.spelled (Column.word s.toList) ≤ lastColumn) ∧
    (∀ (s : String) (c : Column), Column.ofText? s = some c →
      c.index = Column.spelled (Column.word s.toList) ∧ c.text = String.ofList ((Column.word s.toList).map Char.toUpper)) ∧
    ∀ c : Column, ∃! s : String, (∀ x ∈ s.toList, x.isUpper = true) ∧ Column.ofText? s = some c := by
  have hcolumn : ∀ c : Column, Column.ofText? c.text = some c := by
    intro c
    rw [Column.ofText?, Column.text, String.toList_ofList, Column.ofChars?_letters]
  have hupper : ∀ (s : String) (c : Column), Column.ofText? s = some c →
      c.index = Column.spelled (Column.word s.toList) ∧ c.text = String.ofList ((Column.word s.toList).map Char.toUpper) := by
    intro s c hread
    obtain ⟨hletters, hnumber⟩ := Column.ofChars?_eq_some_iff.1 hread
    rw [Column.text, Column.letters_eq hletters hnumber]
    exact ⟨hnumber.symm, rfl⟩
  refine ⟨hcolumn, ?_, fun m => Area.ofText?_text, fun s => Column.exists_ofChars?_iff, hupper, ?_⟩
  · intro a hfirst hlast
    rw [Address.ofText?, Address.text, String.toList_ofList, Address.ofChars?_chars hfirst hlast]
  · intro c
    refine ⟨c.text, ⟨?_, hcolumn c⟩, ?_⟩
    · intro x hx
      rw [Column.text, String.toList_ofList] at hx
      exact Column.isUpper_of_mem_letters hx
    · intro s hs
      obtain ⟨hletters, hread⟩ := hs
      have hword : (Column.word s.toList).map Char.toUpper = s.toList := by
        rw [Column.word_eq_self fun x hx => Text.isAlpha_of_isUpper (hletters x hx)]
        refine (List.map_congr_left fun x hx => ?_).trans (List.map_id _)
        exact Char.toUpper_eq_of_not_isLower (Char.not_isLower_of_isUpper (hletters x hx))
      rw [(hupper s c hread).2, hword, String.ofList_toList]

/-- All cells of a sheet. -/
def Area.sheet : Area := ⟨1, .first, lastRow, ⟨lastColumn, Column.first.le_last, Nat.le_refl _⟩, by decide, by decide⟩

/-- The corners of the sheet are read back, and no column follows the last one. -/
theorem sheet_read_back :
    Area.ofText? "A1:MWLQKWU4294967295" = some Area.sheet ∧ Address.ofText? "MWLQKWU4294967295" = some ⟨Area.sheet.right, lastRow⟩ ∧
      Column.ofText? " $mwlqkwu" = some Area.sheet.right ∧ Column.ofText? "MWLQKWV" = none := by
  obtain ⟨-, hcell, harea, hnames, -, -⟩ := spellings_read_back
  have hsheet : Area.sheet.text = "A1:MWLQKWU4294967295" := by decide +kernel
  have hlast : (Address.mk Area.sheet.right lastRow).text = "MWLQKWU4294967295" := by decide +kernel
  refine ⟨hsheet ▸ harea Area.sheet (by decide) (by decide), hlast ▸ hcell ⟨Area.sheet.right, lastRow⟩ (by decide) (by decide),
    by decide +kernel, ?_⟩
  rw [Option.eq_none_iff_forall_ne_some]
  intro c hc
  have hfits := (hnames "MWLQKWV").1 ⟨c, hc⟩
  exact absurd hfits.2.2 (by decide +kernel)

end SheetTemplate

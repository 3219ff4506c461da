/-!
# Texts

Blank characters, trimming, decimal numerals with a limit, and the length of a text in the units in which positions are
counted. Texts are `String`s; what has to be taken apart is a `List Char`, which a proof can follow character by character.
-/

namespace SheetTemplate
namespace Text

/-! ## Blank characters -/

/-- The code points with the Unicode property White_Space, as closed ranges in increasing order. -/
def blankRanges : List (Nat × Nat) :=
  [(0x09, 0x0D), (0x20, 0x20), (0x85, 0x85), (0xA0, 0xA0), (0x1680, 0x1680), (0x2000, 0x200A), (0x2028, 0x2029),
    (0x202F, 0x202F), (0x205F, 0x205F), (0x3000, 0x3000)]

/-- A character is blank when its code point lies in one of the ranges of `blankRanges`. -/
def isBlank (c : Char) : Bool :=
  blankRanges.any fun range => range.1 ≤ c.toNat && c.toNat ≤ range.2

/-- Characters without the blanks at both ends. -/
def trimChars (cs : List Char) : List Char :=
  ((cs.dropWhile isBlank).reverse.dropWhile isBlank).reverse

/-- A text without the blanks at both ends. -/
def trim (s : String) : String :=
  String.ofList (trimChars s.toList)

/-- Trimmed characters neither begin nor end with a blank. -/
theorem isBlank_ends_trimChars (cs : List Char) :
    (∀ c ∈ (trimChars cs).head?, isBlank c = false) ∧ ∀ c ∈ (trimChars cs).getLast?, isBlank c = false := by
  have hcut : ∀ l : List Char, ∀ c ∈ (l.dropWhile isBlank).head?, isBlank c = false := by
    intro l c hc
    have h := List.head?_dropWhile_not isBlank l
    rw [hc] at h
    exact h
  constructor
  · intro c hc
    -- Without the blanks at the end the characters begin as they did with them.
    obtain ⟨blanks, hblanks⟩ := List.dropWhile_suffix (l := (cs.dropWhile isBlank).reverse) isBlank
    have happend : cs.dropWhile isBlank = trimChars cs ++ blanks.reverse := by
      rw [trimChars, ← List.reverse_append, hblanks, List.reverse_reverse]
    refine hcut cs c ?_
    rw [happend, List.head?_append, hc]
    rfl
  · intro c hc
    rw [trimChars, List.getLast?_reverse] at hc
    exact hcut _ c hc

/-- Trimmed characters are those between blanks that neither begin nor end with one. -/
theorem trimChars_eq_iff {cs kept : List Char} : trimChars cs = kept ↔
    (∃ front back, cs = front ++ kept ++ back ∧ ∀ c ∈ front ++ back, isBlank c = true) ∧
      (∀ c ∈ kept.head?, isBlank c = false) ∧ ∀ c ∈ kept.getLast?, isBlank c = false := by
  have hblank : ∀ l : List Char, ∀ c ∈ l.takeWhile isBlank, isBlank c = true :=
    fun l c hc => List.all_eq_true.1 (List.all_takeWhile (l := l) (p := isBlank)) c hc
  constructor
  · rintro rfl
    refine ⟨⟨cs.takeWhile isBlank, ((cs.dropWhile isBlank).reverse.takeWhile isBlank).reverse, ?_, ?_⟩, isBlank_ends_trimChars cs⟩
    · rw [trimChars, List.append_assoc, ← List.reverse_append, List.takeWhile_append_dropWhile, List.reverse_reverse,
        List.takeWhile_append_dropWhile]
    · intro c hc
      rcases List.mem_append.1 hc with hfront | hback
      · exact hblank cs c hfront
      · exact hblank _ c (List.mem_reverse.1 hback)
  · rintro ⟨⟨front, back, rfl, hblanks⟩, hfirst, hlast⟩
    have hcut : ∀ blanks l : List Char, (∀ c ∈ blanks, isBlank c = true) → (∀ c ∈ l.head?, isBlank c = false) →
        (blanks ++ l).dropWhile isBlank = l := by
      intro blanks l hall hl
      rw [List.dropWhile_append_of_pos hall]
      cases l with
      | nil => rfl
      | cons c rest => rw [List.dropWhile_cons_of_neg (by simp [hl c rfl])]
    have hback : ∀ c ∈ back.reverse, isBlank c = true := fun c hc => hblanks c (List.mem_append_right _ (List.mem_reverse.1 hc))
    have hend : (back.reverse ++ kept.reverse).dropWhile isBlank = kept.reverse :=
      hcut _ _ hback (by rwa [List.head?_reverse])
    have hstart : (front ++ (kept ++ back)).dropWhile isBlank = (kept ++ back).dropWhile isBlank :=
      List.dropWhile_append_of_pos fun c hc => hblanks c (List.mem_append_left _ hc)
    rw [trimChars, List.append_assoc, hstart]
    cases kept with
    | nil =>
      -- Where nothing is kept all characters are blank.
      have hnone : back.dropWhile isBlank = [] := by
        rw [← List.append_nil back]
        exact hcut back [] (fun c hc => hblanks c (List.mem_append_right _ hc)) nofun
      rw [List.nil_append, hnone]
      rfl
    | cons c rest =>
      rw [List.cons_append, List.dropWhile_cons_of_neg (by simp [hfirst c rfl]), ← List.cons_append, List.reverse_append, hend,
        List.reverse_reverse]

/-- Characters that neither begin nor end with a blank are left alone. -/
theorem trimChars_eq_self {cs : List Char} (hfirst : ∀ c ∈ cs.head?, isBlank c = false)
    (hlast : ∀ c ∈ cs.getLast?, isBlank c = false) : trimChars cs = cs :=
  trimChars_eq_iff.2 ⟨⟨[], [], by simp, nofun⟩, hfirst, hlast⟩

@[simp] theorem trim_trim (s : String) : trim (trim s) = trim s := by
  obtain ⟨hfirst, hlast⟩ := isBlank_ends_trimChars s.toList
  rw [trim, trim, String.toList_ofList, trimChars_eq_self hfirst hlast]

/-! ## Taking texts apart -/

theorem takeWhile_append_drop {α : Type} (p : α → Bool) (l : List α) :
    l = l.takeWhile p ++ l.drop (l.takeWhile p).length := by
  obtain ⟨rest, h⟩ := List.takeWhile_prefix (p := p) (l := l)
  generalize l.takeWhile p = start at h ⊢
  rw [← h, List.drop_left]

/-! ## Letters and digits -/

theorem isAlpha_of_isUpper {c : Char} (h : c.isUpper = true) : c.isAlpha = true := by
  change (c.isUpper || c.isLower) = true
  rw [h, Bool.true_or]

/-- Letters are no digits. -/
theorem isDigit_eq_false_of_isAlpha {c : Char} (h : c.isAlpha = true) : c.isDigit = false := by
  have hletter : (decide ('A'.val ≤ c.val ∧ c.val ≤ 'Z'.val) ||
      (decide ('a'.val ≤ c.val) && decide (c.val ≤ 'z'.val))) = true := h
  change (decide ('0'.val ≤ c.val) && decide (c.val ≤ '9'.val)) = false
  simp only [Bool.or_eq_true, Bool.and_eq_true, decide_eq_true_eq, Bool.and_eq_false_iff,
    decide_eq_false_iff_not, UInt32.le_iff_toNat_le] at hletter ⊢
  have e1 : 'A'.val.toNat = 65 := rfl
  have e2 : 'a'.val.toNat = 97 := rfl
  have e3 : '9'.val.toNat = 57 := rfl
  omega

theorem isAlphanum_of_isAlpha {c : Char} (h : c.isAlpha = true) : c.isAlphanum = true := by
  rw [Char.isAlphanum, h, Bool.true_or]

theorem isAlphanum_of_isDigit {c : Char} (h : c.isDigit = true) : c.isAlphanum = true := by
  rw [Char.isAlphanum, h, Bool.or_true]

/-- Letters and digits are no blanks. -/
theorem isBlank_eq_false_of_isAlphanum {c : Char} (h : c.isAlphanum = true) : isBlank c = false := by
  have hrange : ((65 ≤ c.toNat ∧ c.toNat ≤ 90) ∨ (97 ≤ c.toNat ∧ c.toNat ≤ 122)) ∨ (48 ≤ c.toNat ∧ c.toNat ≤ 57) := by
    have hcode : ((decide ('A'.val ≤ c.val ∧ c.val ≤ 'Z'.val) || (decide ('a'.val ≤ c.val) && decide (c.val ≤ 'z'.val))) ||
        (decide ('0'.val ≤ c.val) && decide (c.val ≤ '9'.val))) = true := h
    simp only [Bool.or_eq_true, Bool.and_eq_true, decide_eq_true_eq, UInt32.le_iff_toNat_le] at hcode
    exact hcode
  simp only [isBlank, blankRanges, List.any_cons, List.any_nil, Bool.or_eq_false_iff, Bool.and_eq_false_iff, decide_eq_false_iff_not,
    and_true]
  omega

/-- Letters and digits have no blanks around them. -/
theorem trimChars_of_isAlphanum {cs : List Char} (h : ∀ c ∈ cs, c.isAlphanum = true) : trimChars cs = cs :=
  trimChars_eq_self (fun c hc => isBlank_eq_false_of_isAlphanum (h c (List.mem_of_mem_head? hc)))
    fun c hc => isBlank_eq_false_of_isAlphanum (h c (List.mem_of_getLast? hc))

/-! ## Numerals -/

/-- The number that a non-empty run of decimal digits spells, if it does not pass `limit`. Leading zeros are allowed. -/
def number? (limit : Nat) (digits : List Char) : Option Nat :=
  if digits ≠ [] ∧ digits.all Char.isDigit ∧ Nat.ofDigitChars 10 digits 0 ≤ limit then
    some (Nat.ofDigitChars 10 digits 0)
  else
    none

/-- The decimal digits of a number, without leading zeros. -/
def digits (n : Nat) : List Char :=
  Nat.toDigits 10 n

theorem digits_ne_nil (n : Nat) : digits n ≠ [] :=
  Nat.toDigits_ne_nil

theorem all_isDigit_digits (n : Nat) : (digits n).all Char.isDigit = true := by
  rw [List.all_eq_true]
  exact fun c hc => Nat.isDigit_of_mem_toDigits (by decide) (by decide) hc

/-- The decimal digits of a whole number, with a minus before those of a negative one. -/
def signedDigits (n : Int) : List Char :=
  if n < 0 then '-' :: digits n.natAbs else digits n.natAbs

/-- A number is read back from its digits when it keeps the limit. -/
theorem number?_digits {limit n : Nat} (h : n ≤ limit) : number? limit (digits n) = some n := by
  have hn : Nat.ofDigitChars 10 (digits n) 0 = n := Nat.ofDigitChars_toDigits (by decide) (by decide)
  simp only [number?, hn, all_isDigit_digits, ne_eq, digits_ne_nil, not_false_eq_true, h, and_self, ↓reduceIte]

/-! ## Lengths -/

/-- The number of bytes that characters take in UTF-8. -/
def width (cs : List Char) : Nat :=
  cs.foldr (fun c n => c.utf8Size + n) 0

@[simp] theorem width_nil : width [] = 0 := rfl

@[simp] theorem width_append (a b : List Char) : width (a ++ b) = width a + width b := by
  induction a with
  | nil => simp
  | cons c rest ih =>
    simp only [width, List.cons_append, List.foldr_cons] at ih ⊢
    rw [ih, Nat.add_assoc]

end Text
end SheetTemplate

import Mathlib.Data.List.Basic
import SheetTemplate.Json.Document

/-!
# Reading JSON as it is written

The writer of JSON (`Json.chars`) and the reader (`Document.take`) share no code. Here the reader is shown to undo the writer on strings and on
arrays and objects of values that it reads back: `Spells` says that characters are taken for a document, whatever stands behind them, and there is
one lemma for each shape (`spells_string`, `spells_array`, `spells_object`). No step of the reader is left out, so its bound on steps has to
suffice: a value needs at most as many steps as it has characters.
-/

namespace SheetTemplate
namespace Document

/-! ## Strings -/

/-- A backslash and a letter are taken for the character that they stand for. -/
theorem takeUnits_letter {letter c : Char} {cs rest : List Char} {units : List Nat} (hletter : letter ≠ 'u')
    (hc : escaped? letter = some c) (h : takeUnits cs = some (units, rest)) :
    takeUnits ('\\' :: letter :: cs) = some (c.toNat :: units, rest) := by
  rw [takeUnits]
  · rw [hc, h]
    rfl
  · intro _ _ _ _ _ hu
    exact absurd hu hletter

/-- The code of a control character is read from its four digits. -/
theorem hexUnit?_control : ∀ n < 0x20, hexUnit? '0' '0' (Json.hexDigit (n / 16)) (Json.hexDigit n) = some n := by
  decide

/-- A character is spelled by a backslash and a letter, by its code, or by itself. -/
theorem escape_cases (c : Char) :
    (∃ letter, Json.escape c = ['\\', letter] ∧ letter ≠ 'u' ∧ escaped? letter = some c) ∨
      (Json.escape c = ['\\', 'u', '0', '0', Json.hexDigit (c.toNat / 16), Json.hexDigit c.toNat] ∧ c.toNat < 0x20) ∨
      (Json.escape c = [c] ∧ c ≠ '"' ∧ c ≠ '\\' ∧ ¬c.toNat < 0x20) := by
  by_cases hletter : c ∈ ['"', '\\', '\x08', '\x0c', '\n', '\r', '\t']
  · simp only [List.mem_cons, List.not_mem_nil, or_false] at hletter
    rcases hletter with rfl | rfl | rfl | rfl | rfl | rfl | rfl <;> exact Or.inl ⟨_, rfl, by decide, rfl⟩
  · simp only [List.mem_cons, List.not_mem_nil, or_false, not_or] at hletter
    obtain ⟨hquote, hslash, hback, hfeed, hline, hreturn, htab⟩ := hletter
    rw [Json.escape, if_neg hquote, if_neg hslash, if_neg hback, if_neg hfeed, if_neg hline, if_neg hreturn, if_neg htab]
    split
    · next hcontrol => exact Or.inr (Or.inl ⟨rfl, hcontrol⟩)
    · next hcontrol => exact Or.inr (Or.inr ⟨rfl, hquote, hslash, hcontrol⟩)

/-- A character is taken for itself from its spelling in a string. -/
theorem takeUnits_escape {c : Char} {cs rest : List Char} {units : List Nat} (h : takeUnits cs = some (units, rest)) :
    takeUnits (Json.escape c ++ cs) = some (c.toNat :: units, rest) := by
  rcases escape_cases c with ⟨letter, hspelled, hletter, hc⟩ | ⟨hspelled, hcontrol⟩ | ⟨hspelled, hquote, hslash, hcontrol⟩
  · rw [hspelled]
    exact takeUnits_letter hletter hc h
  · rw [hspelled]
    simp only [List.cons_append, List.nil_append]
    rw [takeUnits, hexUnit?_control c.toNat hcontrol, h]
    rfl
  · rw [hspelled, List.singleton_append, takeUnits, if_neg (by simp only [hslash, hcontrol, or_self, not_false_eq_true]), h]
    · rfl
    · exact hquote
    · exact fun _ _ _ _ _ heq => absurd heq hslash
    · exact fun _ _ heq => absurd heq hslash

/-- The characters of a string are taken up to its closing quote. -/
theorem takeUnits_flatMap_escape (cs rest : List Char) :
    takeUnits (cs.flatMap Json.escape ++ '"' :: rest) = some (cs.map Char.toNat, rest) := by
  induction cs with
  | nil => rw [List.flatMap_nil, List.nil_append, takeUnits, List.map_nil]
  | cons c cs ih =>
    rw [List.flatMap_cons, List.append_assoc]
    exact takeUnits_escape ih

/-- Characters are no halves of surrogate pairs. -/
theorem pairUnits_map_toNat (cs : List Char) : pairUnits (cs.map Char.toNat) = some cs := by
  induction cs with
  | nil => rw [List.map_nil, pairUnits]
  | cons c cs ih =>
    have hvalid : c.toNat < 0xD800 ∨ (0xDFFF < c.toNat ∧ c.toNat < 0x110000) := c.valid
    have hhigh : isHighSurrogate c.toNat = false := by
      simp only [isHighSurrogate, Bool.and_eq_false_iff, decide_eq_false_iff_not]
      omega
    have hlow : isLowSurrogate c.toNat = false := by
      simp only [isLowSurrogate, Bool.and_eq_false_iff, decide_eq_false_iff_not]
      omega
    rw [List.map_cons, pairUnits.eq_def]
    simp only [hhigh, hlow, ih, Bool.false_eq_true, if_false, Option.map_some, Char.ofNat_toNat]

/-- A string is read back. -/
theorem takeString_quoted (s : String) (rest : List Char) :
    takeString (s.toList.flatMap Json.escape ++ '"' :: rest) = some (some s, rest) := by
  simp only [takeString, takeUnits_flatMap_escape, Option.map_some, pairUnits_map_toNat, String.ofList_toList]

/-! ## Values -/

theorem skipSpace_cons {c : Char} {cs : List Char} (h : isSpace c = false) : skipSpace (c :: cs) = c :: cs := by
  rw [skipSpace, List.dropWhile_cons_of_neg (by simp [h])]

/-- Characters that are taken for a document wherever they stand. They begin with neither a blank nor a closing bracket. -/
structure Spells (cs : List Char) (document : Document) : Prop where
  begins : ∃ c rest, cs = c :: rest ∧ isSpace c = false ∧ c ≠ ']'
  taken : ∀ steps, cs.length ≤ steps → ∀ rest, take steps (cs ++ rest) = (document, rest)

/-- A string is taken for itself. -/
theorem spells_string (s : String) : Spells (Json.string s).chars (.string (some s)) := by
  rw [Json.chars, Json.quote]
  refine ⟨⟨'"', _, rfl, by decide, by decide⟩, ?_⟩
  intro steps hsteps rest
  cases steps with
  | zero => simp at hsteps
  | succ steps =>
    rw [take, List.cons_append, List.cons_append, skipSpace_cons (by decide), List.append_assoc, List.singleton_append]
    simp only [takeString_quoted]

/-! ## Arrays and objects -/

theorem commaSeparated_cons_cons (part next : List Char) (parts : List (List Char)) :
    Json.commaSeparated (part :: next :: parts) = part ++ ',' :: Json.commaSeparated (next :: parts) := by
  rw [Json.commaSeparated, List.intercalate_cons_cons, List.append_assoc, List.singleton_append]

/-- Texts with commas between them begin with the first one. -/
theorem exists_commaSeparated_cons (part : List Char) (parts : List (List Char)) :
    ∃ more, Json.commaSeparated (part :: parts) = part ++ more := by
  cases parts with
  | nil => exact ⟨[], by rw [Json.commaSeparated, List.intercalate_singleton, List.append_nil]⟩
  | cons next parts => exact ⟨_, commaSeparated_cons_cons part next parts⟩

section

variable {α : Type} {key : α → String} {json : α → Json} {document : α → Document}

/-- Items that are taken one by one are taken up to the closing bracket. -/
theorem takeItems_itemChars {items : List α} (h : ∀ a ∈ items, Spells (json a).chars (document a)) (hne : items ≠ []) {steps : Nat}
    (hsteps : (Json.commaSeparated (Json.itemChars (items.map json))).length < steps) (rest : List Char) :
    takeItems steps (Json.commaSeparated (Json.itemChars (items.map json)) ++ ']' :: rest) = (items.map document, true, rest) := by
  induction items generalizing steps with
  | nil => exact absurd rfl hne
  | cons a items ih =>
    obtain ⟨ha, hitems⟩ := List.forall_mem_cons.1 h
    cases steps with
    | zero => exact absurd hsteps (Nat.not_lt_zero _)
    | succ steps =>
      cases items with
      | nil =>
        have hone : Json.commaSeparated (Json.itemChars ([a].map json)) = (json a).chars := List.intercalate_singleton
        rw [hone] at hsteps ⊢
        rw [takeItems, ha.taken steps (Nat.lt_succ_iff.1 hsteps)]
        simp only [skipSpace_cons (show isSpace ']' = false by decide), List.map_cons, List.map_nil]
      | cons next items =>
        have hmore : Json.commaSeparated (Json.itemChars ((a :: next :: items).map json)) =
            (json a).chars ++ ',' :: Json.commaSeparated (Json.itemChars ((next :: items).map json)) := commaSeparated_cons_cons _ _ _
        rw [hmore, List.length_append, List.length_cons] at hsteps
        have hrest := ih hitems (List.cons_ne_nil next items) (show _ < steps by omega)
        rw [hmore, List.append_assoc, List.cons_append, takeItems, ha.taken steps (by omega)]
        simp only [skipSpace_cons (show isSpace ',' = false by decide), hrest]
        rfl

/-- One field is taken; behind a comma more are, and behind the closing brace none. -/
theorem takeFields_quote {value : List Char} {document : Document} (h : Spells value document) (key : String) {steps : Nat}
    (hsteps : value.length ≤ steps) (rest : List Char) :
    takeFields (steps + 1) (Json.quote key ++ ':' :: (value ++ ',' :: rest)) =
        ((some key, document) :: (takeFields steps rest).1, (takeFields steps rest).2.1, (takeFields steps rest).2.2) ∧
      takeFields (steps + 1) (Json.quote key ++ ':' :: (value ++ '}' :: rest)) = ([(some key, document)], true, rest) := by
  have hquote : ∀ more, Json.quote key ++ ':' :: (value ++ more) =
      '"' :: (key.toList.flatMap Json.escape ++ '"' :: ':' :: (value ++ more)) := by
    intro more
    rw [Json.quote, List.cons_append, List.cons_append, List.append_assoc, List.singleton_append]
  constructor
  · rw [hquote, takeFields, skipSpace_cons (by decide)]
    simp only [takeString_quoted, skipSpace_cons (show isSpace ':' = false by decide), h.taken steps hsteps,
      skipSpace_cons (show isSpace ',' = false by decide)]
  · rw [hquote, takeFields, skipSpace_cons (by decide)]
    simp only [takeString_quoted, skipSpace_cons (show isSpace ':' = false by decide), h.taken steps hsteps,
      skipSpace_cons (show isSpace '}' = false by decide)]

/-- Fields whose values are taken one by one are taken up to the closing brace. -/
theorem takeFields_fieldChars {items : List α} (h : ∀ a ∈ items, Spells (json a).chars (document a)) (hne : items ≠ []) {steps : Nat}
    (hsteps : (Json.commaSeparated (Json.fieldChars (items.map fun a => (key a, json a)))).length < steps) (rest : List Char) :
    takeFields steps (Json.commaSeparated (Json.fieldChars (items.map fun a => (key a, json a))) ++ '}' :: rest) =
      (items.map fun a => (some (key a), document a), true, rest) := by
  induction items generalizing steps with
  | nil => exact absurd rfl hne
  | cons a items ih =>
    obtain ⟨ha, hitems⟩ := List.forall_mem_cons.1 h
    cases steps with
    | zero => exact absurd hsteps (Nat.not_lt_zero _)
    | succ steps =>
      cases items with
      | nil =>
        have hone : Json.commaSeparated (Json.fieldChars ([a].map fun a => (key a, json a))) =
            Json.quote (key a) ++ ':' :: (json a).chars := List.intercalate_singleton
        rw [hone] at hsteps ⊢
        rw [List.length_append, List.length_cons] at hsteps
        rw [List.append_assoc, List.cons_append, (takeFields_quote ha (key a) (by omega) rest).2]
        rfl
      | cons next items =>
        have hmore : Json.commaSeparated (Json.fieldChars ((a :: next :: items).map fun a => (key a, json a))) =
            (Json.quote (key a) ++ ':' :: (json a).chars) ++
              ',' :: Json.commaSeparated (Json.fieldChars ((next :: items).map fun a => (key a, json a))) :=
          commaSeparated_cons_cons _ _ _
        rw [hmore, List.length_append, List.length_append, List.length_cons, List.length_cons] at hsteps
        have hrest := ih hitems (List.cons_ne_nil next items) (show _ < steps by omega)
        rw [hmore, List.append_assoc, List.append_assoc, List.cons_append, List.cons_append, (takeFields_quote ha (key a) (by omega) _).1,
          hrest]
        rfl

/-- Items follow an opening bracket that neither a blank nor the closing one follows. -/
theorem take_bracket {c : Char} (cs : List Char) (hspace : isSpace c = false) (hclosing : c ≠ ']') (steps : Nat) :
    take (steps + 1) ('[' :: c :: cs) =
      (.array (takeItems steps (c :: cs)).1 (takeItems steps (c :: cs)).2.1, (takeItems steps (c :: cs)).2.2) := by
  rw [take, skipSpace_cons (by decide)]
  simp only [skipSpace_cons hspace]
  split
  · next heq => exact absurd (List.cons.inj heq).1 hclosing
  · rfl

/-- An array is taken for the array of what its items are taken for. -/
theorem spells_array {items : List α} (h : ∀ a ∈ items, Spells (json a).chars (document a)) :
    Spells (Json.array (items.map json)).chars (.array (items.map document) true) := by
  rw [Json.chars]
  refine ⟨⟨'[', _, rfl, by decide, by decide⟩, ?_⟩
  intro steps hsteps rest
  cases steps with
  | zero => simp at hsteps
  | succ steps =>
    rw [List.cons_append, List.cons_append, List.append_assoc, List.singleton_append]
    cases items with
    | nil =>
      rw [take, skipSpace_cons (by decide)]
      rfl
    | cons a items =>
      obtain ⟨c, cs, hc, hspace, hclosing⟩ := (h a List.mem_cons_self).begins
      obtain ⟨more, hmore⟩ := exists_commaSeparated_cons (json a).chars (Json.itemChars (items.map json))
      have hbegins : Json.commaSeparated (Json.itemChars ((a :: items).map json)) = c :: (cs ++ more) := by
        rw [List.map_cons, Json.itemChars, hmore, hc, List.cons_append]
      rw [List.cons_append, List.length_cons, List.length_append, List.length_singleton] at hsteps
      have hitems := takeItems_itemChars h (List.cons_ne_nil a items) (show _ < steps by omega) rest
      rw [hbegins, List.cons_append] at hitems ⊢
      rw [take_bracket _ hspace hclosing, hitems]

/-- Fields follow an opening brace that a quote follows. -/
theorem take_brace (cs : List Char) (steps : Nat) :
    take (steps + 1) ('{' :: '"' :: cs) =
      (.object (takeFields steps ('"' :: cs)).1 (takeFields steps ('"' :: cs)).2.1, (takeFields steps ('"' :: cs)).2.2) := by
  rw [take, skipSpace_cons (by decide)]
  simp only [skipSpace_cons (show isSpace '"' = false by decide)]
  rfl

/-- An object is taken for the object of what its values are taken for. -/
theorem spells_object {items : List α} (h : ∀ a ∈ items, Spells (json a).chars (document a)) :
    Spells (Json.object (items.map fun a => (key a, json a))).chars (.object (items.map fun a => (some (key a), document a)) true) := by
  rw [Json.chars]
  refine ⟨⟨'{', _, rfl, by decide, by decide⟩, ?_⟩
  intro steps hsteps rest
  cases steps with
  | zero => simp at hsteps
  | succ steps =>
    rw [List.cons_append, List.cons_append, List.append_assoc, List.singleton_append]
    cases items with
    | nil =>
      rw [take, skipSpace_cons (by decide)]
      rfl
    | cons a items =>
      obtain ⟨more, hmore⟩ := exists_commaSeparated_cons (Json.quote (key a) ++ ':' :: (json a).chars)
        (Json.fieldChars (items.map fun a => (key a, json a)))
      have hbegins : ∃ cs, Json.commaSeparated (Json.fieldChars ((a :: items).map fun a => (key a, json a))) = '"' :: cs := by
        rw [List.map_cons, Json.fieldChars, hmore, Json.quote]
        exact ⟨_, rfl⟩
      obtain ⟨cs, hcs⟩ := hbegins
      rw [List.cons_append, List.length_cons, List.length_append, List.length_singleton] at hsteps
      have hfields : takeFields steps (Json.commaSeparated (Json.fieldChars ((a :: items).map fun a => (key a, json a))) ++ '}' :: rest) =
          ((a :: items).map fun a => (some (key a), document a), true, rest) :=
        takeFields_fieldChars h (List.cons_ne_nil a items) (by omega) rest
      rw [hcs, List.cons_append] at hfields ⊢
      rw [take_brace, hfields]

end

/-- The text of a value that is taken for a document is read as the document, with nothing behind it. -/
theorem read_of_spells {json : Json} {document : Document} (h : Spells json.chars document) : read json.text = (document, true) := by
  have htaken := h.taken (2 * json.chars.length + 2) (by omega) []
  rw [List.append_nil] at htaken
  simp only [read, Json.text, String.toList_ofList, htaken]
  rfl

end Document
end SheetTemplate

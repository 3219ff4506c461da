import Mathlib.Data.List.Forall2
import Mathlib.Data.List.TakeWhile
import SheetTemplate.Repetition

/-!
# Markers that are read again

What replacing the paths of markers makes of a text. A marker whose new path cannot stand in one becomes plain letters, and no
other markers arise (`Marker.pieces_mapPaths`). Where all new paths can, the new text has the markers of the old one with these
paths (`Marker.all_mapPaths`). So a text holds a value after its wildcards were grounded or its positions advanced if and only if
it held one before.

A marker is read back from its characters whatever follows them. A letter that begins no marker begins none later either, since
what decides over it ends before the next marker.
-/

namespace SheetTemplate

/-! ## Paths that can stand in markers -/

namespace Path

/-- A path that begins with a character has a first segment that begins with it. -/
theorem segments_of_head? {p : Path} {c : Char} (h : p.chars.head? = some c) (hc : c ≠ '.') :
    ∃ first rest, p.segments = first :: rest ∧ first.toList.head? = some c := by
  obtain ⟨segments⟩ := p
  cases segments with
  | nil => simp [chars] at h
  | cons first rest =>
    refine ⟨first, rest, rfl, ?_⟩
    cases rest with
    | nil => simpa [chars] using h
    | cons second rest =>
      simp only [chars, List.map_cons, List.intercalate_cons_cons, List.append_assoc, List.head?_append] at h
      cases hf : first.toList.head? with
      | some d => simpa [hf] using h
      | none =>
        rw [hf] at h
        exact absurd (by simpa using h) (Ne.symm hc)

/-- A path is spelled by its segments and dots. -/
theorem mem_chars {p : Path} {c : Char} (h : c ∈ p.chars) : c = '.' ∨ ∃ s ∈ p.segments, c ∈ s.toList := by
  obtain ⟨segments⟩ := p
  simp only [chars] at h ⊢
  induction segments with
  | nil => cases h
  | cons first rest ih =>
    cases rest with
    | nil => exact Or.inr ⟨first, List.mem_cons_self, by simpa using h⟩
    | cons second rest =>
      simp only [List.map_cons, List.intercalate_cons_cons, List.append_assoc, List.mem_append, List.mem_singleton] at h
      rcases h with h | rfl | h
      · exact Or.inr ⟨first, List.mem_cons_self, h⟩
      · exact Or.inl rfl
      · rcases ih h with hdot | ⟨s, hs, hmem⟩
        · exact Or.inl hdot
        · exact Or.inr ⟨s, List.mem_cons_of_mem _ hs, hmem⟩

/-- A path begins with the first character of its first segment. -/
theorem head?_chars {p : Path} {first : String} {rest : List String} {c : Char} (h : p.segments = first :: rest)
    (hc : first.toList.head? = some c) : p.chars.head? = some c := by
  cases rest with
  | nil => simp [chars, h, hc]
  | cons second rest => simp [chars, h, hc, List.intercalate_cons_cons, List.head?_append]

end Path

namespace Marker

theorem isPathChar_of_isNameChar {c : Char} (h : isNameChar c = true) : isPathChar c = true := by
  simp [isPathChar, h]

theorem isNameChar_of_isDigit {c : Char} (h : c.isDigit = true) : isNameChar c = true := by
  simp [isNameChar, Char.isAlphanum, h]

theorem ne_dot_of_isAlpha {c : Char} (h : c.isAlpha = true) : c ≠ '.' := by
  rintro rfl
  revert h
  decide

/-- The characters of paths are no blanks and none of the signs of conditions. -/
theorem ne_of_isPathChar {c : Char} (h : isPathChar c = true) : isGap c = false ∧ c ≠ '=' ∧ c ≠ '!' ∧ c ≠ '$' := by
  have hgap : ∀ blank, isGap blank = true → isPathChar blank = false := by
    intro blank hblank
    simp only [isGap, Bool.or_eq_true, decide_eq_true_eq] at hblank
    rcases hblank with (((rfl | rfl) | rfl) | rfl) | rfl <;> decide
  refine ⟨?_, ?_, ?_, ?_⟩
  · rw [Bool.eq_false_iff]
    intro hblank
    rw [hgap c hblank] at h
    cases h
  all_goals (rintro rfl; revert h; decide)

/-- Segments of markers are spelled in the characters of paths, without dots. -/
theorem isPathChar_of_isSegment {s : String} (h : isSegment s = true) {c : Char} (hc : c ∈ s.toList) :
    isPathChar c = true ∧ c ≠ '.' := by
  simp only [isSegment, Bool.or_eq_true, decide_eq_true_eq, Bool.and_eq_true] at h
  rcases h with rfl | ⟨-, hall⟩
  · obtain rfl : c = '*' := by simpa [Path.wildcard] using hc
    exact ⟨by decide, by decide⟩
  · have hname : isNameChar c = true := List.all_eq_true.1 hall c hc
    refine ⟨isPathChar_of_isNameChar hname, ?_⟩
    rintro rfl
    revert hname
    decide

/-- A path can stand in a marker exactly if its first segment begins with a letter and all its segments can stand there. -/
theorem admits_iff {p : Path} : admits p = true ↔ (∃ first rest c, p.segments = first :: rest ∧ first.toList.head? = some c ∧
    c.isAlpha = true) ∧ ∀ s ∈ p.segments, isSegment s = true := by
  rw [admits, Bool.and_eq_true, List.all_eq_true]
  refine and_congr_left fun _ => ⟨?_, ?_⟩
  · intro h
    cases hhead : p.chars.head? with
    | none => simp [hhead] at h
    | some c =>
      have hc : c.isAlpha = true := by simpa [hhead] using h
      obtain ⟨first, rest, hsegments, hfirst⟩ := Path.segments_of_head? hhead (ne_dot_of_isAlpha hc)
      exact ⟨first, rest, c, hsegments, hfirst, hc⟩
  · rintro ⟨first, rest, c, hsegments, hfirst, hc⟩
    rw [Path.head?_chars hsegments hfirst]
    exact hc

/-- The segments of a path in a marker have text and no dots. -/
theorem names_of_admits {p : Path} (h : admits p = true) : (∀ s ∈ p.segments, s ≠ "") ∧ ∀ s ∈ p.segments, '.' ∉ s.toList := by
  have hall := (admits_iff.1 h).2
  constructor
  · rintro s hs rfl
    exact absurd (hall "" hs) (by decide)
  · exact fun s hs hdot => (isPathChar_of_isSegment (hall s hs) hdot).2 rfl

/-- A path with segments that can stand in a marker is read back from its characters. -/
theorem ofChars_chars_of_isSegment {p : Path} (hne : p.segments ≠ []) (hall : ∀ s ∈ p.segments, isSegment s = true) :
    Path.ofChars p.chars = p := by
  have htext : Path.ofText p.text = p := Path.ofText_text hne fun s hs hdot =>
    (isPathChar_of_isSegment (hall s hs) hdot).2 rfl
  simpa [Path.ofText, Path.text] using htext

/-- A path that can stand in a marker is read back from its characters. -/
theorem ofChars_chars {p : Path} (h : admits p = true) : Path.ofChars p.chars = p := by
  obtain ⟨⟨first, rest, c, hsegments, -⟩, hall⟩ := admits_iff.1 h
  exact ofChars_chars_of_isSegment (by simp [hsegments]) hall

/-- A path with segments that can stand in a marker is spelled in the characters of paths. -/
theorem isPathChar_of_mem_chars {p : Path} (hall : ∀ s ∈ p.segments, isSegment s = true) {c : Char} (hc : c ∈ p.chars) :
    isPathChar c = true := by
  rcases Path.mem_chars hc with rfl | ⟨s, hs, hmem⟩
  · decide
  · exact (isPathChar_of_isSegment (hall s hs) hmem).1

/-- A path that can stand in a marker is spelled in the characters of paths. -/
theorem isPathChar_of_admits {p : Path} (h : admits p = true) {c : Char} (hc : c ∈ p.chars) : isPathChar c = true :=
  isPathChar_of_mem_chars (admits_iff.1 h).2 hc

/-- The first segment of a path in a marker is no wildcard and no position. -/
theorem not_isPosition_of_head? {s : String} {c : Char} (h : s.toList.head? = some c) (hc : c.isAlpha = true) :
    s ≠ Path.wildcard ∧ Path.isPosition s = false := by
  constructor
  · rintro rfl
    obtain rfl : '*' = c := by simpa [Path.wildcard] using h
    revert hc
    decide
  · have hmem : c ∈ s.toList := List.mem_of_head? h
    simp only [Path.isPosition, Bool.and_eq_false_iff]
    right
    rw [List.all_eq_false]
    exact ⟨c, hmem, by simp [Text.isDigit_eq_false_of_isAlpha hc]⟩

/-! ## New paths -/

/-- A wildcard read as position 0 can stand in a marker. -/
theorem admits_grounded {p : Path} (h : admits p = true) : admits p.grounded = true := by
  obtain ⟨⟨first, rest, c, hsegments, hfirst, hc⟩, hall⟩ := admits_iff.1 h
  refine admits_iff.2 ⟨⟨first, (Path.mk rest).grounded.segments, c, ?_, hfirst, hc⟩, ?_⟩
  · simp [Path.grounded, hsegments, (not_isPosition_of_head? hfirst hc).1]
  · intro s hs
    obtain ⟨t, ht, rfl⟩ := List.mem_map.1 hs
    split
    · decide
    · exact hall t ht

/-- The place of a position in a path holds a position. -/
theorem isPosition_of_place? {p : Path} {direction : Path.Direction} {place : Nat} (h : p.place? direction = some place) :
    ∃ s, p.segments[place]? = some s ∧ Path.isPosition s = true := by
  have hmem : place ∈ p.positionPlaces := by
    cases direction with
    | down => exact List.mem_of_head? h
    | across =>
      simp only [Path.place?] at h
      split at h
      · exact List.mem_of_getLast? h
      · cases h
  obtain ⟨⟨s, i⟩, hs, rfl⟩ := List.mem_map.1 hmem
  obtain ⟨hzip, hposition⟩ := List.mem_filter.1 hs
  exact ⟨s, List.mk_mem_zipIdx_iff_getElem?.1 hzip, hposition⟩

/-- The digits of a number can stand in a marker. -/
theorem isSegment_digits (n : Nat) : isSegment (String.ofList (Text.digits n)) = true := by
  have hne : String.ofList (Text.digits n) ≠ "" := by
    intro h
    exact Text.digits_ne_nil n (by simpa using congrArg String.toList h)
  have hall : (Text.digits n).all isNameChar = true := by
    rw [List.all_eq_true]
    exact fun c hc => isNameChar_of_isDigit (List.all_eq_true.1 (Text.all_isDigit_digits n) c hc)
  simp [isSegment, hne, hall]

/-- A path further along a direction can stand in a marker. -/
theorem admits_advance? {p q : Path} {direction : Path.Direction} {step : Nat} (h : admits p = true)
    (hq : p.advance? direction step = some q) : admits q = true := by
  obtain ⟨⟨first, rest, c, hsegments, hfirst, hc⟩, hall⟩ := admits_iff.1 h
  simp only [Path.advance?, Option.bind_eq_bind, Option.bind_eq_some_iff] at hq
  obtain ⟨place, hplace, segment, -, position, -, hq⟩ := hq
  split at hq
  · cases hq
    obtain ⟨s, hs, hposition⟩ := isPosition_of_place? hplace
    have hne : place ≠ 0 := by
      rintro rfl
      rw [hsegments] at hs
      obtain rfl : first = s := by simpa using hs
      rw [(not_isPosition_of_head? hfirst hc).2] at hposition
      cases hposition
    obtain ⟨below, rfl⟩ := Nat.exists_eq_succ_of_ne_zero hne
    refine admits_iff.2 ⟨⟨first, _, c, by rw [hsegments, List.set_cons_succ], hfirst, hc⟩, ?_⟩
    intro t ht
    rcases List.mem_or_eq_of_mem_set ht with hmem | rfl
    · exact hall t hmem
    · exact isSegment_digits _
  · cases hq

/-! ## Reading a marker back -/

/-- A marker as it is found in a text. -/
structure Proper (m : Marker) : Prop where
  gap_blank : ∀ c ∈ m.gap, isGap c = true
  gap_value : m.modifier = .value → m.gap = []
  admitted : admits m.path = true

/-- The markers found in texts are proper. -/
theorem proper_of_atStart? {cs : List Char} {m : Marker} (h : atStart? cs = some m) : m.Proper := by
  unfold atStart? at h
  split at h
  · rename_i body
    simp only [Option.ite_none_right_eq_some, Option.some.injEq] at h
    obtain ⟨⟨-, hadmits⟩, rfl⟩ := h
    refine ⟨?_, ?_, hadmits⟩
    · intro c hmem
      simp only at hmem
      split at hmem
      · exact List.mem_takeWhile_imp hmem
      · cases hmem
    · intro hvalue
      simp only at hvalue ⊢
      rw [hvalue]
      rfl
  · cases h

/-- The sign of a modifier is read back before anything that is not a sign. -/
theorem ofStart_sign (modifier : Modifier) {cs : List Char} (h : ∀ c, cs.head? = some c → c ≠ '=' ∧ c ≠ '!' ∧ c ≠ '$') :
    Modifier.ofStart (modifier.sign ++ cs) = modifier := by
  cases modifier with
  | value =>
    cases cs with
    | nil => rfl
    | cons c cs =>
      have := h c rfl
      simp only [Modifier.sign, List.nil_append]
      unfold Modifier.ofStart
      split <;> simp_all
  | rowIf => rfl
  | rowUnless => rfl
  | cellIf => rfl
  | cellUnless => rfl

/-- A run of characters with a property ends before the first one without it. -/
theorem takeWhile_append_of_head? {p : Char → Bool} {front tail : List Char} (h : ∀ c, tail.head? = some c → p c = false) :
    (front ++ tail).takeWhile p = front.takeWhile p := by
  induction front with
  | nil =>
    cases tail with
    | nil => rfl
    | cons c tail => simp [h c rfl]
  | cons c front ih => simp only [List.cons_append, List.takeWhile_cons, ih]

/-- Markers begin with brackets. -/
theorem atStart?_of_ne {c : Char} (h : c ≠ '[') (cs : List Char) : atStart? (c :: cs) = none := by
  unfold atStart?
  split
  · rename_i body heq
    injection heq with hbracket
    exact absurd hbracket h
  · rfl

/-- A marker is read back from its characters, whatever follows them, if its path can stand in one. No other marker is read where the
path does not begin with a letter. -/
theorem atStart?_chars {m : Marker} (hgap : ∀ c ∈ m.gap, isGap c = true) (hvalue : m.modifier = .value → m.gap = [])
    (hall : ∀ s ∈ m.path.segments, isSegment s = true) (rest : List Char) :
    atStart? (m.chars ++ rest) = if admits m.path then some m else none := by
  obtain ⟨modifier, gap, path⟩ := m
  simp only at hgap hvalue hall
  have hhead : ∀ d, (path.chars ++ ']' :: rest).head? = some d → isGap d = false ∧ d ≠ '=' ∧ d ≠ '!' ∧ d ≠ '$' := by
    intro d hd
    cases hpath : path.chars with
    | nil =>
      rw [hpath] at hd
      obtain rfl : ']' = d := Option.some.inj hd
      decide
    | cons c cs =>
      rw [hpath] at hd
      obtain rfl : c = d := Option.some.inj hd
      exact ne_of_isPathChar (isPathChar_of_mem_chars hall (by rw [hpath]; exact List.mem_cons_self))
  have hname : (path.chars ++ ']' :: rest).takeWhile isPathChar = path.chars := by
    rw [takeWhile_append_of_head? (by rintro d hd; cases hd; decide), List.takeWhile_eq_self_iff]
    exact fun d hd => isPathChar_of_mem_chars hall hd
  have hsign : Modifier.ofStart (modifier.sign ++ (gap ++ (path.chars ++ ']' :: rest))) = modifier := by
    apply ofStart_sign modifier
    intro d hd
    cases gap with
    | nil => exact (hhead d hd).2
    | cons blank gap =>
      obtain rfl : blank = d := by simpa using hd
      have hblank := hgap blank List.mem_cons_self
      refine ⟨?_, ?_, ?_⟩ <;> (rintro rfl; revert hblank; decide)
  have hblanks : (if modifier.isConditional then (gap ++ (path.chars ++ ']' :: rest)).takeWhile isGap else []) = gap := by
    split
    · rw [takeWhile_append_of_head? fun d hd => (hhead d hd).1, List.takeWhile_eq_self_iff]
      exact hgap
    · rename_i hcond
      exact (hvalue (by simpa [Modifier.isConditional] using hcond)).symm
  have hchars : chars ⟨modifier, gap, path⟩ ++ rest = '[' :: (modifier.sign ++ (gap ++ (path.chars ++ ']' :: rest))) := by
    simp [chars, lead]
  have hread : admits (Path.ofChars path.chars) = admits path ∧ (admits path = true → Path.ofChars path.chars = path) := by
    refine ⟨?_, ofChars_chars⟩
    by_cases hne : path.segments = []
    · obtain ⟨segments⟩ := path
      obtain rfl : segments = [] := hne
      rfl
    · rw [ofChars_chars_of_isSegment hne hall]
  rw [hchars, atStart?]
  simp only [hsign, List.drop_left, hblanks, hname, List.head?_cons, hread.1, true_and]
  split
  · rename_i hadmits
    rw [hread.2 hadmits]
  · rfl

/-- A proper marker is read back from its characters, whatever follows them. -/
theorem Proper.atStart?_chars {m : Marker} (h : m.Proper) (rest : List Char) : atStart? (m.chars ++ rest) = some m := by
  rw [Marker.atStart?_chars h.gap_blank h.gap_value (admits_iff.1 h.admitted).2, if_pos h.admitted]

/-- A text that is one marker is spelled by it. -/
theorem whole?_eq_some_iff {s : String} {m : Marker} : whole? s = some m ↔ m.Proper ∧ m.chars = s.toList := by
  rw [whole?, Option.filter_eq_some_iff, decide_eq_true_eq]
  refine and_congr_left fun hchars => ⟨proper_of_atStart?, fun hm => ?_⟩
  have hstart := hm.atStart?_chars []
  rwa [List.append_nil, hchars] at hstart

/-- The sign of a modifier ends before the next opening bracket. -/
theorem ofStart_append {front tail : List Char} (h : ∀ d, tail.head? = some d → d = '[') :
    Modifier.ofStart (front ++ tail) = Modifier.ofStart front := by
  have htail : Modifier.ofStart tail = .value := ofStart_sign .value fun d hd => by
    rw [h d hd]
    decide
  match front with
  | [] => exact htail
  | [c] =>
    cases tail with
    | nil => rfl
    | cons d tail =>
      obtain rfl := h d rfl
      simp only [List.cons_append, List.nil_append]
      unfold Modifier.ofStart
      split <;> simp_all
  | c :: d :: front =>
    simp only [List.cons_append]
    unfold Modifier.ofStart
    split <;> simp_all

/-- What decides over a marker ends before the next opening bracket. -/
theorem atStart?_append (c : Char) {front tail : List Char} (h : ∀ d, tail.head? = some d → d = '[') :
    atStart? (c :: (front ++ tail)) = atStart? (c :: front) := by
  have hstops : ∀ p : Char → Bool, p '[' = false → ∀ cs : List Char, (cs ++ tail).takeWhile p = cs.takeWhile p := by
    intro p hp cs
    exact takeWhile_append_of_head? fun d hd => by rw [h d hd, hp]
  by_cases hc : c = '['
  · subst hc
    simp only [atStart?, ofStart_append h]
    have hsign : (Modifier.ofStart front).sign.length ≤ front.length := by
      have := congrArg List.length (Modifier.eq_sign_append_drop front)
      simp only [List.length_append] at this
      omega
    rw [List.drop_append_of_le_length hsign]
    generalize front.drop (Modifier.ofStart front).sign.length = afterSign
    rw [hstops isGap (by decide)]
    have hgap : (if (Modifier.ofStart front).isConditional then afterSign.takeWhile isGap else []).length ≤
        afterSign.length := by
      split
      · exact (List.takeWhile_prefix _).length_le
      · exact Nat.zero_le _
    generalize (if (Modifier.ofStart front).isConditional then afterSign.takeWhile isGap else []) = gap at hgap
    rw [List.drop_append_of_le_length hgap]
    generalize afterSign.drop gap.length = afterGap
    rw [hstops isPathChar (by decide), List.drop_append_of_le_length (List.takeWhile_prefix _).length_le]
    generalize afterGap.takeWhile isPathChar = name
    have hclose : (afterGap.drop name.length ++ tail).head? = some ']' ↔ (afterGap.drop name.length).head? = some ']' := by
      cases afterGap.drop name.length with
      | cons d ds => exact Iff.rfl
      | nil =>
        cases tail with
        | nil => exact Iff.rfl
        | cons d ds =>
          obtain rfl := h d rfl
          simp
    simp only [hclose]
  · have hnone : ∀ cs : List Char, atStart? (c :: cs) = none := by
      intro cs
      unfold atStart?
      split
      · rename_i heq
        cases heq
        exact absurd rfl hc
      · rfl
    rw [hnone, hnone]

end Marker

/-! ## Scanning what was put together -/

namespace Piece

/-- Pieces as they are found in a text. -/
inductive Scanned : List Piece → Prop
  | nil : Scanned []
  | letter {c : Char} {rest : List Piece} (plain : Marker.atStart? (c :: rest.flatMap chars) = none) (after : Scanned rest) :
      Scanned (.letter c :: rest)
  | marker {m : Marker} {rest : List Piece} (proper : m.Proper) (after : Scanned rest) : Scanned (.marker m :: rest)

/-- Characters that were already taken do not matter. -/
theorem scan_eq_drop (cs : List Char) (covered : Nat) : scan cs covered = scan (cs.drop covered) 0 := by
  induction cs generalizing covered with
  | nil => cases covered <;> rfl
  | cons c rest ih =>
    cases covered with
    | zero => rfl
    | succ covered => exact ih covered

/-- What stands before an opening bracket is scanned by itself. -/
theorem scan_append {front tail : List Char} (h : ∀ d, tail.head? = some d → d = '[') :
    scan (front ++ tail) 0 = scan front 0 ++ scan tail 0 := by
  have hcovered : ∀ covered ≤ front.length, scan (front ++ tail) covered = scan front covered ++ scan tail 0 := by
    induction front with
    | nil =>
      intro covered hle
      obtain rfl := Nat.le_zero.1 hle
      rfl
    | cons c front ih =>
      intro covered hle
      match covered with
      | covered + 1 => exact ih covered (Nat.le_of_succ_le_succ hle)
      | 0 =>
        rw [List.cons_append, scan, scan, Marker.atStart?_append c h]
        cases hm : Marker.atStart? (c :: front) with
        | none => exact congrArg (letter c :: ·) (ih 0 (Nat.zero_le _))
        | some m =>
          have hlength := congrArg List.length (Marker.chars_prefix_of_atStart? hm)
          rw [List.length_append, List.length_cons] at hlength
          exact congrArg (marker m :: ·) (ih _ (by omega))
  exact hcovered 0 (Nat.zero_le _)

/-- The pieces of a text are found in it. -/
theorem scanned_scan (cs : List Char) (covered : Nat) : Scanned (scan cs covered) := by
  induction cs generalizing covered with
  | nil => exact .nil
  | cons c rest ih =>
    match covered with
    | covered + 1 => exact ih covered
    | 0 =>
      unfold scan
      split
      · rename_i m hm
        exact .marker (Marker.proper_of_atStart? hm) (ih _)
      · rename_i hm
        refine .letter ?_ (ih 0)
        rw [flatMap_chars_scan, List.drop_zero]
        exact hm

/-- A marker is found in front of anything. -/
theorem scan_marker {m : Marker} (h : m.Proper) (rest : List Char) : scan (m.chars ++ rest) 0 = .marker m :: scan rest 0 := by
  obtain ⟨c, cs, hchars⟩ : ∃ c cs, m.chars = c :: cs := ⟨_, _, rfl⟩
  have hfound := h.atStart?_chars rest
  rw [hchars, List.cons_append] at hfound
  rw [hchars, List.cons_append, scan]
  simp only [hfound]
  rw [scan_eq_drop, hchars, List.length_cons, Nat.add_sub_cancel, List.drop_left]

/-- Pieces as they are found in texts are found again when they are put together. -/
theorem Scanned.scan_chars {ps : List Piece} (h : Scanned ps) : scan (ps.flatMap chars) 0 = ps := by
  induction h with
  | nil => rfl
  | @letter c rest plain after ih =>
    change scan (c :: rest.flatMap chars) 0 = _
    rw [scan]
    simp only [plain, ih]
  | @marker m rest proper after ih => rw [List.flatMap_cons, chars, scan_marker proper, ih]

/-- Markers that are found are proper. -/
theorem Scanned.proper {ps : List Piece} (h : Scanned ps) {m : Marker} (hm : .marker m ∈ ps) : m.Proper := by
  induction h with
  | nil => cases hm
  | letter _ _ ih => exact ih (by simpa using hm)
  | marker proper _ ih =>
    rcases List.mem_cons.1 hm with heq | hmem
    · cases heq
      exact proper
    · exact ih hmem

/-- The piece with the path of a marker replaced where `f` gives another one. -/
def mapPath (f : Path → Option Path) : Piece → Piece
  | .letter c => .letter c
  | .marker m => .marker (m.withPath ((f m.path).getD m.path))

/-- Pieces of one shape: the same letter, or two markers. -/
inductive SameShape : Piece → Piece → Prop
  | letter (c : Char) : SameShape (.letter c) (.letter c)
  | marker (m m' : Marker) : SameShape (.marker m) (.marker m')

theorem sameShape_mapPath (f : Path → Option Path) (ps : List Piece) : List.Forall₂ SameShape ps (ps.map (mapPath f)) := by
  induction ps with
  | nil => exact .nil
  | cons p ps ih =>
    cases p with
    | letter c => exact .cons (.letter c) ih
    | marker m => exact .cons (.marker m _) ih

/-- What follows a letter up to the next marker does not change with the markers. -/
theorem exists_front {ps ps' : List Piece} (h : List.Forall₂ SameShape ps ps') : ∃ front tail tail' : List Char,
    ps.flatMap chars = front ++ tail ∧ ps'.flatMap chars = front ++ tail' ∧
      (∀ d, tail.head? = some d → d = '[') ∧ ∀ d, tail'.head? = some d → d = '[' := by
  induction h with
  | nil => exact ⟨[], [], [], rfl, rfl, fun _ h => (by cases h), fun _ h => (by cases h)⟩
  | @cons p p' ps ps' hp _ ih =>
    cases hp with
    | letter c =>
      obtain ⟨front, tail, tail', h, h', hopen, hopen'⟩ := ih
      refine ⟨c :: front, tail, tail', ?_, ?_, hopen, hopen'⟩
      · rw [List.flatMap_cons, h]
        rfl
      · rw [List.flatMap_cons, h']
        rfl
    | marker m m' => exact ⟨[], _, _, rfl, rfl, fun d h => by cases h; rfl, fun d h => by cases h; rfl⟩

/-- Pieces of the shape of pieces that are found in a text are found in one too, if their markers are proper. -/
theorem Scanned.of_sameShape {ps ps' : List Piece} (h : Scanned ps) (hshape : List.Forall₂ SameShape ps ps')
    (hproper : ∀ m, .marker m ∈ ps' → m.Proper) : Scanned ps' := by
  induction hshape with
  | nil => exact .nil
  | @cons p p' ps ps' hp hrest ih =>
    have hproper' : ∀ m, .marker m ∈ ps' → m.Proper := fun m hm => hproper m (List.mem_cons_of_mem _ hm)
    cases hp with
    | letter c =>
      cases h with
      | letter plain after =>
        refine .letter ?_ (ih after hproper')
        obtain ⟨front, tail, tail', htext, htext', hopen, hopen'⟩ := exists_front hrest
        rw [htext, Marker.atStart?_append c hopen] at plain
        rw [htext', Marker.atStart?_append c hopen', plain]
    | marker m m' =>
      cases h with
      | marker _ after => exact .marker (hproper m' List.mem_cons_self) (ih after hproper')

/-- What a piece becomes when `f` gives another path for its marker: a marker that the path cannot stand in becomes plain letters. -/
def rewrite (f : Path → Option Path) : Piece → List Piece
  | .letter c => [.letter c]
  | .marker m =>
    match f m.path with
    | none => [.marker m]
    | some q => if Marker.admits q then [.marker (m.withPath q)] else (m.withPath q).chars.map .letter

variable {f : Path → Option Path}

theorem flatMap_chars_letters (cs : List Char) : (cs.map Piece.letter).flatMap chars = cs := by
  rw [List.flatMap_map]
  exact List.flatMap_singleton' cs

/-- A rewritten piece has the characters of the piece with the other path. -/
theorem flatMap_chars_rewrite (ps : List Piece) : (ps.flatMap (rewrite f)).flatMap chars = (ps.map (mapPath f)).flatMap chars := by
  rw [List.flatMap_assoc, List.flatMap_map]
  congr 1
  funext p
  cases p with
  | letter c => rfl
  | marker m =>
    cases hq : f m.path with
    | none => simp [rewrite, mapPath, hq, chars, Marker.withPath]
    | some q =>
      simp only [rewrite, mapPath, hq, Option.getD_some]
      split
      · simp [chars]
      · rw [flatMap_chars_letters, chars]

/-- Letters that open no marker are found in front of anything. -/
theorem Scanned.letters {cs : List Char} (h : ∀ c ∈ cs, c ≠ '[') {rest : List Piece} (hrest : Scanned rest) :
    Scanned (cs.map Piece.letter ++ rest) := by
  induction cs with
  | nil => exact hrest
  | cons c cs ih =>
    exact .letter (Marker.atStart?_of_ne (h c List.mem_cons_self) _) (ih fun d hd => h d (List.mem_cons_of_mem c hd))

/-- The characters of a marker behind its opening bracket are no opening brackets. -/
theorem ne_bracket_of_mem {m : Marker} (hgap : ∀ c ∈ m.gap, Marker.isGap c = true)
    (hall : ∀ s ∈ m.path.segments, Marker.isSegment s = true) : ∀ c ∈ m.lead ++ m.path.chars ++ [']'], c ≠ '[' := by
  rintro c hc rfl
  rw [Marker.lead, List.append_assoc, List.append_assoc, List.mem_append, List.mem_append, List.mem_append] at hc
  rcases hc with hsign | hblank | hpath | hclose
  · revert hsign
    cases m.modifier <;> decide
  · exact absurd (hgap _ hblank) (by decide)
  · exact absurd (Marker.isPathChar_of_mem_chars hall hpath) (by decide)
  · exact absurd hclose (by decide)

/-- Rewritten pieces are such as they are found in texts. -/
theorem Scanned.rewrite (hf : ∀ p q, Marker.admits p = true → f p = some q → ∀ s ∈ q.segments, Marker.isSegment s = true)
    {ps : List Piece} (h : Scanned ps) : Scanned (ps.flatMap (Piece.rewrite f)) := by
  induction h with
  | nil => exact .nil
  | @letter c rest plain after ih =>
    change Scanned (.letter c :: rest.flatMap (Piece.rewrite f))
    refine .letter ?_ ih
    obtain ⟨front, tail, tail', h, h', hopen, hopen'⟩ := exists_front (sameShape_mapPath f rest)
    rw [h, Marker.atStart?_append c hopen] at plain
    rw [flatMap_chars_rewrite, h', Marker.atStart?_append c hopen', plain]
  | @marker m rest proper after ih =>
    rw [List.flatMap_cons, Piece.rewrite]
    cases hq : f m.path with
    | none => exact .marker proper ih
    | some q =>
      have hall := hf m.path q proper.admitted hq
      simp only
      split
      · rename_i hadmits
        exact .marker ⟨proper.gap_blank, proper.gap_value, hadmits⟩ ih
      · rename_i hadmits
        have hnone := Marker.atStart?_chars (m := m.withPath q) proper.gap_blank proper.gap_value hall
          ((rest.flatMap (Piece.rewrite f)).flatMap chars)
        rw [if_neg (show ¬Marker.admits (m.withPath q).path = true from hadmits)] at hnone
        change Scanned (.letter '[' :: (((m.withPath q).lead ++ (m.withPath q).path.chars ++ [']']).map .letter ++
          rest.flatMap (Piece.rewrite f)))
        refine .letter ?_ (.letters (ne_bracket_of_mem (m := m.withPath q) proper.gap_blank hall) ih)
        rw [List.flatMap_append, flatMap_chars_letters]
        exact hnone

/-- A marker that gets a path that it can have stays one piece. -/
theorem rewrite_eq_mapPath {p : Piece} (h : ∀ m q, p = .marker m → f m.path = some q → Marker.admits q = true) :
    rewrite f p = [mapPath f p] := by
  cases p with
  | letter c => rfl
  | marker m =>
    rw [rewrite, mapPath]
    cases hq : f m.path with
    | none => rfl
    | some q =>
      simp only
      rw [if_pos (h m q rfl hq), Option.getD_some]

/-- The markers that a piece becomes have the path that `f` gives, or their own where it gives none. -/
theorem marker_mem_rewrite {m : Marker} {p : Piece} (h : .marker m ∈ rewrite f p) :
    ∃ m', p = .marker m' ∧ (f m'.path = none ∧ m = m' ∨ ∃ q, f m'.path = some q ∧ Marker.admits q = true ∧ m = m'.withPath q) := by
  cases p with
  | letter c => simp [rewrite] at h
  | marker m' =>
    refine ⟨m', rfl, ?_⟩
    rw [rewrite] at h
    cases hq : f m'.path with
    | none =>
      rw [hq] at h
      exact Or.inl ⟨rfl, by simpa using h⟩
    | some q =>
      rw [hq] at h
      simp only at h
      split at h
      · rename_i hadmits
        exact Or.inr ⟨q, rfl, hadmits, by simpa using h⟩
      · simp at h

end Piece

namespace Marker

/-- Replacing paths replaces them in the pieces of the text. -/
theorem mapPaths_eq_join (f : Path → Option Path) (s : String) :
    mapPaths f s = Piece.join ((Piece.ofText s).map (Piece.mapPath f)) := by
  rw [mapPaths, replace, Piece.join, List.flatMap_map]
  congr 2
  funext p
  cases p with
  | letter c => rfl
  | marker m => cases h : f m.path <;> simp [Piece.mapPath, Piece.chars, h, withPath]

variable {f : Path → Option Path} {m : Marker} {s : String}

theorem mem_all_iff : m ∈ all s ↔ .marker m ∈ Piece.ofText s := by
  rw [all, List.mem_filterMap]
  constructor
  · rintro ⟨p, hp, hm⟩
    cases p with
    | letter c => cases hm
    | marker m' =>
      obtain rfl := Option.some.inj hm
      exact hp
  · exact fun h => ⟨_, h, rfl⟩

theorem proper_of_mem_all (h : m ∈ all s) : m.Proper := (Piece.scanned_scan s.toList 0).proper (mem_all_iff.1 h)

/-- The pieces of a text with other paths are those that its pieces become. -/
theorem pieces_mapPaths (hf : ∀ p q, admits p = true → f p = some q → ∀ s ∈ q.segments, isSegment s = true) (s : String) :
    Piece.ofText (mapPaths f s) = (Piece.ofText s).flatMap (Piece.rewrite f) := by
  rw [mapPaths_eq_join, Piece.ofText, Piece.join, String.toList_ofList, ← Piece.flatMap_chars_rewrite]
  exact ((Piece.scanned_scan s.toList 0).rewrite hf).scan_chars

/-- The pieces of a text stay apart where its markers get paths that can stand there. -/
theorem flatMap_rewrite (h : ∀ m ∈ all s, ∀ q, f m.path = some q → admits q = true) :
    (Piece.ofText s).flatMap (Piece.rewrite f) = (Piece.ofText s).map (Piece.mapPath f) := by
  rw [List.map_eq_flatMap, List.flatMap_def, List.flatMap_def]
  refine congrArg List.flatten (List.map_congr_left fun p hp => Piece.rewrite_eq_mapPath ?_)
  rintro m q rfl hq
  exact h m (mem_all_iff.2 hp) q hq

/-- A text has the markers that replacing paths gives it, and no others. -/
theorem all_mapPaths (hf : ∀ p q, admits p = true → f p = some q → admits q = true) (s : String) :
    all (mapPaths f s) = (all s).map fun m => m.withPath ((f m.path).getD m.path) := by
  rw [all, all, pieces_mapPaths fun p q hp hq => (admits_iff.1 (hf p q hp hq)).2,
    flatMap_rewrite fun m hm q => hf m.path q (proper_of_mem_all hm).admitted, List.filterMap_map, List.map_filterMap]
  congr 1
  funext p
  cases p <;> rfl

/-- A text stays as it is if none of its markers gets another path. -/
theorem mapPaths_eq_self {f : Path → Option Path} (h : ∀ m ∈ all s, f m.path = none) : mapPaths f s = s := by
  have hpieces : (Piece.ofText s).map (Piece.mapPath f) = Piece.ofText s := by
    refine (List.map_congr_left fun p hp => ?_).trans (List.map_id _)
    cases p with
    | letter c => rfl
    | marker m => rw [Piece.mapPath, h m (mem_all_iff.2 hp), Option.getD_none, withPath, id]
  rw [mapPaths_eq_join, hpieces, Piece.join_ofText]

/-- The markers of a text whose wildcards are read as position 0. -/
theorem all_ground (s : String) : all (ground s) = (all s).map fun m => m.withPath m.path.grounded := by
  rw [ground, all_mapPaths]
  · apply List.map_congr_left
    intro m _
    cases h : m.path.hasWildcard with
    | true => simp
    | false => simp [Path.grounded_of_not_hasWildcard h]
  · intro p q hp hq
    simp only [Option.ite_none_right_eq_some, Option.some.injEq] at hq
    rw [← hq.2]
    exact admits_grounded hp

/-- The markers of a text some elements further along a direction. -/
theorem all_advance (direction : Path.Direction) (step : Nat) (s : String) :
    all (advance direction step s) = (all s).map fun m => m.withPath ((m.path.advance? direction step).getD m.path) :=
  all_mapPaths (fun _ _ => admits_advance?) s

/-- Whether a text holds a value depends on the modifiers of its markers alone. -/
theorem valueInText_ground (s : String) : valueInText (ground s) = valueInText s := by
  rw [valueInText, all_ground, List.any_map]
  rfl

theorem valueInText_advance (direction : Path.Direction) (step : Nat) (s : String) :
    valueInText (advance direction step s) = valueInText s := by
  rw [valueInText, all_advance, List.any_map]
  rfl

/-- A text that holds a value holds a marker. -/
theorem inText_of_valueInText {s : String} (h : valueInText s = true) : inText s = true := by
  obtain ⟨m, hm, -⟩ := List.any_eq_true.1 h
  rw [inText, Bool.not_eq_true', List.isEmpty_eq_false_iff]
  exact List.ne_nil_of_mem hm

end Marker

/-! ## The cell that repeats across -/

/-- A value of a row that is listed stands in a cell of the row. -/
theorem valueInText_of_mem_listed {leaves : Leaves} {line : Line} {value : Column × Path}
    (h : value ∈ Repetition.listed leaves line) : ∃ text, line.get? value.1 = some text ∧ Marker.valueInText text = true := by
  obtain ⟨cell, hcell, hmem⟩ := List.mem_flatMap.1 h
  obtain ⟨m, hm, hvalue⟩ := List.mem_filterMap.1 hmem
  simp only [Option.ite_none_right_eq_some, Option.some.injEq] at hvalue
  obtain ⟨⟨hmodifier, -⟩, rfl⟩ := hvalue
  exact ⟨cell.2, (SortedMap.get?_eq_some_iff _ _ _).2 hcell, List.any_eq_true.2 ⟨m, hm, by simp [hmodifier]⟩⟩

/-- The cell of a row that repeats across holds a value. -/
theorem valueInText_of_anchor {leaves : Leaves} {line : Line} {column : Column}
    (h : (Repetition.ofLine leaves line).anchor = some column) :
    ∃ text, line.get? column = some text ∧ Marker.valueInText text = true := by
  unfold Repetition.ofLine at h
  have hfold : ∀ (values : List (Column × Path)) (r : Repetition), (values.foldl (Repetition.count leaves) r).anchor = some column →
      r.anchor = some column ∨ ∃ value ∈ values, value.1 = column := by
    intro values
    induction values with
    | nil => exact fun r hr => Or.inl hr
    | cons value values ih =>
      intro r hr
      rcases ih _ hr with hcount | ⟨other, hmem, hother⟩
      · simp only [Repetition.count] at hcount
        split at hcount
        · exact Or.inr ⟨value, List.mem_cons_self, Option.some.inj hcount⟩
        · exact Or.inl hcount
      · exact Or.inr ⟨other, List.mem_cons_of_mem _ hmem, hother⟩
  rcases hfold _ _ h with hnone | ⟨value, hmem, rfl⟩
  · cases hnone
  · exact valueInText_of_mem_listed hmem

/-- A row in which no cell has copies beside it has no cell that repeats across. -/
theorem Repetition.anchor_eq_none {leaves : Leaves} {line : Line} (h : (Repetition.ofLine leaves line).columns = 0) :
    (Repetition.ofLine leaves line).anchor = none := by
  have hfold : ∀ (values : List (Column × Path)) (r : Repetition), (r.columns = 0 → r.anchor = none) →
      (values.foldl (count leaves) r).columns = 0 → (values.foldl (count leaves) r).anchor = none := by
    intro values
    induction values with
    | nil => exact fun _ hr => hr
    | cons value rest ih =>
      intro r hr
      refine ih _ ?_
      intro hzero
      have hmax : max r.columns (leaves.siblings .across value.2) = 0 := hzero
      have hnot : ¬r.columns < leaves.siblings .across value.2 := by omega
      change (if r.columns < leaves.siblings .across value.2 then some value.1 else r.anchor) = none
      rw [if_neg hnot]
      exact hr (by omega)
  exact hfold _ _ (fun _ => rfl) h

end SheetTemplate

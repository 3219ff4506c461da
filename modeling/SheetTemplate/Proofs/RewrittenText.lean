import Mathlib.Data.List.Chain
import SheetTemplate.Proofs.FormulaScan
import SheetTemplate.Proofs.MarkerScan

/-!
# Markers where words change

What becomes of the markers of a text in which some words have other digits (`Formula.Rewritten`), words that consist of a column and
digits and are as long as possible. A marker begins in the new text exactly where one began in the old one, and it is the same up to
its path, which changes only if all of it is such a word (`Rewritten.markers`). Such a path is read as a cell (`Marker.isCell`); no
word begins directly behind an exclamation mark.
-/

namespace SheetTemplate
namespace Formula

/-! ## Words with other digits -/

/-- Whether a word reads as a reference. -/
def Reference.Reads (word : List Char) : Prop := (Reference.ofWord? word).isSome = true

/-- Whether a reference may begin behind a character. None does within a word and behind an exclamation mark. -/
def opensWord (c : Char) : Bool := !isWordChar c && c ≠ '!'

/-- What a row is spelled with: digits, at least one. -/
structure Reference.IsRow (digits : List Char) : Prop where
  ne_nil : digits ≠ []
  numeric : digits.all Char.isDigit = true

/-- The digits of a number spell a row. -/
theorem Reference.isRow_digits (n : Nat) : IsRow (Text.digits n) := ⟨Text.digits_ne_nil n, Text.all_isDigit_digits n⟩

/-- Characters of which some words have other digits: words that consist of a column and digits and that `P` holds of. A word is
only taken whole, and the first one only if the text is read from a place where a reference may begin. -/
inductive Rewritten (P : List Char → Prop) : Bool → List Char → List Char → Prop
  | nil {opens : Bool} : Rewritten P opens [] []
  | keep {opens : Bool} {c : Char} {cs cs' : List Char} (after : Rewritten P (opensWord c) cs cs') :
      Rewritten P opens (c :: cs) (c :: cs')
  | word {head digits digits' cs cs' : List Char} (column : Reference.IsHead head) (row : Reference.IsRow digits)
      (row' : Reference.IsRow digits') (holds : P (head ++ digits))
      (ends : ∀ c, cs.head? = some c → isWordChar c = false) (after : Rewritten P false cs cs') :
      Rewritten P true (head ++ digits ++ cs) (head ++ digits' ++ cs')

namespace Reference

/-- A column begins with a dollar sign or an upper-case letter. -/
theorem IsHead.exists_cons {head : List Char} (h : IsHead head) :
    ∃ c rest, head = c :: rest ∧ (c = '$' ∨ c.isUpper = true) := by
  obtain ⟨before, name, after, rfl, hbefore, hlow, -, hupper, -⟩ := h.spelled
  rcases hbefore with rfl | rfl
  · cases name with
    | nil => simp at hlow
    | cons c rest => exact ⟨c, rest ++ after, rfl, Or.inr (hupper c List.mem_cons_self)⟩
  · exact ⟨'$', name ++ after, rfl, Or.inl rfl⟩

/-- There is no dot in the spelling of a reference. -/
theorem IsHead.dot_not_mem {head digits : List Char} (h : IsHead head) (hdigits : IsRow digits) :
    '.' ∉ head ++ digits := by
  obtain ⟨before, name, after, rfl, hbefore, -, -, hupper, hafter⟩ := h.spelled
  have hdollar : ∀ cs : List Char, cs = [] ∨ cs = ['$'] → '.' ∉ cs := by
    rintro cs (rfl | rfl) <;> decide
  intro hdot
  simp only [List.mem_append] at hdot
  rcases hdot with (hdot | hdot | hdot) | hdot
  · exact hdollar before hbefore hdot
  · have := hupper _ hdot
    revert this
    decide
  · exact hdollar after hafter hdot
  · have := List.all_eq_true.1 hdigits.numeric _ hdot
    revert this
    decide

end Reference

namespace Rewritten

variable {P : List Char → Prop} {opens : Bool} {c d : Char} {cs cs' cs'' : List Char}

/-- The first character stays. -/
theorem head?_eq (h : Rewritten P opens cs cs') : cs'.head? = cs.head? := by
  cases h with
  | nil => rfl
  | keep after => rfl
  | word column =>
    obtain ⟨c, rest, rfl, -⟩ := column.exists_cons
    rfl

/-- The old text has the digits of the new one replaced. -/
theorem symm (h : Rewritten P opens cs cs') : Rewritten (fun _ => True) opens cs' cs := by
  induction h with
  | nil => exact .nil
  | keep after ih => exact .keep ih
  | word column row row' holds ends after ih =>
    refine .word column row' row trivial ?_ ih
    intro c hc
    rw [after.head?_eq] at hc
    exact ends c hc

/-- Characters in front may stay. -/
theorem append_left {front : List Char} (hlast : front.getLast? = some c) (h : Rewritten P (opensWord c) cs cs') (opens : Bool) :
    Rewritten P opens (front ++ cs) (front ++ cs') := by
  induction front generalizing opens with
  | nil => cases hlast
  | cons d front ih =>
    cases front with
    | nil =>
      obtain rfl : d = c := by simpa using hlast
      exact .keep h
    | cons e front =>
      rw [List.getLast?_cons_cons] at hlast
      exact .keep (ih hlast _)

/-- A character that is no part of a word stays. -/
theorem keep_of_not_word (h : Rewritten P opens (c :: cs) cs') (hc : isWordChar c = false) :
    ∃ rest, cs' = c :: rest ∧ Rewritten P (opensWord c) cs rest := by
  generalize htext : c :: cs = text at h
  cases h with
  | nil => cases htext
  | keep after =>
    cases htext
    exact ⟨_, rfl, after⟩
  | @word head digits digits' cs cs' column row =>
    obtain ⟨first, rest, hhead, -⟩ := column.exists_cons
    rw [hhead] at htext
    obtain rfl : c = first := by injection htext
    rw [Reference.isWordChar_of_isHead column row.numeric (by simp [hhead])] at hc
    cases hc

/-- A character before one that is no part of a word stays, for a word has several. -/
theorem keep_of_next (h : Rewritten P opens (c :: d :: cs) cs') (hd : isWordChar d = false) :
    ∃ rest, cs' = c :: rest ∧ Rewritten P (opensWord c) (d :: cs) rest := by
  generalize htext : c :: d :: cs = text at h
  cases h with
  | nil => cases htext
  | keep after =>
    cases htext
    exact ⟨_, rfl, after⟩
  | @word head digits digits' cs cs' column row =>
    obtain ⟨first, rest, hhead, -⟩ := column.exists_cons
    have hmem : d ∈ head ++ digits := by
      rw [hhead, List.cons_append, List.cons_append] at htext
      injection htext with _ htail
      cases rest with
      | nil =>
        cases digits with
        | nil => exact absurd rfl row.ne_nil
        | cons digit others =>
          obtain rfl : d = digit := by injection htail
          simp
      | cons second rest =>
        obtain rfl : d = second := by injection htail
        simp [hhead]
    rw [Reference.isWordChar_of_isHead column row.numeric hmem] at hd
    cases hd

/-- Characters that are no parts of words stay. -/
theorem keep_all {front : List Char} (h : Rewritten P opens (c :: front ++ cs) cs')
    (hfront : ∀ d ∈ c :: front, isWordChar d = false) :
    ∃ rest opens', cs' = c :: front ++ rest ∧ Rewritten P opens' cs rest ∧
      (opens' = true → (c :: front).getLast? ≠ some '!') := by
  induction front generalizing c opens cs' with
  | nil =>
    obtain ⟨rest, rfl, hrest⟩ := h.keep_of_not_word (hfront c List.mem_cons_self)
    refine ⟨rest, _, rfl, hrest, ?_⟩
    rintro hopens hlast
    obtain rfl : c = '!' := by simpa using hlast
    revert hopens
    decide
  | cons d front ih =>
    obtain ⟨rest, rfl, hrest⟩ := h.keep_of_not_word (hfront c List.mem_cons_self)
    obtain ⟨rest, opens', rfl, hrest, hlast⟩ := ih hrest fun e he => hfront e (List.mem_cons_of_mem _ he)
    exact ⟨rest, opens', rfl, hrest, by rwa [List.getLast?_cons_cons]⟩

end Rewritten

/-! ## Markers in rewritten text -/

/-- Behind a wildcard in the path of a marker only a dot can follow. -/
theorem isChain_chars {path : Path} (h : Marker.admits path = true) : path.chars.IsChain fun a b => a = '*' → b = '.' := by
  obtain ⟨segments⟩ := path
  have hall := (Marker.admits_iff.1 h).2
  clear h
  have hsegment : ∀ s : String, Marker.isSegment s = true → s.toList.IsChain fun a b => a = '*' → b = '.' := by
    intro s hs
    simp only [Marker.isSegment, Bool.or_eq_true, decide_eq_true_eq, Bool.and_eq_true] at hs
    rcases hs with rfl | ⟨-, hname⟩
    · exact List.isChain_singleton _
    · refine List.Pairwise.isChain (List.pairwise_of_forall_mem_list ?_)
      rintro a ha b - rfl
      have hstar := List.all_eq_true.1 hname _ ha
      exact absurd hstar (by decide)
  simp only [Path.chars] at hall ⊢
  induction segments with
  | nil => exact List.isChain_nil
  | cons first rest ih =>
    cases rest with
    | nil => simpa using hsegment first (hall first List.mem_cons_self)
    | cons second rest =>
      rw [List.map_cons, List.map_cons, List.intercalate_cons_cons, ← List.map_cons, List.append_assoc, List.isChain_append]
      refine ⟨hsegment first (hall first List.mem_cons_self), ?_, ?_⟩
      · rw [List.singleton_append, List.isChain_cons]
        exact ⟨fun _ _ hdot => absurd hdot (by decide), ih fun s hs => hall s (List.mem_cons_of_mem _ hs)⟩
      · intro _ _ b hb _
        exact (by simpa using hb.symm)

namespace Rewritten

variable {P : List Char → Prop} {opens : Bool} {cs' rest : List Char}

/-- What stands between the opening bracket and the path of a marker stays. -/
theorem lead {m : Marker} (hm : m.Proper) (h : Rewritten P opens ('[' :: m.lead ++ rest) cs') :
    ∃ rest' opens', cs' = '[' :: m.lead ++ rest' ∧ Rewritten P opens' rest rest' ∧
      (opens' = true → m.lead.getLast? ≠ some '!') := by
  have hgap : ∀ c ∈ m.gap, isWordChar c = false := by
    intro c hc
    have := hm.gap_blank c hc
    simp only [Marker.isGap, Bool.or_eq_true, decide_eq_true_eq] at this
    rcases this with (((rfl | rfl) | rfl) | rfl) | rfl <;> decide
  have hsign : ∀ sign : Char, isWordChar sign = false → ∀ c ∈ sign :: m.gap, isWordChar c = false := by
    intro sign hsign c hc
    rcases List.mem_cons.1 hc with rfl | hc
    · exact hsign
    · exact hgap c hc
  obtain ⟨modifier, gap, path⟩ := m
  simp only [Marker.lead, List.cons_append, List.append_assoc] at h hsign ⊢
  obtain ⟨text, rfl, htext⟩ := h.keep_of_not_word (by decide)
  cases modifier with
  | value =>
    obtain rfl : gap = [] := hm.gap_value rfl
    exact ⟨text, _, rfl, htext, fun _ => by decide⟩
  | rowIf =>
    change Rewritten P _ ('=' :: gap ++ rest) _ at htext
    obtain ⟨rest', opens', rfl, hrest, hlast⟩ := htext.keep_all (hsign '=' (by decide))
    exact ⟨rest', opens', rfl, hrest, hlast⟩
  | rowUnless =>
    change Rewritten P _ ('!' :: gap ++ rest) _ at htext
    obtain ⟨rest', opens', rfl, hrest, hlast⟩ := htext.keep_all (hsign '!' (by decide))
    exact ⟨rest', opens', rfl, hrest, hlast⟩
  | cellIf =>
    obtain ⟨tail, rfl, htail⟩ := htext.keep_of_next (by decide)
    change Rewritten P _ ('=' :: gap ++ rest) _ at htail
    obtain ⟨rest', opens', rfl, hrest, hlast⟩ := htail.keep_all (hsign '=' (by decide))
    exact ⟨rest', opens', rfl, hrest, hlast⟩
  | cellUnless =>
    obtain ⟨tail, rfl, htail⟩ := htext.keep_of_next (by decide)
    change Rewritten P _ ('!' :: gap ++ rest) _ at htail
    obtain ⟨rest', opens', rfl, hrest, hlast⟩ := htail.keep_all (hsign '!' (by decide))
    exact ⟨rest', opens', rfl, hrest, hlast⟩

/-- The path of a marker stays behind a character where no reference begins, and its end does in any case. -/
theorem path_of_chain {name : List Char} (hname : ∀ c ∈ name, Marker.isPathChar c = true)
    (hchain : name.IsChain fun a b => a = '*' → b = '.') (hopens : opens = true → ∀ c, name.head? = some c → c = '.')
    (h : Rewritten P opens (name ++ ']' :: rest) cs') : ∃ rest', cs' = name ++ ']' :: rest' ∧ Rewritten P true rest rest' := by
  induction name generalizing opens cs' with
  | nil =>
    obtain ⟨rest', rfl, hrest⟩ := h.keep_of_not_word (by decide)
    exact ⟨rest', rfl, hrest⟩
  | cons c name ih =>
    generalize htext : c :: name ++ ']' :: rest = text at h
    cases h with
    | nil => cases htext
    | keep after =>
      cases htext
      obtain ⟨hnext, hchain⟩ := List.isChain_cons.1 hchain
      obtain ⟨rest', rfl, hrest⟩ := ih (fun d hd => hname d (List.mem_cons_of_mem _ hd)) hchain (by
        intro hbegins d hd
        refine hnext d hd ?_
        have hpath := hname c List.mem_cons_self
        simp only [opensWord, isWordChar, Bool.and_eq_true, Bool.not_eq_true', Bool.or_eq_false_iff,
          decide_eq_false_iff_not] at hbegins
        simp only [Marker.isPathChar, Marker.isNameChar, Bool.or_eq_true, decide_eq_true_eq] at hpath
        rcases hpath with ((hpath | hpath) | hpath) | hpath
        · rw [hbegins.1.1.1.1] at hpath
          cases hpath
        · exact absurd hpath hbegins.1.1.1.2
        · exact absurd hpath hbegins.1.1.2
        · exact hpath) after
      exact ⟨rest', rfl, hrest⟩
    | @word head digits digits' cs cs' column =>
      obtain ⟨first, others, rfl, hfirst⟩ := column.exists_cons
      obtain rfl : c = first := by injection htext
      obtain rfl := hopens rfl c rfl
      exact absurd hfirst (by decide)

/-- A word in front of a marker's path that ends with the run of word characters is the whole path, for a path of several segments
would take a dot into it. -/
theorem chars_eq_word {path : Path} (hpath : Marker.admits path = true) {head digits cs : List Char} (column : Reference.IsHead head)
    (row : Reference.IsRow digits) (ends : ∀ c, cs.head? = some c → isWordChar c = false)
    (htext : path.chars ++ ']' :: rest = head ++ digits ++ cs) : path.chars = head ++ digits := by
  obtain ⟨⟨first, below, c, hsegments, hfirst, hc⟩, hall⟩ := Marker.admits_iff.1 hpath
  have hrun : (head ++ digits).takeWhile isWordChar = head ++ digits :=
    List.takeWhile_eq_self_iff.2 fun d hd => Reference.isWordChar_of_isHead column row.numeric hd
  have hword : path.chars.takeWhile isWordChar = head ++ digits := by
    have hstop : (head ++ digits ++ cs).takeWhile isWordChar = (head ++ digits).takeWhile isWordChar :=
      Marker.takeWhile_append_of_head? ends
    rw [← hrun, ← hstop, ← htext]
    exact (Marker.takeWhile_append_of_head? (by rintro d hd; cases hd; decide)).symm
  have hsegment : ∀ d ∈ first.toList, isWordChar d = true := by
    intro d hd
    have hname := hall first (by simp [hsegments])
    simp only [Marker.isSegment, (Marker.not_isPosition_of_head? hfirst hc).1, decide_false, Bool.false_or,
      Bool.and_eq_true] at hname
    have hchar := List.all_eq_true.1 hname.2 d hd
    simp only [Marker.isNameChar, Bool.or_eq_true, decide_eq_true_eq] at hchar
    rcases hchar with hchar | rfl
    · simp [isWordChar, hchar]
    · decide
  cases below with
  | nil =>
    have hone : path.chars = first.toList := by simp [Path.chars, hsegments]
    rw [hone, List.takeWhile_eq_self_iff.2 hsegment, ← hone] at hword
    exact hword
  | cons second below =>
    obtain ⟨more, hmore⟩ : ∃ more, path.chars = first.toList ++ '.' :: more := by
      simp [Path.chars, hsegments, List.intercalate_cons_cons]
    rw [hmore, List.takeWhile_append_of_pos hsegment, List.takeWhile_cons_of_pos (by decide)] at hword
    have hdot := column.dot_not_mem row
    rw [← hword] at hdot
    exact absurd (by simp) hdot

/-- The path of a marker stays unless all of it is one word with other digits. -/
theorem path {path : Path} (hpath : Marker.admits path = true) (h : Rewritten P opens (path.chars ++ ']' :: rest) cs') :
    ∃ name rest', cs' = name ++ ']' :: rest' ∧ Rewritten P true rest rest' ∧
      (name = path.chars ∨ opens = true ∧ P path.chars ∧ ∃ head digits digits' : List Char, path.chars = head ++ digits ∧
        name = head ++ digits' ∧ Reference.IsHead head ∧ Reference.IsRow digits ∧ Reference.IsRow digits') := by
  generalize htext : path.chars ++ ']' :: rest = text at h
  cases h with
  | nil => simp at htext
  | @keep _ c _ _ after =>
    obtain ⟨⟨first, below, initial, hsegments, hfirst, hc⟩, -⟩ := Marker.admits_iff.1 hpath
    obtain ⟨name, hname⟩ : ∃ name, path.chars = initial :: name := List.head?_eq_some_iff.1 (Path.head?_chars hsegments hfirst)
    have hchars : ∀ d ∈ path.chars, Marker.isPathChar d = true := fun d hd => Marker.isPathChar_of_admits hpath hd
    have hchain := isChain_chars hpath
    rw [hname] at htext hchars hchain
    cases htext
    have hinside : opensWord c = true → ∀ d, name.head? = some d → d = '.' := by
      intro hopens
      simp [opensWord, isWordChar, Char.isAlphanum, hc] at hopens
    obtain ⟨rest', rfl, hrest⟩ :=
      path_of_chain (fun d hd => hchars d (List.mem_cons_of_mem _ hd)) (List.isChain_cons.1 hchain).2 hinside after
    exact ⟨path.chars, rest', by rw [hname]; rfl, hrest, Or.inl rfl⟩
  | @word head digits digits' cs cs' column row row' holds ends after =>
    have hword := chars_eq_word hpath column row ends htext
    rw [hword, List.append_cancel_left_eq] at htext
    subst htext
    obtain ⟨rest', rfl, hrest⟩ := after.keep_of_not_word (by decide)
    exact ⟨head ++ digits', rest', rfl, hrest, Or.inr ⟨rfl, hword ▸ holds, head, digits, digits', hword, rfl, column, row, row'⟩⟩

/-- A word with other digits that was the path of a marker still can be one. -/
theorem admits_ofChars {path : Path} {head digits digits' : List Char} (hpath : Marker.admits path = true)
    (hchars : path.chars = head ++ digits) (column : Reference.IsHead head) (row : Reference.IsRow digits)
    (row' : Reference.IsRow digits') : Marker.admits (Path.ofChars (head ++ digits')) = true := by
  obtain ⟨first, others, hhead, -⟩ := column.exists_cons
  have hname : ∀ c ∈ head ++ digits', Marker.isNameChar c = true := by
    intro c hc
    rcases List.mem_append.1 hc with hc | hc
    · have hmem : c ∈ head ++ digits := List.mem_append_left _ hc
      have hword := Reference.isWordChar_of_isHead column row.numeric hmem
      have hdot := column.dot_not_mem row
      rw [← hchars] at hmem
      have hpathchar := Marker.isPathChar_of_admits hpath hmem
      simp only [Marker.isPathChar, Bool.or_eq_true, decide_eq_true_eq] at hpathchar
      rcases hpathchar with (hpathchar | rfl) | rfl
      · exact hpathchar
      · exact absurd (List.mem_append_left _ hc) hdot
      · exact absurd hword (by decide)
    · exact Marker.isNameChar_of_isDigit (List.all_eq_true.1 row'.numeric c hc)
  have hsegments : (Path.ofChars (head ++ digits')).segments = [String.ofList (head ++ digits')] := by
    rw [Path.ofChars, List.splitOn_eq_singleton (column.dot_not_mem row')]
    rfl
  refine Marker.admits_iff.2 ⟨?_, ?_⟩
  · obtain ⟨⟨segment, below, c, hbelow, hsegment, hc⟩, -⟩ := Marker.admits_iff.1 hpath
    have hfirst := Path.head?_chars hbelow hsegment
    rw [hchars, hhead] at hfirst
    cases hfirst
    exact ⟨_, [], first, hsegments, by simp [hhead], hc⟩
  · intro s hs
    rw [hsegments, List.mem_singleton] at hs
    subst hs
    simp only [Marker.isSegment, Bool.or_eq_true, Bool.and_eq_true, String.toList_ofList]
    refine Or.inr ⟨?_, List.all_eq_true.2 hname⟩
    simp [hhead]

/-- A marker in rewritten text is one before and after, the same up to a path that is one word. -/
theorem marker {m : Marker} (hm : m.Proper) (h : Rewritten P opens (m.chars ++ rest) cs') :
    ∃ (m' : Marker) (rest' : List Char), cs' = m'.chars ++ rest' ∧ m'.Proper ∧ Rewritten P true rest rest' ∧
      m'.modifier = m.modifier ∧ m'.gap = m.gap ∧
      (m'.path = m.path ∨ m.lead.getLast? ≠ some '!' ∧ P m.path.chars ∧ ∃ head digits digits' : List Char,
        m.path.chars = head ++ digits ∧ m'.path = Path.ofChars (head ++ digits') ∧ Reference.IsHead head ∧
          Reference.IsRow digits ∧ Reference.IsRow digits') := by
  have hchars : m.chars ++ rest = '[' :: m.lead ++ (m.path.chars ++ ']' :: rest) := by simp [Marker.chars]
  rw [hchars] at h
  obtain ⟨text, opens', rfl, htext, hlead⟩ := h.lead hm
  obtain ⟨name, rest', rfl, hrest, hname⟩ := htext.path hm.admitted
  have hspell : ∀ path : Path, path.chars = name →
      '[' :: m.lead ++ (name ++ ']' :: rest') = (m.withPath path).chars ++ rest' := by
    rintro path rfl
    simp [Marker.chars, Marker.withPath, Marker.lead]
  rcases hname with rfl | ⟨rfl, hword, head, digits, digits', hdigits, rfl, column, row, row'⟩
  · exact ⟨m, rest', hspell m.path rfl, hm, hrest, rfl, rfl, Or.inl rfl⟩
  · exact ⟨m.withPath (Path.ofChars (head ++ digits')), rest', hspell _ (Path.chars_ofChars _),
      ⟨hm.gap_blank, hm.gap_value, admits_ofChars hm.admitted hdigits column row row'⟩, hrest, rfl, rfl,
      Or.inr ⟨hlead rfl, hword, head, digits, digits', hdigits, rfl, column, row, row'⟩⟩

end Rewritten

end Formula

/-! ## What becomes of markers -/

namespace Marker

/-- Whether the reading of references takes the path of a marker for a cell: it spells one, and no exclamation mark stands
directly before it. -/
def isCell (m : Marker) : Bool := (Formula.Reference.ofWord? m.path.chars).isSome && m.lead.getLast? ≠ some '!'

/-- What a marker of a formula may become when references move: its sign and its blanks stay, and its path stays unless it is
taken for a cell, of which another row may be named then. -/
structure Follows (m m' : Marker) : Prop where
  modifier_eq : m'.modifier = m.modifier
  gap_eq : m'.gap = m.gap
  path_follows : m'.path = m.path ∨ m.isCell = true ∧ ∃ r digits, Formula.Reference.ofWord? m.path.chars = some r ∧
    Formula.Reference.IsRow digits ∧ m'.path = Path.ofChars (r.head ++ digits)

/-- A marker that is not taken for a cell stays. -/
theorem Follows.eq_of_not_isCell {m m' : Marker} (h : Follows m m') (hcell : m.isCell = false) : m' = m := by
  obtain ⟨modifier, gap, path⟩ := m
  obtain ⟨modifier', gap', path'⟩ := m'
  obtain ⟨rfl, rfl, rfl | ⟨hcell', -⟩⟩ := h
  · rfl
  · rw [hcell] at hcell'
    cases hcell'

end Marker

namespace Piece

/-- Characters that are no brackets begin no markers. -/
theorem filterMap_scan_append {front : List Char} (h : '[' ∉ front) (cs : List Char) :
    (scan (front ++ cs) 0).filterMap marker? = (scan cs 0).filterMap marker? := by
  induction front with
  | nil => rfl
  | cons c front ih =>
    have hc : c ≠ '[' := fun e => h (by simp [e])
    have hnone := Marker.atStart?_of_ne hc (front ++ cs)
    rw [List.cons_append, scan]
    simp only [hnone]
    exact ih fun hmem => h (List.mem_cons_of_mem _ hmem)

end Piece

namespace Formula

/-- Rewritten text has the markers of the old one, each the same up to a path that is one word. -/
theorem Rewritten.markers {P : List Char → Prop} (hP : ∀ word, P word → Reference.Reads word) {opens : Bool}
    {cs cs' : List Char} (h : Rewritten P opens cs cs') :
    List.Forall₂ Marker.Follows ((SheetTemplate.Piece.scan cs 0).filterMap SheetTemplate.Piece.marker?)
      ((SheetTemplate.Piece.scan cs' 0).filterMap SheetTemplate.Piece.marker?) := by
  -- A marker is taken whole, so the induction is on the length of the text.
  induction hlength : cs.length using Nat.strong_induction_on generalizing opens cs cs' with
  | _ length ih =>
    subst hlength
    cases hstart : Marker.atStart? cs with
    | some m =>
      have hm := Marker.proper_of_atStart? hstart
      have hcs := Marker.chars_prefix_of_atStart? hstart
      generalize cs.drop m.chars.length = rest at hcs
      subst hcs
      obtain ⟨m', rest', rfl, hm', hrest, hmodifier, hgap, hpath⟩ := h.marker hm
      rw [SheetTemplate.Piece.scan_marker hm, SheetTemplate.Piece.scan_marker hm']
      refine .cons ⟨hmodifier, hgap, ?_⟩ (ih _ ?_ hrest rfl)
      · rcases hpath with hpath | ⟨hlead, hword, head, digits, digits', hdigits, hpath', column, row, row'⟩
        · exact Or.inl hpath
        · right
          have hsome := hP _ hword
          rw [Reference.Reads] at hsome
          refine ⟨by simp [Marker.isCell, hsome, hlead], ?_⟩
          obtain ⟨r, hr⟩ := Option.isSome_iff_exists.1 hsome
          refine ⟨r, digits', hr, row', ?_⟩
          rw [hdigits, Reference.ofWord?_append column row.ne_nil row.numeric] at hr
          obtain ⟨number, -, hr⟩ := Option.bind_eq_some_iff.1 hr
          split at hr
          · cases hr
            exact hpath'
          · cases hr
      · simp only [Marker.chars, List.length_append, List.length_cons]
        omega
    | none =>
      cases h with
      | nil => exact .nil
      | @keep opens c rest rest' after =>
        have hnone : Marker.atStart? (c :: rest') = none := by
          by_contra hsome
          obtain ⟨m, hm⟩ := Option.ne_none_iff_exists'.1 hsome
          have hback := (show Rewritten P opens (c :: rest) (c :: rest') from .keep after).symm
          rw [Marker.chars_prefix_of_atStart? hm] at hback
          obtain ⟨m', rest'', heq, hm', -⟩ := hback.marker (Marker.proper_of_atStart? hm)
          rw [heq, hm'.atStart?_chars] at hstart
          cases hstart
        rw [SheetTemplate.Piece.scan, SheetTemplate.Piece.scan]
        simp only [hstart, hnone]
        exact ih _ (by simp) after rfl
      | @word head digits digits' rest rest' column row row' holds ends after =>
        have hbracket : ∀ tail : List Char, Reference.IsRow tail → '[' ∉ head ++ tail := by
          intro tail htail hmem
          exact absurd (Reference.isWordChar_of_isHead column htail.numeric hmem) (by decide)
        rw [SheetTemplate.Piece.filterMap_scan_append (hbracket digits row),
          SheetTemplate.Piece.filterMap_scan_append (hbracket digits' row')]
        refine ih _ ?_ after rfl
        obtain ⟨c, others, rfl, -⟩ := column.exists_cons
        simp only [List.length_append, List.length_cons]
        omega

end Formula
end SheetTemplate

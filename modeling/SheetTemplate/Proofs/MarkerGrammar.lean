import Mathlib.Data.String.Basic
import SheetTemplate.Proofs.MarkerScan

/-!
# The grammar of markers

The spelling of markers, said on its own (`Marker.Spells`): an opening bracket, a sign with blanks or nothing, a path, and a closing
bracket. The markers of a text are exactly the parts of it that are so spelled (`Marker.places_are_spellings`). None is missed, for a
marker holds no opening bracket behind its first character: what the scanner skips, taken or rejected, ends before the next marker
begins (`Piece.scan_append`).
-/

namespace SheetTemplate

/-! ## Lengths in bytes -/

namespace Text

/-- Lengths are those of UTF-8. -/
theorem width_eq_utf8ByteSize (cs : List Char) : width cs = (String.ofList cs).utf8ByteSize := by
  rw [String.utf8ByteSize_ofList]
  induction cs with
  | nil => rfl
  | cons c cs ih =>
    rw [String.utf8Len_cons, ← ih, Nat.add_comm]
    rfl

end Text

namespace Marker

/-! ## The grammar -/

/-- The blanks that may follow a sign: any number of spaces, tabs, line feeds, form feeds and carriage returns. -/
def AreBlanks (cs : List Char) : Prop := ∀ c ∈ cs, c ∈ [' ', '\t', '\n', '\x0c', '\r']

/-- What stands between the opening bracket and the path of a marker: nothing, or a sign and blanks. -/
inductive LeadSpells : Modifier → List Char → Prop
  | value : LeadSpells .value []
  | rowUnless {blanks : List Char} (h : AreBlanks blanks) : LeadSpells .rowUnless ('!' :: blanks)
  | rowIf {blanks : List Char} (h : AreBlanks blanks) : LeadSpells .rowIf ('=' :: blanks)
  | cellUnless {blanks : List Char} (h : AreBlanks blanks) : LeadSpells .cellUnless ('$' :: '!' :: blanks)
  | cellIf {blanks : List Char} (h : AreBlanks blanks) : LeadSpells .cellIf ('$' :: '=' :: blanks)

/-- A segment of a path: a wildcard, or a name of letters, digits and underscores, all of them ASCII. -/
inductive SegmentSpells : List Char → Prop
  | wildcard : SegmentSpells ['*']
  | name {cs : List Char} (ne_nil : cs ≠ []) (chars : ∀ c ∈ cs, c.isAlphanum = true ∨ c = '_') : SegmentSpells cs

/-- One or more segments with dots between them. -/
inductive SegmentsSpell : List Char → Prop
  | one {cs : List Char} (segment : SegmentSpells cs) : SegmentsSpell cs
  | more {cs rest : List Char} (segment : SegmentSpells cs) (others : SegmentsSpell rest) : SegmentsSpell (cs ++ '.' :: rest)

/-- Characters that spell a marker, with its parts. A path begins with a letter. -/
structure Spells (modifier : Modifier) (lead path cs : List Char) : Prop where
  lead_spells : LeadSpells modifier lead
  path_spells : SegmentsSpell path
  letter : ∃ c, path.head? = some c ∧ c.isAlpha = true
  chars_eq : cs = '[' :: lead ++ path ++ [']']

/-! ## What the scanner asks for -/

theorem areBlanks_iff {cs : List Char} : AreBlanks cs ↔ ∀ c ∈ cs, isGap c = true := by
  simp [AreBlanks, isGap, or_assoc]

/-- Leads are spelled by a sign and blanks, of which there are none without a sign. -/
theorem leadSpells_iff {modifier : Modifier} {lead : List Char} : LeadSpells modifier lead ↔
    ∃ gap, lead = modifier.sign ++ gap ∧ (∀ c ∈ gap, isGap c = true) ∧ (modifier = .value → gap = []) := by
  constructor
  · rintro (_ | h | h | h | h)
    · exact ⟨[], rfl, nofun, fun _ => rfl⟩
    all_goals exact ⟨_, rfl, areBlanks_iff.1 h, nofun⟩
  · rintro ⟨gap, rfl, hgap, hvalue⟩
    have hblanks := areBlanks_iff.2 hgap
    cases modifier with
    | value =>
      obtain rfl := hvalue rfl
      exact .value
    | rowIf => exact .rowIf hblanks
    | rowUnless => exact .rowUnless hblanks
    | cellIf => exact .cellIf hblanks
    | cellUnless => exact .cellUnless hblanks

theorem segmentSpells_iff {s : String} : SegmentSpells s.toList ↔ isSegment s = true := by
  have hne : s.toList ≠ [] ↔ s ≠ "" := by simp
  have hwildcard : s = Path.wildcard ↔ s.toList = ['*'] := by
    rw [← String.toList_inj]
    rfl
  simp only [isSegment, Bool.or_eq_true, Bool.and_eq_true, decide_eq_true_eq, List.all_eq_true, hwildcard]
  constructor
  · generalize hs : s.toList = cs
    rintro (_ | ⟨hcs, hchars⟩)
    · exact Or.inl rfl
    · exact Or.inr ⟨hne.1 (hs ▸ hcs), fun c hc => by simpa [isNameChar] using hchars c hc⟩
  · rintro (h | ⟨hs, hchars⟩)
    · rw [h]
      exact .wildcard
    · exact .name (hne.2 hs) fun c hc => by simpa [isNameChar] using hchars c hc

/-- The parts between dots are segments. -/
theorem segmentsSpell_iff {cs : List Char} : SegmentsSpell cs ↔ ∀ s ∈ (Path.ofChars cs).segments, isSegment s = true := by
  have hsegment : ∀ {part : List Char}, SegmentSpells part → isSegment (String.ofList part) = true ∧ '.' ∉ part := by
    intro part hpart
    have hs : isSegment (String.ofList part) = true := segmentSpells_iff.1 (by rwa [String.toList_ofList])
    refine ⟨hs, fun hdot => (isPathChar_of_isSegment hs (c := '.') ?_).2 rfl⟩
    rwa [String.toList_ofList]
  constructor
  · intro h
    induction h with
    | @one part hpart =>
      obtain ⟨hs, hdot⟩ := hsegment hpart
      simpa [Path.ofChars, List.splitOn_eq_singleton hdot] using hs
    | @more part rest hpart _ ih =>
      obtain ⟨hs, hdot⟩ := hsegment hpart
      simpa [Path.ofChars, List.splitOn_append_cons_self, List.splitOn_eq_singleton hdot, hs] using ih
  · intro h
    rw [← Path.chars_ofChars cs]
    have hne : (Path.ofChars cs).segments ≠ [] := by simp [Path.ofChars]
    generalize (Path.ofChars cs) = path at h hne
    obtain ⟨segments⟩ := path
    simp only [Path.chars] at h hne ⊢
    induction segments with
    | nil => exact absurd rfl hne
    | cons first rest ih =>
      have hfirst : SegmentSpells first.toList := segmentSpells_iff.2 (h first List.mem_cons_self)
      cases rest with
      | nil => exact .one (by simpa using hfirst)
      | cons second rest =>
        have hrest := ih (fun s hs => h s (List.mem_cons_of_mem _ hs)) (List.cons_ne_nil _ _)
        rw [List.map_cons, List.map_cons, List.intercalate_cons_cons, ← List.map_cons, List.append_assoc]
        exact .more hfirst hrest

/-- The grammar spells the markers that the scanner finds, and no others. -/
theorem spells_iff {modifier : Modifier} {lead path cs : List Char} : Spells modifier lead path cs ↔
    ∃ m : Marker, m.Proper ∧ m.modifier = modifier ∧ m.lead = lead ∧ m.path.chars = path ∧ m.chars = cs := by
  constructor
  · rintro ⟨hlead, hsegments, ⟨c, hhead, hletter⟩, rfl⟩
    obtain ⟨gap, rfl, hgap, hvalue⟩ := leadSpells_iff.1 hlead
    have hchars := Path.chars_ofChars path
    refine ⟨⟨modifier, gap, Path.ofChars path⟩, ⟨hgap, hvalue, ?_⟩, rfl, rfl, hchars, ?_⟩
    · rw [admits, hchars, hhead, List.all_eq_true.2 (segmentsSpell_iff.1 hsegments), Bool.and_true]
      exact hletter
    · rw [chars, hchars]
      rfl
  · rintro ⟨m, hm, rfl, rfl, rfl, rfl⟩
    have hadmits := hm.admitted
    rw [admits, Bool.and_eq_true, Option.any_eq_true] at hadmits
    refine ⟨leadSpells_iff.2 ⟨m.gap, rfl, hm.gap_blank, hm.gap_value⟩, ?_, hadmits.1, rfl⟩
    rw [segmentsSpell_iff, ofChars_chars hm.admitted]
    exact (admits_iff.1 hm.admitted).2

end Marker

/-! ## Where markers stand -/

namespace Marker

/-- A piece that is a marker stands where the pieces start, and the others behind it. -/
theorem placesFrom_cons (start : Nat) (p : Piece) (ps : List Piece) : placesFrom start (p :: ps) =
    (p.marker?.map fun m => (start, m)).toList ++ placesFrom (start + Text.width p.chars) ps := by
  cases p with
  | letter c => rfl
  | marker m => rfl

/-- The places of markers among pieces that follow others. -/
theorem placesFrom_append (start : Nat) (ps qs : List Piece) :
    placesFrom start (ps ++ qs) = placesFrom start ps ++ placesFrom (start + Text.width (ps.flatMap Piece.chars)) qs := by
  induction ps generalizing start with
  | nil => rfl
  | cons p ps ih =>
    rw [List.cons_append, placesFrom_cons, placesFrom_cons, ih, List.flatMap_cons, Text.width_append, Nat.add_assoc, List.append_assoc]

/-- A marker stands behind the pieces before it. -/
theorem mem_placesFrom_iff {start place : Nat} {m : Marker} {ps : List Piece} : (place, m) ∈ placesFrom start ps ↔
    ∃ before after, ps = before ++ .marker m :: after ∧ place = start + Text.width (before.flatMap Piece.chars) := by
  constructor
  · intro h
    induction ps generalizing start with
    | nil => cases h
    | cons p ps ih =>
      rw [placesFrom_cons, List.mem_append] at h
      rcases h with h | h
      · cases p with
        | letter c => cases h
        | marker m' =>
          cases List.mem_singleton.1 h
          exact ⟨[], ps, rfl, rfl⟩
      · obtain ⟨before, after, rfl, rfl⟩ := ih h
        exact ⟨p :: before, after, rfl, by rw [List.flatMap_cons, Text.width_append, Nat.add_assoc]⟩
  · rintro ⟨before, after, rfl, rfl⟩
    rw [placesFrom_append]
    exact List.mem_append_right _ List.mem_cons_self

/-- No marker begins before the one in front of it ends. -/
theorem pairwise_placesFrom (start : Nat) (ps : List Piece) :
    (placesFrom start ps).Pairwise (fun a b => a.1 + a.2.width ≤ b.1) := by
  have hle : ∀ {start : Nat} {ps : List Piece} {place : Nat × Marker}, place ∈ placesFrom start ps → start ≤ place.1 := by
    rintro start ps ⟨place, m⟩ h
    obtain ⟨before, after, -, rfl⟩ := mem_placesFrom_iff.1 h
    exact Nat.le_add_right _ _
  induction ps generalizing start with
  | nil => exact .nil
  | cons p ps ih =>
    cases p with
    | letter c => exact ih _
    | marker m => exact .cons (fun place h => hle h) (ih _)

theorem map_snd_placesFrom (start : Nat) (ps : List Piece) :
    (placesFrom start ps).map Prod.snd = ps.filterMap Piece.marker? := by
  induction ps generalizing start with
  | nil => rfl
  | cons p ps ih =>
    cases p with
    | letter c => exact ih _
    | marker m => exact congrArg (m :: ·) (ih _)

/-- A text has a marker at a place exactly if it is spelled there. -/
theorem mem_places_iff {s : String} {place : Nat} {m : Marker} : (place, m) ∈ places s ↔
    m.Proper ∧ ∃ before after, s.toList = before ++ m.chars ++ after ∧ place = Text.width before := by
  rw [places, mem_placesFrom_iff]
  constructor
  · rintro ⟨before, after, hpieces, rfl⟩
    have hmem : .marker m ∈ Piece.ofText s := hpieces ▸ List.mem_append_right _ List.mem_cons_self
    refine ⟨proper_of_mem_all (mem_all_iff.2 hmem), before.flatMap Piece.chars, after.flatMap Piece.chars, ?_, Nat.zero_add _⟩
    have hchars := Piece.flatMap_chars_scan s.toList 0
    rw [← Piece.ofText, hpieces, List.flatMap_append, List.flatMap_cons, List.drop_zero] at hchars
    rw [← hchars, List.append_assoc]
    rfl
  · rintro ⟨hm, before, after, htext, rfl⟩
    refine ⟨Piece.scan before 0, Piece.scan after 0, ?_, ?_⟩
    · rw [Piece.ofText, htext, List.append_assoc, Piece.scan_append (fun d hd => by cases hd; rfl), Piece.scan_marker hm]
    · rw [Piece.flatMap_chars_scan, List.drop_zero, Nat.zero_add]

/-- The markers of a text are the parts of it that the grammar spells. Each one that is found stands in the text at its place and is
spelled there, with its modifier, its lead and its path; each part of the text that the grammar spells is found, at the place behind what
stands before it; they are found from left to right, none begins before the one in front of it ends, and these are the markers that every
other function goes by. The text is one marker exactly if all of it is so spelled. -/
theorem places_are_spellings (s : String) :
    (∀ place m, (place, m) ∈ places s → Spells m.modifier m.lead m.path.chars m.chars ∧
      m.width = (String.ofList m.chars).utf8ByteSize ∧
        ∃ before after, s.toList = before ++ m.chars ++ after ∧ place = (String.ofList before).utf8ByteSize) ∧
    (∀ before cs after modifier lead path, s.toList = before ++ cs ++ after → Spells modifier lead path cs →
      ∃ m, ((String.ofList before).utf8ByteSize, m) ∈ places s ∧
        m.modifier = modifier ∧ m.lead = lead ∧ m.path.chars = path ∧ m.chars = cs) ∧
    (places s).Pairwise (fun a b => a.1 + a.2.width ≤ b.1) ∧ (places s).map Prod.snd = all s ∧
    ∀ modifier lead path, Spells modifier lead path s.toList ↔
      ∃ m, whole? s = some m ∧ m.modifier = modifier ∧ m.lead = lead ∧ m.path.chars = path := by
  refine ⟨?_, ?_, pairwise_placesFrom 0 _, map_snd_placesFrom 0 _, ?_⟩
  · intro place m h
    obtain ⟨hm, before, after, htext, rfl⟩ := mem_places_iff.1 h
    exact ⟨spells_iff.2 ⟨m, hm, rfl, rfl, rfl, rfl⟩, Text.width_eq_utf8ByteSize _, before, after, htext, Text.width_eq_utf8ByteSize _⟩
  · intro before cs after modifier lead path htext h
    obtain ⟨m, hm, hmodifier, hlead, hpath, rfl⟩ := spells_iff.1 h
    refine ⟨m, mem_places_iff.2 ⟨hm, before, after, htext, ?_⟩, hmodifier, hlead, hpath, rfl⟩
    rw [Text.width_eq_utf8ByteSize]
  · intro modifier lead path
    simp only [spells_iff, whole?_eq_some_iff]
    constructor
    · rintro ⟨m, hm, hmodifier, hlead, hpath, hchars⟩
      exact ⟨m, ⟨hm, hchars⟩, hmodifier, hlead, hpath⟩
    · rintro ⟨m, ⟨hm, hchars⟩, hmodifier, hlead, hpath⟩
      exact ⟨m, hm, hmodifier, hlead, hpath, hchars⟩

/-- Behind letters of two bytes and a bracket that opens nothing, a condition with a blank behind its sign is found and spelled. -/
theorem condition_found_where_spelled :
    (9, ⟨.rowIf, [' '], ⟨["a", "*"]⟩⟩) ∈ places "Größe [[= a.*] [1]" ∧ Spells .rowIf "= ".toList "a.*".toList "[= a.*]".toList ∧
      "Größe [[= a.*] [1]".toList = "Größe [".toList ++ "[= a.*]".toList ++ " [1]".toList ∧
      ∃ m, (9, m) ∈ places "Größe [[= a.*] [1]" ∧ m.modifier = .rowIf ∧ m.lead = "= ".toList ∧ m.path.chars = "a.*".toList := by
  obtain ⟨hspelled, hfound, -⟩ := places_are_spellings "Größe [[= a.*] [1]"
  have hplace : (9, ⟨.rowIf, [' '], ⟨["a", "*"]⟩⟩) ∈ places "Größe [[= a.*] [1]" := by decide +kernel
  have hspells : Spells .rowIf "= ".toList "a.*".toList "[= a.*]".toList := by
    have h := (hspelled 9 _ hplace).1
    rwa [show chars ⟨.rowIf, [' '], ⟨["a", "*"]⟩⟩ = "[= a.*]".toList by decide +kernel] at h
  have htext : "Größe [[= a.*] [1]".toList = "Größe [".toList ++ "[= a.*]".toList ++ " [1]".toList := by decide +kernel
  obtain ⟨m, hm, hmodifier, hlead, hpath, -⟩ := hfound _ _ _ _ _ _ htext hspells
  rw [show (String.ofList "Größe [".toList).utf8ByteSize = 9 by decide +kernel] at hm
  exact ⟨hplace, hspells, htext, m, hm, hmodifier, hlead, hpath⟩

end Marker
end SheetTemplate

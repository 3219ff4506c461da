import SheetTemplate.Compile
import SheetTemplate.Proofs.StraightPaths
import SheetTemplate.Proofs.Walk

/-!
# Conditions on lists

A condition is read at the path that is left when short paths are resolved and wildcards are read as 0. For a path without wildcards that
is a leaf, or leads to one straight, this is the first leaf among the path, its first element, the first element of that and so on, and
the path itself if none of them is a leaf (`condition_at_first`). So a condition on a list is read at the first element only: a list is
set although its first element is not (`first_element_decides`).
-/

namespace SheetTemplate

/-! ## First elements -/

namespace Path

/-- The path of the first element of the list at a path, of the first element of that, and so on `count` times. -/
def first (p : Path) (count : Nat) : Path := ⟨p.segments ++ zeros count⟩

theorem first_zero (p : Path) : p.first 0 = p := by rw [first, append_zeros_zero]

/-- A first element is written with a wildcard. -/
theorem hasWildcard_generalized_first {p : Path} (hne : p.segments ≠ []) (count : Nat) :
    (p.first (count + 1)).generalized.hasWildcard = true := by
  obtain ⟨segments⟩ := p
  cases segments with
  | nil => exact absurd rfl hne
  | cons root below =>
    refine List.contains_iff_mem.2 (List.mem_cons_of_mem _ (List.mem_map.2 ⟨"0", ?_, if_pos rfl⟩))
    simp [zeros]

end Path

namespace Leaves

open SheetTemplate.Path (zeros IsSpelled)

variable {leaves : Leaves} {count : Nat} {payload : Value} {path : Path}

/-- A straight path that leads towards a leaf is followed to its end, and from there into first elements. -/
theorem Straight.exists_follow (h : (ofValue payload).Straight path) (hadmits : Marker.admits path = true)
    (hreach : (ofValue payload).reaches path.text = true) :
    ∃ count, (ofValue payload).follow [] path.segments = path.segments ++ zeros count ∧
      (ofValue payload).EndsAfter path.segments count := by
  obtain ⟨⟨first, rest, _, hsegments, -⟩, -⟩ := Marker.admits_iff.1 hadmits
  exact h.exists_follow_written (Path.isSpelled_of_admits hadmits) (by simp [hsegments]) hreach
    (Path.StandsFor.refl _) (clear_self _ _)

/-! ## Where a condition is read -/

/-- The path at which a marker is read in the end: resolved, and with wildcards read as 0. -/
def final (leaves : Leaves) (path : Path) : Path := ((leaves.resolve? path).getD path).grounded

/-- A path that resolution leaves alone is read as it is written. -/
theorem final_of_resolve?_eq_none (h : leaves.resolve? path = none) (hwildcard : path.hasWildcard = false) :
    leaves.final path = path := by
  rw [final, h, Option.getD_none, Path.grounded_of_not_hasWildcard hwildcard]

/-- A path that is followed into first elements up to a leaf is read there. -/
theorem final_of_follow (hne : path.segments ≠ []) (hwildcard : path.hasWildcard = false)
    (hnot : leaves.isLeafAt path.segments = false) (hfollow : leaves.follow [] path.segments = path.segments ++ zeros count)
    (hleaf : leaves.isLeafAt (path.segments ++ zeros count) = true) : leaves.final path = path.first count := by
  have hlong : (path.first count).generalized ≠ path := by
    intro heq
    cases count with
    | zero =>
      rw [Path.append_zeros_zero, hnot] at hleaf
      cases hleaf
    | succ count =>
      have hstar := Path.hasWildcard_generalized_first hne count
      rw [heq, hwildcard] at hstar
      cases hstar
  have hresolve : leaves.resolve? path = some (path.first count).generalized := by
    rw [resolve?, if_neg (show ¬leaves.contains path.text = true from Bool.eq_false_iff.1 hnot)]
    simp only [hfollow]
    exact if_pos ⟨hleaf, hlong⟩
  have hnone : (path.first count).hasWildcard = false := by
    rw [Path.hasWildcard, Bool.eq_false_iff, ne_eq, List.contains_iff_mem] at hwildcard ⊢
    intro hmem
    rcases List.mem_append.1 hmem with hmem | hmem
    · exact hwildcard hmem
    · exact absurd (List.eq_of_mem_replicate hmem) (by decide)
  rw [final, hresolve, Option.getD_some, Path.grounded_generalized hnone]

/-- Where a condition is read at another path than the one written, what is set there is set at the path written, and the condition is
met as written unless only the latter is set. -/
theorem isMet_iff {path other : Path} (h : leaves.isSet other.text = true → leaves.isSet path.text = true) (modifier : Modifier)
    (gap : List Char) : (Marker.mk modifier gap other).isMet leaves = (Marker.mk modifier gap path).isMet leaves ↔
      modifier = .value ∨ leaves.isSet other.text = true ∨ leaves.isSet path.text = false := by
  cases hother : leaves.isSet other.text with
  | true => cases modifier <;> simp [Marker.isMet, hother, h hother]
  | false => cases modifier <;> cases hpath : leaves.isSet path.text <;> simp [Marker.isMet, hother, hpath]

/-- A condition is read at the first leaf among its path and the first elements below it, or at the path itself if there is none. What is
set there is set at the path, and the condition is met as written exactly if that leaf is set or nothing at the path and below it is. -/
theorem condition_at_first (hadmits : Marker.admits path = true) (hwildcard : path.hasWildcard = false)
    (hreach : (ofValue payload).reaches path.text = true)
    (hway : (ofValue payload).contains path.text = true ∨ (ofValue payload).Straight path) :
    ((∃ count, (ofValue payload).final path = path.first count ∧ (ofValue payload).contains (path.first count).text = true ∧
        ∀ m < count, (ofValue payload).contains (path.first m).text = false) ∨
      (ofValue payload).final path = path ∧ ∀ count, (ofValue payload).contains (path.first count).text = false) ∧
    ((ofValue payload).isSet ((ofValue payload).final path).text = true → (ofValue payload).isSet path.text = true) ∧
    ∀ modifier gap, (Marker.mk modifier gap ((ofValue payload).final path)).isMet (ofValue payload) =
        (Marker.mk modifier gap path).isMet (ofValue payload) ↔
      modifier = .value ∨ (ofValue payload).isSet ((ofValue payload).final path).text = true ∨
        (ofValue payload).isSet path.text = false := by
  have hne : path.segments ≠ [] := by
    obtain ⟨⟨first, rest, _, hsegments, -⟩, -⟩ := Marker.admits_iff.1 hadmits
    simp [hsegments]
  have hread : (∃ count, (ofValue payload).final path = path.first count ∧ (ofValue payload).contains (path.first count).text = true ∧
      ∀ m < count, (ofValue payload).contains (path.first m).text = false) ∨
      (ofValue payload).final path = path ∧ ∀ count, (ofValue payload).contains (path.first count).text = false := by
    cases hleaf : (ofValue payload).contains path.text with
    | true =>
      refine Or.inl ⟨0, ?_, ?_, fun m hm => absurd hm (Nat.not_lt_zero m)⟩
      · rw [Path.first_zero, final_of_resolve?_eq_none (by rw [resolve?, if_pos hleaf]) hwildcard]
      · rw [Path.first_zero, hleaf]
    | false =>
      obtain ⟨count, hfollow, hafter⟩ := (hway.resolve_left (by simp [hleaf])).exists_follow hadmits hreach
      cases hend : (ofValue payload).isLeafAt (path.segments ++ zeros count) with
      | true => exact Or.inl ⟨count, final_of_follow hne hwildcard hleaf hfollow hend, hend, fun m hm => (hafter.passed m hm).1⟩
      | false =>
        have hspelled : IsSpelled path.segments := Path.isSpelled_of_admits hadmits
        refine Or.inr ⟨final_of_resolve?_eq_none ?_ hwildcard, hafter.isLeafAt_eq_false hspelled hend⟩
        rw [resolve?, if_neg (by simp [hleaf])]
        simp only [hfollow, hend]
        exact if_neg fun h => Bool.false_ne_true h.1
  have hset : (ofValue payload).isSet ((ofValue payload).final path).text = true → (ofValue payload).isSet path.text = true := by
    rcases hread with ⟨count, hfinal, -⟩ | ⟨hfinal, -⟩
    · rw [hfinal]
      exact isSet_of_atOrBelow (atOrBelow_append hne _)
    · rw [hfinal]
      exact id
  exact ⟨hread, hset, isMet_iff hset⟩

/-- An order with two tags. -/
def Sample.order : Value := .map [("order", .map [("tags", .list [.text "new", .text "red"])])]

/-- A condition on the tags of the order is read at the first one. -/
theorem condition_at_first_tag : (ofValue Sample.order).contains "order.tags.0" = true ∧
    (ofValue Sample.order).final ⟨["order", "tags"]⟩ = ⟨["order", "tags", "0"]⟩ ∧
    ∀ modifier gap, (Marker.mk modifier gap ⟨["order", "tags", "0"]⟩).isMet (ofValue Sample.order) =
      (Marker.mk modifier gap ⟨["order", "tags"]⟩).isMet (ofValue Sample.order) := by
  have hstraight : (ofValue Sample.order).Straight ⟨["order", "tags"]⟩ := by
    intro front next rest hpath hne
    obtain ⟨rfl, rfl⟩ : front = ["order"] ∧ next = "tags" := by
      cases front with
      | nil => exact absurd rfl hne
      | cons first front =>
        cases front with
        | nil =>
          simp only [List.cons_append, List.nil_append, List.cons.injEq] at hpath
          exact ⟨by rw [← hpath.1], hpath.2.1.symm⟩
        | cons second front => simp at hpath
    exact ⟨by decide +kernel, fun _ => by decide +kernel⟩
  have hfinal : (ofValue Sample.order).final ⟨["order", "tags"]⟩ = ⟨["order", "tags", "0"]⟩ := by decide +kernel
  have hreach : (ofValue Sample.order).reaches (Path.mk ["order", "tags"]).text = true := by decide +kernel
  obtain ⟨-, -, hmet⟩ := condition_at_first (by decide +kernel) (by decide) hreach (Or.inr hstraight)
  rw [hfinal] at hmet
  exact ⟨by decide +kernel, hfinal, fun modifier gap => (hmet modifier gap).2 (Or.inr (Or.inl (by decide +kernel)))⟩

/-- A list with a true element, but not the first one. -/
def Sample.flags : Value := .map [("flag", .list [.int 0, .int 3])]

/-- The list is set, but a condition on it is read at its first element, which is not: the row goes out. -/
theorem first_element_decides : (ofValue Sample.flags).reaches "flag" = true ∧ (ofValue Sample.flags).isSet "flag" = true ∧
    (ofValue Sample.flags).isSet ((ofValue Sample.flags).final ⟨["flag"]⟩).text = false ∧
    ∃ plan, (Template.empty.put ⟨Layout.Sample.columnA, 1⟩ "[=flag]Row").compile Sample.flags = .ok plan ∧
      plan.rows = [.delete 1] := by
  obtain ⟨plan, hplan, hrows⟩ := Layout.exists_ok_of_any (show
    ((Template.empty.put ⟨Layout.Sample.columnA, 1⟩ "[=flag]Row").compile Sample.flags).toOption.any
      (fun plan => plan.rows = [.delete 1]) = true by decide +kernel)
  exact ⟨by decide +kernel, by decide +kernel, by decide +kernel, plan, hplan, of_decide_eq_true hrows⟩

end Leaves
end SheetTemplate

import Mathlib.Computability.StateTransition
import SheetTemplate.Proofs.ResolvedPaths

/-!
# The search for the leaf of a short path

Resolution follows the segments of a path and takes first elements in between, for as long as there are any. Here this search goes step by
step (`Leaves.searchOn?`), and nothing in a step says how many are still to come. What a step can do is said by `Search.Step`. Each step
keeps what has been found inside of the data (`Search.Inside.step`): towards a leaf, made of segments of the path in their order and of
positions 0. So no place is deeper than the leaves are, and every step brings the search closer to its end (`Search.Step.left_lt`). Each
step also keeps what following the segments leads to (`Search.Step.result_eq`), and this is what the search ends with.
-/

namespace SheetTemplate

/-- How far the search for a leaf has come: the segments that name the place it has found, and those of the path that are still to come. -/
inductive Search
  /-- The next segment is looked at. -/
  | looking (found todo : List String)
  /-- First elements are taken, before the next segment is looked at. -/
  | descending (found todo : List String)
  /-- The search is over. -/
  | done (found : List String)

namespace Search

/-- The segments that were found. -/
def found : Search → List String
  | .looking found _ | .descending found _ | .done found => found

/-- The segments that are still to come. -/
def todo : Search → List String
  | .looking _ todo | .descending _ todo => todo
  | .done _ => []

end Search

/-- One step of the search. Nothing is looked for beyond a leaf, and no first elements are taken from the top of the payload. -/
def Leaves.searchOn? (leaves : Leaves) : Search → Option Search
  | .looking found [] => some (.done found)
  | .looking found (segment :: todo) =>
    some (.descending (if leaves.reachesBy found segment then found ++ [segment] else found) todo)
  | .descending found todo =>
    if found = [] then some (.looking found todo)
    else if leaves.isLeafAt found then some (.done found)
    else if leaves.reachesBy found "0" then some (.descending (found ++ ["0"]) todo)
    else some (.looking found todo)
  | .done _ => none

namespace Search

open Leaves (AtOrBelow)
open SheetTemplate.Path (zeros IsSpelled)

/-! ## Steps -/

/-- What a step of the search can do. -/
inductive Step (leaves : Leaves) : Search → Search → Prop
  /-- No segment is left. -/
  | stop {found : List String} : Step leaves (.looking found []) (.done found)
  /-- A segment that leads towards a leaf is taken. -/
  | take {found todo : List String} {segment : String} (hreach : leaves.reachesBy found segment = true) :
      Step leaves (.looking found (segment :: todo)) (.descending (found ++ [segment]) todo)
  /-- A segment that leads nowhere is left out. -/
  | skip {found todo : List String} {segment : String} (hreach : leaves.reachesBy found segment = false) :
      Step leaves (.looking found (segment :: todo)) (.descending found todo)
  /-- A leaf is found. -/
  | leaf {found todo : List String} (hne : found ≠ []) (hleaf : leaves.isLeafAt found = true) :
      Step leaves (.descending found todo) (.done found)
  /-- A first element is taken. -/
  | descend {found todo : List String} (hne : found ≠ []) (hleaf : leaves.isLeafAt found = false)
      (hreach : leaves.reachesBy found "0" = true) : Step leaves (.descending found todo) (.descending (found ++ ["0"]) todo)
  /-- There is no first element, or none is taken at the top. -/
  | look {found todo : List String} (hrest : found ≠ [] → leaves.isLeafAt found = false ∧ leaves.reachesBy found "0" = false) :
      Step leaves (.descending found todo) (.looking found todo)

variable {leaves : Leaves} {payload : Value} {segments found todo : List String} {search search' : Search}

/-- All that a step does. -/
theorem Step.of_eq_some (h : leaves.searchOn? search = some search') : Step leaves search search' := by
  cases search with
  | looking found todo =>
    cases todo with
    | nil =>
      obtain rfl := Option.some.inj h
      exact .stop
    | cons segment todo =>
      obtain rfl := Option.some.inj h
      split
      · rename_i hreach
        exact .take hreach
      · rename_i hreach
        exact .skip (Bool.eq_false_iff.2 hreach)
  | descending found todo =>
    rw [Leaves.searchOn?] at h
    split at h
    · rename_i hnil
      obtain rfl := Option.some.inj h
      exact .look fun hne => absurd hnil hne
    · rename_i hne
      split at h
      · rename_i hleaf
        obtain rfl := Option.some.inj h
        exact .leaf hne hleaf
      · rename_i hleaf
        split at h
        · rename_i hreach
          obtain rfl := Option.some.inj h
          exact .descend hne (Bool.eq_false_iff.2 hleaf) hreach
        · rename_i hreach
          obtain rfl := Option.some.inj h
          exact .look fun _ => ⟨Bool.eq_false_iff.2 hleaf, Bool.eq_false_iff.2 hreach⟩
  | done found => cases h

/-- Only a search that is over takes no step. -/
theorem eq_done_of_eq_none (h : leaves.searchOn? search = none) : ∃ found, search = .done found := by
  cases search with
  | looking found todo => cases todo <;> cases h
  | descending found todo =>
    rw [Leaves.searchOn?] at h
    split at h
    · cases h
    · split at h
      · cases h
      · split at h <;> cases h
  | done found => exact ⟨found, rfl⟩

/-! ## Inside of the data -/

/-- The search is at a place from which a leaf can be reached, or still at the top. The place is named by segments of a path in
their order, with positions 0 between them, and the others are still to come. -/
structure Inside (leaves : Leaves) (segments : List String) (search : Search) : Prop where
  spelled : IsSpelled search.found
  reaches : search.found ≠ [] → leaves.reaches (Path.mk search.found).text = true
  in_order : (search.found.filter (· ≠ "0") ++ search.todo).Sublist segments

/-- The search begins at the top. -/
theorem Inside.start (leaves : Leaves) (segments : List String) : Inside leaves segments (.looking [] segments) :=
  ⟨⟨nofun, nofun⟩, fun hne => absurd rfl hne, List.Sublist.refl _⟩

/-- A step of the search stays inside of the data. -/
theorem Inside.step (h : Inside leaves segments search) (hname : ∀ s ∈ segments, s ≠ "") (hdot : ∀ s ∈ segments, '.' ∉ s.toList)
    (hstep : Step leaves search search') : Inside leaves segments search' := by
  obtain ⟨hspelled, hreaches, horder⟩ := h
  cases hstep with
  | stop => exact ⟨hspelled, hreaches, horder⟩
  | @take found todo segment hreach =>
    have hfound : IsSpelled found := hspelled
    have hmem : segment ∈ segments := horder.subset (List.mem_append_right _ List.mem_cons_self)
    rw [Leaves.reachesBy_eq hfound.1] at hreach
    refine ⟨hfound.concat (fun _ => hname segment hmem) (hdot segment hmem), fun _ => hreach, List.Sublist.trans ?_ horder⟩
    change (List.filter _ (found ++ [segment]) ++ todo).Sublist (List.filter _ found ++ segment :: todo)
    rw [List.filter_append, List.append_assoc]
    exact (List.filter_sublist.append_right todo).append_left _
  | @skip found todo segment hreach =>
    exact ⟨hspelled, hreaches, ((List.sublist_cons_self segment todo).append_left _).trans horder⟩
  | @leaf found todo hne hleaf => exact ⟨hspelled, hreaches, ((List.nil_sublist todo).append_left _).trans horder⟩
  | @descend found todo hne hleaf hreach =>
    have hfound : IsSpelled found := hspelled
    rw [Leaves.reachesBy_eq hfound.1] at hreach
    refine ⟨hfound.append_zero, fun _ => hreach, ?_⟩
    change (List.filter _ (found ++ ["0"]) ++ todo).Sublist segments
    rw [List.filter_append, show List.filter (fun s => decide (s ≠ "0")) ["0"] = [] by decide, List.append_nil]
    exact horder
  | look hrest => exact ⟨hspelled, hreaches, horder⟩

/-- So does a search from the top, at every place that it comes to. -/
theorem Inside.of_reaches (hname : ∀ s ∈ segments, s ≠ "") (hdot : ∀ s ∈ segments, '.' ∉ s.toList)
    (h : StateTransition.Reaches leaves.searchOn? (.looking [] segments) search) : Inside leaves segments search := by
  induction h with
  | refl => exact .start leaves segments
  | tail _ hnext ih => exact ih.step hname hdot (.of_eq_some hnext)

/-- A place inside of the data is the top, a key, or a part of a key before one of its dots. -/
theorem Inside.exists_key (h : Inside (Leaves.ofValue payload) segments search) :
    search.found = [] ∨ ∃ key, (Leaves.ofValue payload).contains key = true ∧ AtOrBelow (Path.mk search.found).text key := by
  by_cases hne : search.found = []
  · exact Or.inl hne
  · exact Or.inr (Leaves.reaches_iff.1 (h.reaches hne))

/-! ## The end -/

/-- The most steps that are left: two for each segment that is still to come and one for each further first element, as no place is deeper
than the leaves. -/
def left (leaves : Leaves) : Search → Nat
  | .looking found todo => 2 * todo.length + (leaves.depth - found.length) + 1
  | .descending found todo => 2 * todo.length + (leaves.depth - found.length) + 2
  | .done _ => 0

/-- With each step fewer are left. -/
theorem Step.left_lt (h : Step (Leaves.ofValue payload) search search') (hspelled : IsSpelled search.found) :
    search'.left (Leaves.ofValue payload) < search.left (Leaves.ofValue payload) := by
  cases h with
  | stop => exact Nat.succ_pos _
  | take hreach =>
    simp only [left, List.length_cons, List.length_append]
    omega
  | skip hreach =>
    simp only [left, List.length_cons]
    omega
  | leaf hne hleaf => exact Nat.succ_pos _
  | @descend found todo hne hleaf hreach =>
    have hfound : IsSpelled found := hspelled
    rw [Leaves.reachesBy_eq hfound.1] at hreach
    have hdeep := Leaves.length_le_depth_of_reaches hreach
    rw [Path.ofText_text (by simp) hfound.append_zero.2, List.length_append, List.length_singleton] at hdeep
    simp only [left, List.length_append, List.length_singleton]
    omega
  | look hrest => exact Nat.lt_succ_self _

/-! ## The result -/

/-- What following the segments leads to from here. -/
def result (leaves : Leaves) : Search → List String
  | .looking found todo => leaves.follow found todo
  | .descending found todo =>
    let here := leaves.descend leaves.depth found
    if here ≠ [] ∧ leaves.isLeafAt here then here else leaves.follow here todo
  | .done found => found

/-- The descent goes as deep from a place as from its first element. -/
theorem descend_append_zero (hspelled : IsSpelled found) (hne : found ≠ []) (hleaf : (Leaves.ofValue payload).isLeafAt found = false)
    (hreach : (Leaves.ofValue payload).reachesBy found "0" = true) :
    (Leaves.ofValue payload).descend (Leaves.ofValue payload).depth (found ++ ["0"]) =
      (Leaves.ofValue payload).descend (Leaves.ofValue payload).depth found := by
  obtain ⟨count, hdescend, hafter⟩ := Leaves.exists_descend hne hspelled (Nat.le_add_left (Leaves.ofValue payload).depth _)
  obtain ⟨further, hdescend', hafter'⟩ := Leaves.exists_descend (by simp) hspelled.append_zero
    (Nat.le_add_left (Leaves.ofValue payload).depth _)
  obtain rfl := hafter.unique (hafter'.succ hleaf hreach)
  rw [hdescend, hdescend', Path.append_zeros_succ]

/-- A step of the search leads to the same result. -/
theorem Step.result_eq (h : Step (Leaves.ofValue payload) search search') (hspelled : IsSpelled search.found) :
    search'.result (Leaves.ofValue payload) = search.result (Leaves.ofValue payload) := by
  cases h with
  | stop => rfl
  | take hreach =>
    rw [result, result, Leaves.follow, hreach, if_pos rfl]
  | skip hreach =>
    rw [result, result, Leaves.follow, hreach, if_neg Bool.false_ne_true]
  | leaf hne hleaf => rw [result, result, Leaves.descend_eq_self (Or.inl hleaf), if_pos ⟨hne, hleaf⟩]
  | @descend found todo hne hleaf hreach =>
    have hfound : IsSpelled found := hspelled
    rw [result, result, descend_append_zero hfound hne hleaf hreach]
  | @look found todo hrest =>
    by_cases hnil : found = []
    · rw [result, result, hnil, Leaves.descend_nil, if_neg fun hstop => hstop.1 rfl]
    · obtain ⟨hleaf, hreach⟩ := hrest hnil
      rw [result, result, Leaves.descend_eq_self (Or.inr hreach), hleaf, if_neg fun hstop => Bool.false_ne_true hstop.2]

/-- The search goes on to its end and finds what following the segments leads to. -/
theorem Inside.reaches_done (h : Inside (Leaves.ofValue payload) segments search) (hname : ∀ s ∈ segments, s ≠ "")
    (hdot : ∀ s ∈ segments, '.' ∉ s.toList) :
    StateTransition.Reaches (Leaves.ofValue payload).searchOn? search (.done (search.result (Leaves.ofValue payload))) := by
  induction hleft : search.left (Leaves.ofValue payload) using Nat.strong_induction_on generalizing search with
  | h left ih =>
    cases hnext : (Leaves.ofValue payload).searchOn? search with
    | some search' =>
      have hstep := Step.of_eq_some hnext
      have hrest := ih _ (hleft ▸ hstep.left_lt h.spelled) (h.step hname hdot hstep) rfl
      rw [hstep.result_eq h.spelled] at hrest
      exact .head hnext hrest
    | none =>
      obtain ⟨found, rfl⟩ := eq_done_of_eq_none hnext
      exact .refl

/-! ## What a path is resolved to -/

/-- At the top nothing is found exactly where no segment leads towards a leaf. -/
theorem not_reaches_of_follow_eq_nil (h : leaves.follow [] todo = []) : ∀ segment ∈ todo, leaves.reaches segment = false := by
  induction todo with
  | nil => exact fun segment hmem => absurd hmem List.not_mem_nil
  | cons first todo ih =>
    have hfirst : leaves.reachesBy [] first = false := by
      rw [Bool.eq_false_iff]
      intro hreach
      have hprefix := Leaves.append_isPrefix_follow hreach todo
      rw [h] at hprefix
      exact absurd (List.prefix_nil.1 hprefix) (by simp)
    rw [Leaves.follow_cons_of_not hfirst fun hne => absurd rfl hne] at h
    intro segment hmem
    rcases List.mem_cons.1 hmem with rfl | hmem
    · exact hfirst
    · exact ih h segment hmem

/-- The search for a leaf ends inside of the data. For every payload, whatever its keys are, and every path whose segments are not empty, the
search comes to its end and finds what following the segments leads to. On its way every place is the top, a key, or a part of a key before
one of its dots. A path that is resolved gets the text of a key with wildcards for its positions 0, and the segments of the key other than 0
are segments of the path in the order in which they are written; only where the empty text is a key and no segment leads towards a leaf,
the path is resolved to that key. -/
theorem search_ends_inside (payload : Value) (written : String) (hname : ∀ s ∈ (Path.ofText written).segments, s ≠ "") :
    .done ((Leaves.ofValue payload).follow [] (Path.ofText written).segments) ∈
      StateTransition.eval (Leaves.ofValue payload).searchOn? (.looking [] (Path.ofText written).segments) ∧
    (∀ search, StateTransition.Reaches (Leaves.ofValue payload).searchOn? (.looking [] (Path.ofText written).segments) search →
      search.found = [] ∨ ∃ key, (Leaves.ofValue payload).contains key = true ∧ AtOrBelow (Path.mk search.found).text key) ∧
    ∀ q, (Leaves.ofValue payload).resolve? (Path.ofText written) = some q → ∃ key, (Leaves.ofValue payload).contains key = true ∧
      q.text = (Path.ofText key).generalized.text ∧
      (((Path.ofText key).segments.filter (· ≠ "0")).Sublist (Path.ofText written).segments ∨
        key = "" ∧ ∀ s ∈ (Path.ofText written).segments, (Leaves.ofValue payload).reaches s = false) := by
  have hdot := Path.dot_not_mem_ofText written
  have hdone := (Inside.start (Leaves.ofValue payload) (Path.ofText written).segments).reaches_done hname hdot
  refine ⟨StateTransition.mem_eval.2 ⟨hdone, rfl⟩, fun search hreaches => (Inside.of_reaches hname hdot hreaches).exists_key, ?_⟩
  intro q hq
  obtain ⟨-, hleaf, rfl, -⟩ := Leaves.resolve?_eq_some_iff.1 hq
  obtain ⟨hspelled, -, horder⟩ := Inside.of_reaches hname hdot hdone
  generalize hfound : (Leaves.ofValue payload).follow [] (Path.ofText written).segments = found at hleaf
  have hresult : (Search.done ((Search.looking [] (Path.ofText written).segments).result (Leaves.ofValue payload))).found = found := hfound
  rw [hresult] at hspelled horder
  rcases List.eq_nil_or_concat found with rfl | ⟨front, last, hconcat⟩
  · exact ⟨"", hleaf, by decide, Or.inr ⟨rfl, not_reaches_of_follow_eq_nil hfound⟩⟩
  · have hread : Path.ofText (Path.mk found).text = ⟨found⟩ := Path.ofText_text (by simp [hconcat]) hspelled.2
    refine ⟨(Path.mk found).text, hleaf, by rw [hread], Or.inl ?_⟩
    rw [hread]
    exact (List.sublist_append_left _ _).trans horder

/-- A field of every item of a list of lists. -/
def Sample.items : Value := .map [("items", .list [.list [.map [("sku", .int 7)]]])]

/-- A segment that leads nowhere is left out, and two first elements are taken. -/
theorem sku_found_inside : (∀ s ∈ (Path.ofText "items.brand.sku").segments, s ≠ "") ∧
    (Leaves.ofValue Sample.items).resolve? (Path.ofText "items.brand.sku") = some ⟨["items", "*", "*", "sku"]⟩ ∧
    .done ["items", "0", "0", "sku"] ∈
      StateTransition.eval (Leaves.ofValue Sample.items).searchOn? (.looking [] ["items", "brand", "sku"]) ∧
    ∃ key, (Leaves.ofValue Sample.items).contains key = true ∧ "items.*.*.sku" = (Path.ofText key).generalized.text ∧
      ((Path.ofText key).segments.filter (· ≠ "0")).Sublist ["items", "brand", "sku"] := by
  have hsegments : (Path.ofText "items.brand.sku").segments = ["items", "brand", "sku"] := by decide +kernel
  have hname : ∀ s ∈ (Path.ofText "items.brand.sku").segments, s ≠ "" := by
    rw [hsegments]
    decide
  have hresolved : (Leaves.ofValue Sample.items).resolve? (Path.ofText "items.brand.sku") = some ⟨["items", "*", "*", "sku"]⟩ := by
    decide +kernel
  obtain ⟨hends, -, hkeys⟩ := search_ends_inside Sample.items "items.brand.sku" hname
  obtain ⟨key, hkey, htext, horder⟩ := hkeys _ hresolved
  have hfollow : (Leaves.ofValue Sample.items).follow [] ["items", "brand", "sku"] = ["items", "0", "0", "sku"] := by decide +kernel
  rw [hsegments] at hends horder
  rw [hfollow] at hends
  refine ⟨hname, hresolved, hends, key, hkey, htext, horder.resolve_right ?_⟩
  rintro ⟨-, hnone⟩
  exact absurd (hnone "items" List.mem_cons_self) (by decide +kernel)

/-- Where the empty text is a key, a path that leads nowhere is resolved to it, and not to a key that is made of its segments. -/
theorem empty_key_found : (∀ s ∈ (Path.ofText "n").segments, s ≠ "") ∧
    (Leaves.ofValue (.map [("", .int 5)])).resolve? (Path.ofText "n") = some ⟨[]⟩ ∧ (Path.mk []).text = "" ∧
    ¬∃ key, (Leaves.ofValue (.map [("", .int 5)])).contains key = true ∧ (Path.mk []).text = (Path.ofText key).generalized.text ∧
      ((Path.ofText key).segments.filter (· ≠ "0")).Sublist (Path.ofText "n").segments := by
  have hkeys : (Leaves.ofValue (.map [("", .int 5)])).entries.keys = [""] := by decide +kernel
  refine ⟨by decide +kernel, by decide +kernel, rfl, ?_⟩
  rintro ⟨key, hkey, -, horder⟩
  have hmem := (SortedMap.mem_keys_iff _ _).2 (Leaves.contains_eq_true_iff.1 hkey)
  rw [hkeys, List.mem_singleton] at hmem
  subst hmem
  revert horder
  decide +kernel

end Search
end SheetTemplate

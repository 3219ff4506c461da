import SheetTemplate.Proofs.PayloadLeaves

/-!
# Keys at a path and below it

What the questions to the leaves of a payload mean when keys may hold anything, dots included. A key stands below a path if it begins
with the text of the path and a dot. In the order of texts these keys follow each other (`mem_below`), so a path is set exactly if the
leaf of a key at it or below it is true (`isSet_iff`). A path leads towards a leaf exactly if there is such a key (`reaches_iff`).
-/

namespace SheetTemplate

/-! ## Texts that begin with a text -/

/-- What lies in order between a text and one that begins with it begins with it too. -/
theorem prefix_of_not_lt {a b c : List Char} (h : a <+: c) (hab : ¬b < a) (hbc : ¬c < b) : a <+: b := by
  induction a generalizing b c with
  | nil => exact List.nil_prefix
  | cons x a ih =>
    obtain ⟨c, rfl, hac⟩ := List.cons_prefix_iff.1 h
    cases b with
    | nil => exact absurd (List.nil_lt_cons x a) hab
    | cons y b =>
      simp only [List.cons_lt_cons_iff, not_or, not_and] at hab hbc
      obtain rfl : y = x := le_antisymm (not_lt.1 hbc.1) (not_lt.1 hab.1)
      exact List.cons_prefix_cons.2 ⟨rfl, ih hac (hab.2 rfl) (hbc.2 rfl)⟩

/-- Of sorted entries that do not come before a text, those that begin with it are the first ones. -/
theorem mem_takeWhile_prefix {ν : Type} {start : String} {entries : List (String × ν)}
    (hsorted : entries.Pairwise fun a b => compare a.1 b.1 = .lt) (hstart : ∀ e ∈ entries, ¬e.1 < start) {e : String × ν} :
    e ∈ entries.takeWhile (fun e => start.toList.isPrefixOf e.1.toList) ↔ e ∈ entries ∧ start.toList <+: e.1.toList := by
  induction entries with
  | nil => simp
  | cons first rest ih =>
    have hrest := ih hsorted.of_cons fun e he => hstart e (List.mem_cons_of_mem _ he)
    rw [List.takeWhile_cons]
    split
    · rename_i hfirst
      rw [List.mem_cons, hrest, List.mem_cons]
      constructor
      · rintro (rfl | ⟨hmem, hprefix⟩)
        · exact ⟨Or.inl rfl, List.isPrefixOf_iff_prefix.1 hfirst⟩
        · exact ⟨Or.inr hmem, hprefix⟩
      · rintro ⟨rfl | hmem, hprefix⟩
        · exact Or.inl rfl
        · exact Or.inr ⟨hmem, hprefix⟩
    · rename_i hfirst
      refine ⟨nofun, ?_⟩
      rintro ⟨hmem, hprefix⟩
      rcases List.mem_cons.1 hmem with rfl | hmem
      · exact absurd (List.isPrefixOf_iff_prefix.2 hprefix) hfirst
      · -- A later entry that begins with the text puts the first one between the two.
        have hlt : first.1 < e.1 := compareOfLessAndEq_eq_lt.1 ((List.pairwise_cons.1 hsorted).1 e hmem)
        have hbetween : start.toList <+: first.1.toList := prefix_of_not_lt hprefix
          (fun h => hstart first List.mem_cons_self (String.lt_iff_toList_lt.2 h))
          fun h => lt_asymm hlt (String.lt_iff_toList_lt.2 h)
        exact absurd (List.isPrefixOf_iff_prefix.2 hbetween) hfirst

namespace Leaves

/-- A key that is a path or goes on from it. -/
def AtOrBelow (path key : String) : Prop := key = path ∨ (path ++ ".").toList <+: key.toList

theorem AtOrBelow.refl (path : String) : AtOrBelow path path := Or.inl rfl

/-- What goes on from a key goes on from a path that the key goes on from. -/
theorem AtOrBelow.trans {path key further : String} (h : AtOrBelow path key) (h' : AtOrBelow key further) : AtOrBelow path further := by
  rcases h with rfl | h
  · exact h'
  · rcases h' with rfl | h'
    · exact Or.inr h
    · refine Or.inr (h.trans (List.IsPrefix.trans ?_ h'))
      rw [String.toList_append]
      exact List.prefix_append _ _

/-- A path with more segments goes on from it. -/
theorem atOrBelow_append {segments : List String} (hne : segments ≠ []) (rest : List String) :
    AtOrBelow (Path.mk segments).text (Path.mk (segments ++ rest)).text := by
  cases rest with
  | nil => exact Or.inl (by rw [List.append_nil])
  | cons next rest =>
    rw [Path.text_append_cons hne]
    exact Or.inr (by simp only [String.toList_append]; exact List.prefix_append _ _)

/-- A key that goes on from a path has its segments and those behind the dot. -/
theorem segments_eq_append {path key : String} {rest : List Char} (h : (path ++ ".").toList ++ rest = key.toList) :
    (Path.ofText key).segments = (Path.ofText path).segments ++ (Path.ofChars rest).segments := by
  have hchars : key.toList = path.toList ++ '.' :: rest := by
    rw [← h, String.toList_append, List.append_assoc]
    rfl
  simp only [Path.ofText, Path.ofChars, hchars, List.splitOn_append_cons_self, List.map_append]

/-- A key at a path or below it has its segments first. -/
theorem AtOrBelow.exists_segments {path key : String} (h : AtOrBelow path key) :
    ∃ rest, (Path.ofText key).segments = (Path.ofText path).segments ++ rest := by
  rcases h with rfl | ⟨rest, hrest⟩
  · exact ⟨[], (List.append_nil _).symm⟩
  · exact ⟨_, segments_eq_append hrest⟩

/-- A key goes on from a path behind one of its dots. -/
theorem mem_partsBeforeDots_iff {path key : String} : path ∈ partsBeforeDots key ↔ (path ++ ".").toList <+: key.toList := by
  have hkey : (Path.mk (Path.ofText key).segments).text = key := Path.text_ofText key
  simp only [partsBeforeDots, List.mem_map, List.mem_range'_1]
  constructor
  · rintro ⟨count, hcount, rfl⟩
    have htake : (Path.ofText key).segments.take count ≠ [] := by
      intro hnil
      rcases List.take_eq_nil_iff.1 hnil with hzero | hnil
      · omega
      · rw [hnil, List.length_nil] at hcount
        omega
    cases hdrop : (Path.ofText key).segments.drop count with
    | nil =>
      have := List.drop_eq_nil_iff.1 hdrop
      omega
    | cons next rest =>
      rw [← List.take_append_drop count (Path.ofText key).segments, hdrop, Path.text_append_cons htake] at hkey
      have hchars := congrArg String.toList hkey
      simp only [String.toList_append] at hchars ⊢
      exact ⟨_, hchars⟩
  · rintro ⟨rest, hrest⟩
    have hsegments := segments_eq_append hrest
    have hpath := List.length_pos_iff.2 (Path.ofText_ne_nil path)
    have hrest := List.length_pos_iff.2 (show (Path.ofChars rest).segments ≠ [] by simp [Path.ofChars])
    refine ⟨(Path.ofText path).segments.length, ?_, ?_⟩
    · rw [hsegments, List.length_append]
      omega
    · rw [hsegments, List.take_left]
      exact Path.text_ofText path

/-! ## What is set -/

/-- The leaves below a path are those of the keys that go on from it. -/
theorem mem_below {leaves : Leaves} {path : String} {e : String × Value} :
    e ∈ leaves.below path ↔ e ∈ leaves.entries.entries ∧ (path ++ ".").toList <+: e.1.toList := by
  have hsorted := leaves.entries.sorted
  simp only [below]
  generalize path ++ "." = start
  generalize leaves.entries.entries = entries at hsorted
  induction entries with
  | nil => simp
  | cons first rest ih =>
    rw [List.dropWhile_cons]
    split
    · rename_i hlt
      have hlt' : first.1 < start := compareOfLessAndEq_eq_lt.1 (beq_iff_eq.1 hlt)
      refine (ih hsorted.of_cons).trans ?_
      rw [List.mem_cons]
      refine and_congr_left fun hprefix => (or_iff_right ?_).symm
      rintro rfl
      exact absurd (String.lt_iff_toList_lt.1 hlt') hprefix.le
    · rename_i hnot
      have hfirst : ¬first.1 < start := fun h => hnot (beq_iff_eq.2 (compareOfLessAndEq_eq_lt.2 h))
      refine mem_takeWhile_prefix hsorted fun e he => ?_
      rcases List.mem_cons.1 he with rfl | he
      · exact hfirst
      · have hnext : first.1 < e.1 := compareOfLessAndEq_eq_lt.1 ((List.pairwise_cons.1 hsorted).1 e he)
        exact fun h => hfirst (hnext.trans h)

/-- A path is set exactly if the leaf of a key at it or below it is true. -/
theorem isSet_iff {leaves : Leaves} {path : String} :
    leaves.isSet path = true ↔ ∃ key v, leaves.get? key = some v ∧ AtOrBelow path key ∧ v.isTruthy = true := by
  rw [isSet, Bool.or_eq_true, Option.any_eq_true, List.any_eq_true]
  constructor
  · rintro (⟨v, hget, htrue⟩ | ⟨⟨key, v⟩, hmem, htrue⟩)
    · exact ⟨path, v, hget, .refl path, htrue⟩
    · obtain ⟨hentry, hbelow⟩ := mem_below.1 hmem
      exact ⟨key, v, (SortedMap.get?_eq_some_iff _ _ _).2 hentry, Or.inr hbelow, htrue⟩
  · rintro ⟨key, v, hget, rfl | hbelow, htrue⟩
    · exact Or.inl ⟨v, hget, htrue⟩
    · exact Or.inr ⟨(key, v), mem_below.2 ⟨(SortedMap.get?_eq_some_iff _ _ _).1 hget, hbelow⟩, htrue⟩

/-- A path is set if one that goes on from it is. -/
theorem isSet_of_atOrBelow {leaves : Leaves} {path further : String} (h : AtOrBelow path further)
    (hset : leaves.isSet further = true) : leaves.isSet path = true := by
  obtain ⟨key, v, hget, hkey, htrue⟩ := isSet_iff.1 hset
  exact isSet_iff.2 ⟨key, v, hget, h.trans hkey, htrue⟩

/-! ## What leads towards a leaf -/

/-- The keys of a payload are the texts under which its leaves are listed. -/
theorem contains_iff_listed {payload : Value} {key : String} :
    (ofValue payload).contains key = true ↔ ∃ leaf ∈ listed payload, leaf.1 = key := by
  rw [contains_eq_true_iff, get?, entries_ofValue]
  exact SortedMap.exists_get?_ofList_iff

variable {payload : Value} {path : String}

/-- The index holds the texts that some key goes on from. -/
theorem inner_contains_iff : (ofValue payload).inner.contains path = true ↔
    ∃ key, (ofValue payload).contains key = true ∧ (path ++ ".").toList <+: key.toList := by
  simp only [inner_ofValue_iff, mem_partsBeforeDots_iff, contains_iff_listed]
  constructor
  · intro h
    obtain ⟨leaf, hmem, hbelow⟩ := h
    exact ⟨leaf.1, ⟨leaf, hmem, rfl⟩, hbelow⟩
  · rintro ⟨_, ⟨leaf, hmem, rfl⟩, hbelow⟩
    exact ⟨leaf, hmem, hbelow⟩

/-- A path leads towards a leaf exactly if a key stands at it or below it. -/
theorem reaches_iff : (ofValue payload).reaches path = true ↔ ∃ key, (ofValue payload).contains key = true ∧ AtOrBelow path key := by
  rw [reaches, Bool.or_eq_true, inner_contains_iff]
  simp only [AtOrBelow, and_or_left, exists_or, exists_eq_right]

/-- A path leads towards a leaf if one that goes on from it does. -/
theorem reaches_of_atOrBelow {further : String} (h : AtOrBelow path further) (hreaches : (ofValue payload).reaches further = true) :
    (ofValue payload).reaches path = true := by
  obtain ⟨key, hkey, hbelow⟩ := reaches_iff.1 hreaches
  exact reaches_iff.2 ⟨key, hkey, h.trans hbelow⟩

/-- A path that leads towards a leaf has no more segments than the leaves are deep. -/
theorem length_le_depth_of_reaches (h : (ofValue payload).reaches path = true) :
    (Path.ofText path).segments.length ≤ (ofValue payload).depth := by
  obtain ⟨key, hkey, hbelow⟩ := reaches_iff.1 h
  obtain ⟨rest, hsegments⟩ := hbelow.exists_segments
  refine Nat.le_trans ?_ (length_le_depth_of_contains hkey)
  rw [hsegments, List.length_append]
  exact Nat.le_add_right _ _

/-- Questions about a path and the keys that answer them. For every payload, whatever its keys are, a path leads towards a leaf exactly if it
is a key or a key goes on from it behind a dot, and the index holds just the texts that a key goes on from. A path is set exactly if an entry
at it or going on from it is true: the entries that are looked at are all of those, though the search ends at the first other one. -/
theorem questions_agree_with_keys (payload : Value) (path : String) :
    ((ofValue payload).reaches path = true ↔
      path ∈ (ofValue payload).entries.keys ∨ ∃ key ∈ (ofValue payload).entries.keys, (path ++ ".").toList <+: key.toList) ∧
    ((ofValue payload).inner.contains path = true ↔
      ∃ key ∈ (ofValue payload).entries.keys, (path ++ ".").toList <+: key.toList) ∧
    ((ofValue payload).isSet path = true ↔
      ∃ e ∈ (ofValue payload).entries.entries, (e.1 = path ∨ (path ++ ".").toList <+: e.1.toList) ∧ e.2.isTruthy = true) := by
  have hkeys : ∀ key, (ofValue payload).contains key = true ↔ key ∈ (ofValue payload).entries.keys := by
    intro key
    rw [contains_eq_true_iff, SortedMap.mem_keys_iff]
    rfl
  refine ⟨?_, ?_, ?_⟩
  · rw [reaches, Bool.or_eq_true, inner_contains_iff]
    simp only [hkeys]
  · rw [inner_contains_iff]
    simp only [hkeys]
  · rw [isSet_iff, Prod.exists]
    exact exists_congr fun key => exists_congr fun v => and_congr_left fun _ => SortedMap.get?_eq_some_iff _ _ _

/-- Keys that begin with the path but not with the path and a dot stand around those below it and are passed over, whether the entries below
it are true or not. -/
example : (ofValue (.map [("list", .list [.int 0, .int 3]), ("list-x", .int 0), ("listing", .int 0)])).isSet "list" = true ∧
    (ofValue (.map [("list", .list [.int 0, .text ""]), ("list-x", .int 1), ("listing", .int 1)])).isSet "list" = false := by
  decide +kernel

end Leaves
end SheetTemplate

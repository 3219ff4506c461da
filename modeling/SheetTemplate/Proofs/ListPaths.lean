import SheetTemplate.Proofs.SiblingCounts

/-!
# Paths into lists

A path with a wildcard stands for a value in every element of a list (`ListPath`): a field of the element, the element itself, or,
with a second wildcard, the elements of a list in a list. `ListPath.key` is the path with positions in place of the wildcards.

`ListPath.Supplied` says that a payload has a list at the path, and how many of its elements have a value before the first gap. These
are the numbers of copies that the marker asks for (`siblings_down`, `siblings_across`).
-/

namespace SheetTemplate

/-! ## Positions in a path -/

namespace Path

/-- Whether a segment is a name, which stands for itself in every copy. -/
def IsName (segment : String) : Prop := segment ≠ wildcard ∧ isPosition segment = false

instance (segment : String) : Decidable (IsName segment) :=
  inferInstanceAs (Decidable (segment ≠ wildcard ∧ isPosition segment = false))

theorem position_zero : Value.position 0 = "0" := by decide

theorem IsName.ne_zero {segment : String} (h : IsName segment) : segment ≠ "0" := by
  rintro rfl
  exact absurd h.2 (by decide)

/-- No positions stand at the places of names. -/
theorem filter_zipIdx_eq_nil {segments : List String} (h : ∀ segment ∈ segments, IsName segment) (start : Nat) :
    (segments.zipIdx start).filter (fun segment => isPosition segment.1) = [] := by
  rw [List.filter_eq_nil_iff]
  intro segment hmem hposition
  rw [(h segment.1 (List.fst_mem_of_mem_zipIdx hmem)).2] at hposition
  cases hposition

/-- Segments go on along others if they are among these in their order, with as many positions 0 and wildcards between them as there may
be. -/
def GoesOn (segments more : List String) : Prop := (segments.filter fun s => s ≠ "0" ∧ s ≠ wildcard).Sublist more

namespace GoesOn

variable {segments segments' more more' : List String}

theorem refl (segments : List String) : GoesOn segments segments := List.filter_sublist

theorem nil (more : List String) : GoesOn [] more := List.nil_sublist more

theorem cons (h : GoesOn segments more) (segment : String) : GoesOn segments (segment :: more) := List.Sublist.cons segment h

theorem append (h : GoesOn segments more) (h' : GoesOn segments' more') : GoesOn (segments ++ segments') (more ++ more') := by
  rw [GoesOn, List.filter_append]
  exact List.Sublist.append h h'

/-- Positions 0 and wildcards do not matter. -/
theorem append_left (h : GoesOn segments more) (start : List String) (hstart : ∀ s ∈ start, s = "0" ∨ s = wildcard) :
    GoesOn (start ++ segments) more := by
  have hnone : (start.filter fun s => s ≠ "0" ∧ s ≠ wildcard) = [] := by
    rw [List.filter_eq_nil_iff]
    intro s hs
    rcases hstart s hs with rfl | rfl <;> decide
  rw [GoesOn, List.filter_append, hnone]
  exact h

/-- Segments that are some of others but for positions 0 go on where these do. -/
theorem of_sublist (hsub : (segments.filter (· ≠ "0")).Sublist segments') (h : GoesOn segments' more) : GoesOn segments more := by
  have htwice : segments.filter (fun s => s ≠ "0" ∧ s ≠ wildcard) =
      (segments.filter (· ≠ "0")).filter fun s => s ≠ "0" ∧ s ≠ wildcard := by
    rw [List.filter_filter]
    refine List.filter_congr fun s _ => ?_
    by_cases hzero : s = "0" <;> simp [hzero]
  rw [GoesOn, htwice]
  exact (hsub.filter _).trans h

/-- Each segment is one of those that it goes on along, or a position 0 or a wildcard. -/
theorem mem (h : GoesOn segments more) {s : String} (hs : s ∈ segments) : s = "0" ∨ s = wildcard ∨ s ∈ more := by
  by_cases hname : s ≠ "0" ∧ s ≠ wildcard
  · exact Or.inr (Or.inr (List.Sublist.subset h (List.mem_filter.2 ⟨hs, decide_eq_true hname⟩)))
  · by_cases hzero : s = "0"
    · exact Or.inl hzero
    · exact Or.inr (Or.inl (by_contra fun hwildcard => hname ⟨hzero, hwildcard⟩))

end GoesOn

/-- A path advances at the place of its position along the direction. -/
theorem advance?_of_place? {p : Path} {direction : Direction} {place n step : Nat} (hplace : p.place? direction = some place)
    (hsegment : p.segments[place]? = some (Value.position n)) (h : n + step ≤ lastPosition) :
    p.advance? direction step = some ⟨p.segments.set place (Value.position (n + step))⟩ :=
  advance?_eq_some_iff.2 ⟨place, n, hplace, position?_of_place? hplace hsegment (by omega), h, rfl⟩

end Path

/-! ## Paths with wildcards -/

/-- The path of a value that repeats with the elements of a list. -/
structure ListPath where
  /-- The segments that name the list. -/
  list : List String
  /-- The segments that name the value in an element; none where the elements are lists and each of their elements is a value. -/
  field : Option (List String)
  list_named : ∀ segment ∈ list, Path.IsName segment
  field_named : ∀ segment ∈ field.getD [], Path.IsName segment
  /-- The path can stand in a marker. -/
  admitted : Marker.admits ⟨list ++ Path.wildcard :: field.getD [Path.wildcard]⟩ = true

namespace ListPath

/-- The path with its wildcards. -/
def path (l : ListPath) : Path := ⟨l.list ++ Path.wildcard :: l.field.getD [Path.wildcard]⟩

/-- The path of the value in row `i` and column `j`. -/
def key (l : ListPath) (i j : Nat) : Path := ⟨l.list ++ Value.position i :: l.field.getD [Value.position j]⟩

variable (l : ListPath)

theorem admits_path : Marker.admits l.path = true := l.admitted

theorem list_ne_nil : l.list ≠ [] := by
  intro hnil
  obtain ⟨⟨first, rest, c, hsegments, hfirst, hc⟩, -⟩ := Marker.admits_iff.1 l.admitted
  rw [hnil, List.nil_append] at hsegments
  obtain ⟨rfl, -⟩ := List.cons.inj hsegments
  exact (Marker.not_isPosition_of_head? hfirst hc).1 rfl

theorem key_ne_nil (i j : Nat) : (l.key i j).segments ≠ [] := by simp [key]

/-- A path with positions can stand in a marker. -/
theorem admits_key (i j : Nat) : Marker.admits (l.key i j) = true := by
  obtain ⟨⟨first, rest, c, hsegments, hfirst, hc⟩, hall⟩ := Marker.admits_iff.1 l.admitted
  refine Marker.admits_iff.2 ⟨?_, ?_⟩
  · cases hlist : l.list with
    | nil => exact absurd hlist l.list_ne_nil
    | cons name names =>
      rw [hlist, List.cons_append] at hsegments
      obtain ⟨rfl, -⟩ := List.cons.inj hsegments
      exact ⟨name, _, c, by rw [key, hlist, List.cons_append], hfirst, hc⟩
  · intro segment hmem
    rw [key, List.mem_append, List.mem_cons] at hmem
    rcases hmem with hmem | rfl | hmem
    · exact hall segment (List.mem_append_left _ hmem)
    · exact Marker.isSegment_digits i
    · cases hfield : l.field with
      | none =>
        rw [hfield, Option.getD_none, List.mem_singleton] at hmem
        subst hmem
        exact Marker.isSegment_digits j
      | some field =>
        rw [hfield] at hmem hall
        exact hall segment (List.mem_append_right _ (List.mem_cons_of_mem _ hmem))

/-- No segment holds a dot. -/
theorem dot_not_mem_key (i j : Nat) : ∀ segment ∈ (l.key i j).segments, '.' ∉ segment.toList := by
  intro segment hmem hdot
  exact (Marker.isPathChar_of_isSegment ((Marker.admits_iff.1 (l.admits_key i j)).2 segment hmem) hdot).2 rfl

/-- The first row and column have position 0 in place of the wildcards. -/
theorem grounded_path : l.path.grounded = l.key 0 0 := by
  have hnames : ∀ segments : List String, (∀ segment ∈ segments, Path.IsName segment) →
      segments.map (fun s => if s = Path.wildcard then "0" else s) = segments := by
    intro segments h
    refine (List.map_congr_left fun segment hmem => ?_).trans (List.map_id _)
    rw [if_neg (h segment hmem).1, id]
  rw [Path.grounded, path, key, List.map_append, List.map_cons, hnames _ l.list_named, if_pos rfl, Path.position_zero]
  have hfield := l.field_named
  cases hsome : l.field with
  | none => rfl
  | some field =>
    rw [hsome] at hfield
    rw [Option.getD_some, Option.getD_some, hnames field hfield]

/-- The first row and column have wildcards again when positions are generalized. -/
theorem generalized_key : (l.key 0 0).generalized = l.path := by
  have hnames : ∀ segments : List String, (∀ segment ∈ segments, Path.IsName segment) →
      segments.map (fun s => if s = "0" then Path.wildcard else s) = segments := by
    intro segments h
    refine (List.map_congr_left fun segment hmem => ?_).trans (List.map_id _)
    rw [if_neg (h segment hmem).ne_zero, id]
  cases hlist : l.list with
  | nil => exact absurd hlist l.list_ne_nil
  | cons name names =>
    have hnamed := l.list_named
    rw [hlist] at hnamed
    have hfield := l.field_named
    simp only [Path.generalized, key, path, hlist, List.cons_append, List.map_append, List.map_cons, Path.position_zero, if_true,
      hnames names fun s hs => hnamed s (List.mem_cons_of_mem _ hs)]
    cases hsome : l.field with
    | none => simp
    | some field =>
      rw [hsome] at hfield
      rw [Option.getD_some, Option.getD_some, hnames field hfield]

/-! ## Advancing -/

/-- A position for the element, and another one where its elements are values. -/
theorem positionPlaces_key (i j : Nat) :
    (l.key i j).positionPlaces = l.list.length :: l.field.elim [l.list.length + 1] fun _ => [] := by
  have hfield := l.field_named
  rw [Path.positionPlaces, key, List.zipIdx_append, List.filter_append, Path.filter_zipIdx_eq_nil l.list_named, List.nil_append,
    List.zipIdx_cons, List.filter_cons, if_pos (Path.isPosition_position i), Nat.zero_add]
  cases hsome : l.field with
  | none => simp [Path.isPosition_position j]
  | some field =>
    rw [hsome, Option.getD_some] at hfield
    rw [Option.getD_some, Path.filter_zipIdx_eq_nil hfield]
    rfl

/-- Some rows further down. -/
theorem advance?_down {i step : Nat} (j : Nat) (h : i + step ≤ Path.lastPosition) :
    (l.key i j).advance? .down step = some (l.key (i + step) j) := by
  have hplace : (l.key i j).place? .down = some l.list.length := by
    rw [Path.place?, positionPlaces_key]
    rfl
  have hsegment : (l.key i j).segments[l.list.length]? = some (Value.position i) := by simp [key]
  rw [Path.advance?_of_place? hplace hsegment h, key, key, List.set_append_right _ _ (Nat.le_refl _), Nat.sub_self,
    List.set_cons_zero]

/-- Some columns further to the right, where the elements of an element are values. -/
theorem advance?_across (i : Nat) {j step : Nat} (hfield : l.field = none) (h : j + step ≤ Path.lastPosition) :
    (l.key i j).advance? .across step = some (l.key i (j + step)) := by
  have hplace : (l.key i j).place? .across = some (l.list.length + 1) := by
    rw [Path.place?, positionPlaces_key, hfield]
    rfl
  have hsegment : (l.key i j).segments[l.list.length + 1]? = some (Value.position j) := by simp [key, hfield]
  rw [Path.advance?_of_place? hplace hsegment h, key, key, hfield, List.set_append_right _ _ (Nat.le_succ _),
    Nat.succ_sub (Nat.le_refl _), Nat.sub_self, List.set_cons_succ]
  rfl

/-- With a field no column follows. -/
theorem advance?_across_of_field (i j step : Nat) {field : List String} (hfield : l.field = some field) :
    (l.key i j).advance? .across step = none := by
  have hplace : (l.key i j).place? .across = none := by
    rw [Path.place?, positionPlaces_key, hfield]
    rfl
  rw [Path.advance?, hplace]
  rfl

end ListPath

/-! ## Lists that supply values -/

namespace ListPath

variable (l : ListPath) {payload : Value} {rows columns : Nat}

/-- Whether the payload has a value for row `i` and column `j`. -/
def HasLeaf (payload : Value) (i j : Nat) : Prop := ∃ v, Value.At payload (l.key i j).segments v ∧ v.isLeaf = true

/-- A payload with a list at the path of which `rows` elements have a value in the first column before the first gap. Where the elements
are lists themselves, the first one has `columns` values before the first gap. -/
structure Supplied (payload : Value) (rows columns : Nat) : Prop where
  plain_keys : payload.HasPlainKeys
  is_list : ∃ items, Value.At payload l.list (.list items)
  one_le : 1 ≤ rows
  first_column : ∀ i < rows, l.HasLeaf payload i 0
  last_row : ¬l.HasLeaf payload rows 0
  first_row : ∀ j < columns, l.HasLeaf payload 0 j
  last_column : if l.field.isSome then columns = 1 else ¬l.HasLeaf payload 0 columns
  /-- No map on the way has a leaf at or below a key `0` to which the rest of the way goes on, as the descent into first elements would
  take it. -/
  no_zero : ∀ front next more rest w, (l.key 0 0).segments = front ++ next :: more → front ≠ [] → next ≠ "0" →
    Path.GoesOn rest (next :: more) → Value.At payload (front ++ "0" :: rest) w → w.isLeaf = false
  /-- The first element has no leaf at or below a key `*` to which the field goes on, as the key would be taken for the wildcard. -/
  no_wildcard : ∀ field rest w, l.field = some field → Path.GoesOn rest field →
    Value.At payload (l.list ++ "0" :: Path.wildcard :: rest) w → w.isLeaf = false

variable {l}

theorem get?_key_iff (h : payload.HasPlainKeys) {i j : Nat} {v : Value} :
    (Leaves.ofValue payload).get? (l.key i j).text = some v ↔ Value.At payload (l.key i j).segments v ∧ v.isLeaf = true :=
  Leaves.get?_ofValue_iff h (l.key_ne_nil i j) (l.dot_not_mem_key i j)

theorem contains_key_iff (h : payload.HasPlainKeys) {i j : Nat} :
    (Leaves.ofValue payload).contains (l.key i j).text = true ↔ l.HasLeaf payload i j :=
  Leaves.contains_ofValue_iff h (l.key_ne_nil i j) (l.dot_not_mem_key i j)

/-- A row with a value is one of the list. -/
theorem lt_length_of_hasLeaf (h : payload.HasPlainKeys) {items : List Value} (hlist : Value.At payload l.list (.list items))
    {i j : Nat} (hleaf : l.HasLeaf payload i j) : i < items.length := by
  obtain ⟨v, hat, -⟩ := hleaf
  obtain ⟨w, hw, hbelow⟩ := hat.exists_of_append
  obtain rfl := h.at_unique hw hlist
  generalize hsegments : Value.position i :: l.field.getD [Value.position j] = segments at hbelow
  cases hbelow with
  | here => cases hsegments
  | @item _ i' _ _ _ hget _ =>
    injection hsegments with hposition _
    obtain rfl := Value.position_injective hposition
    exact (List.getElem?_eq_some_iff.1 hget).1

/-- There are as many rows as the list has elements exactly if each element has a value in the first column. -/
theorem Supplied.rows_eq_length_iff (hs : l.Supplied payload rows columns) {items : List Value}
    (hlist : Value.At payload l.list (.list items)) : rows = items.length ↔ ∀ i < items.length, l.HasLeaf payload i 0 := by
  constructor
  · rintro rfl
    exact hs.first_column
  · intro hall
    have hle : items.length ≤ rows := by
      by_contra hlt
      exact hs.last_row (hall rows (by omega))
    have hlt := lt_length_of_hasLeaf hs.plain_keys hlist (hs.first_column (rows - 1) (by have := hs.one_le; omega))
    omega

/-- There is at least one column. -/
theorem Supplied.one_le_columns (hs : l.Supplied payload rows columns) : 1 ≤ columns := by
  have hlast := hs.last_column
  split at hlast
  · omega
  · rcases Nat.eq_zero_or_pos columns with rfl | hpos
    · exact absurd (hs.first_column 0 hs.one_le) hlast
    · exact hpos

/-- Below the first row follow as many as further elements have values, up to the first gap. -/
theorem Supplied.siblings_down (hs : l.Supplied payload rows columns) (hrows : rows ≤ Path.lastPosition) :
    (Leaves.ofValue payload).siblings .down (l.key 0 0) = rows - 1 := by
  have hadvance : ∀ step, step ≤ rows → (l.key 0 0).advance? .down step = some (l.key step 0) := by
    intro step hstep
    rw [l.advance?_down 0 (by omega), Nat.zero_add]
  have hone := hs.one_le
  refine Leaves.siblings_eq ⟨?_, ?_⟩
  · intro step _ hstep
    exact ⟨_, hadvance step (by omega), (contains_key_iff hs.plain_keys).2 (hs.first_column step (by omega))⟩
  · intro next hnext
    rw [hadvance _ (by omega), Option.some.injEq] at hnext
    subst hnext
    rw [Bool.eq_false_iff, ne_eq, contains_key_iff hs.plain_keys, Nat.sub_add_cancel hone]
    exact hs.last_row

/-- Beside the first column follow as many as the first row has further values, up to the first gap. -/
theorem Supplied.siblings_across (hs : l.Supplied payload rows columns) (hcolumns : columns ≤ Path.lastPosition) :
    (Leaves.ofValue payload).siblings .across (l.key 0 0) = columns - 1 := by
  have hone := hs.one_le_columns
  have hlast := hs.last_column
  cases hfield : l.field with
  | some field =>
    rw [hfield, Option.isSome_some, if_pos rfl] at hlast
    refine Leaves.siblings_eq ⟨?_, ?_⟩
    · intro step _ hstep
      omega
    · intro next hnext
      rw [l.advance?_across_of_field 0 0 _ hfield] at hnext
      cases hnext
  | none =>
    rw [hfield, Option.isSome_none, if_neg Bool.false_ne_true] at hlast
    have hadvance : ∀ step, step ≤ columns → (l.key 0 0).advance? .across step = some (l.key 0 step) := by
      intro step hstep
      rw [l.advance?_across 0 hfield (by omega), Nat.zero_add]
    refine Leaves.siblings_eq ⟨?_, ?_⟩
    · intro step _ hstep
      exact ⟨_, hadvance step (by omega), (contains_key_iff hs.plain_keys).2 (hs.first_row step (by omega))⟩
    · intro next hnext
      rw [hadvance _ (by omega), Option.some.injEq] at hnext
      subst hnext
      rw [Bool.eq_false_iff, ne_eq, contains_key_iff hs.plain_keys, Nat.sub_add_cancel hone]
      exact hlast

end ListPath
end SheetTemplate

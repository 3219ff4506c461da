/-!
# Sorted maps

A finite map as the list of its entries in strictly increasing order of keys. The list is determined by the contents
(`SortedMap.ext_get?`): two maps that answer every look-up alike are equal, and every walk over a map meets its keys in order.
-/

namespace SheetTemplate

/-- A finite map from `κ` to `ν`, its entries in strictly increasing order of keys. -/
structure SortedMap (κ : Type) (ν : Type) [Ord κ] where
  entries : List (κ × ν)
  sorted : entries.Pairwise fun a b => compare a.1 b.1 = .lt

namespace SortedMap

variable {κ ν : Type} [Ord κ]

instance [DecidableEq κ] [DecidableEq ν] : DecidableEq (SortedMap κ ν) := fun a b =>
  if h : a.entries = b.entries then
    isTrue (by cases a; cases b; cases h; rfl)
  else
    isFalse fun e => h (e ▸ rfl)

/-- The map without entries. -/
def empty : SortedMap κ ν := ⟨[], .nil⟩

instance : EmptyCollection (SortedMap κ ν) := ⟨empty⟩

instance : Inhabited (SortedMap κ ν) := ⟨empty⟩

/-- The value at a key. -/
def get? (m : SortedMap κ ν) (k : κ) : Option ν :=
  (m.entries.find? fun e => compare k e.1 == .eq).map (·.2)

/-- Whether the map has an entry for the key. -/
def contains (m : SortedMap κ ν) (k : κ) : Bool :=
  (m.get? k).isSome

/-- The keys in increasing order. -/
def keys (m : SortedMap κ ν) : List κ := m.entries.map (·.1)

/-- The values in increasing order of their keys. -/
def values (m : SortedMap κ ν) : List ν := m.entries.map (·.2)

/-- The number of entries. -/
def size (m : SortedMap κ ν) : Nat := m.entries.length

def isEmpty (m : SortedMap κ ν) : Bool := m.entries.isEmpty

/-- The same keys with every value replaced, given its key. -/
def mapValues {μ : Type} (f : κ → ν → μ) (m : SortedMap κ ν) : SortedMap κ μ :=
  ⟨m.entries.map fun e => (e.1, f e.1 e.2), List.pairwise_map.2 m.sorted⟩

/-- The entries that pass a test. -/
def filter (p : κ → ν → Bool) (m : SortedMap κ ν) : SortedMap κ ν :=
  ⟨m.entries.filter fun e => p e.1 e.2, m.sorted.filter _⟩

/-! ## Insertion -/

/-- Puts a value at its place in a sorted list of entries, in place of an entry with the same key. -/
def insertEntry (k : κ) (v : ν) : List (κ × ν) → List (κ × ν)
  | [] => [(k, v)]
  | e :: rest =>
    match compare k e.1 with
    | .lt => (k, v) :: e :: rest
    | .eq => (k, v) :: rest
    | .gt => e :: insertEntry k v rest

theorem mem_insertEntry {k : κ} {v : ν} {entries : List (κ × ν)} {x : κ × ν} (h : x ∈ insertEntry k v entries) :
    x = (k, v) ∨ x ∈ entries := by
  induction entries with
  | nil => exact Or.inl (by simpa [insertEntry] using h)
  | cons e rest ih =>
    simp only [insertEntry] at h
    split at h <;> simp only [List.mem_cons] at h ⊢ <;> grind

variable [Std.TransOrd κ]

theorem pairwise_insertEntry (k : κ) (v : ν) {entries : List (κ × ν)}
    (h : entries.Pairwise fun a b => compare a.1 b.1 = .lt) :
    (insertEntry k v entries).Pairwise fun a b => compare a.1 b.1 = .lt := by
  induction entries with
  | nil => exact List.pairwise_singleton _ _
  | cons e rest ih =>
    have hr : ∀ x ∈ rest, compare e.1 x.1 = .lt := (List.pairwise_cons.1 h).1
    simp only [insertEntry]
    split <;> rename_i hk
    · refine List.pairwise_cons.2 ⟨fun x hx => ?_, h⟩
      rcases List.mem_cons.1 hx with rfl | hx
      · exact hk
      · exact Std.TransCmp.lt_trans hk (hr x hx)
    · exact List.pairwise_cons.2 ⟨fun x hx => Std.TransCmp.lt_of_eq_of_lt hk (hr x hx), h.of_cons⟩
    · refine List.pairwise_cons.2 ⟨fun x hx => ?_, ih h.of_cons⟩
      rcases mem_insertEntry hx with rfl | hx
      · exact Std.OrientedCmp.gt_iff_lt.1 hk
      · exact hr x hx

/-- The map with a value put at a key, in place of an earlier one. -/
def insert (m : SortedMap κ ν) (k : κ) (v : ν) : SortedMap κ ν :=
  ⟨insertEntry k v m.entries, pairwise_insertEntry k v m.sorted⟩

/-- The map of a list of entries; of two entries with one key the later counts. -/
def ofList (entries : List (κ × ν)) : SortedMap κ ν :=
  entries.foldl (fun m e => m.insert e.1 e.2) ∅

/-! ## Look-ups -/

omit [Std.TransOrd κ] in
@[simp] theorem get?_empty (k : κ) : (∅ : SortedMap κ ν).get? k = none := rfl

theorem get?_insert (m : SortedMap κ ν) (k a : κ) (v : ν) :
    (m.insert k v).get? a = if compare a k = .eq then some v else m.get? a := by
  obtain ⟨entries, hs⟩ := m
  simp only [get?, insert]
  induction entries with
  | nil => by_cases h : compare a k = .eq <;> simp [insertEntry, h]
  | cons e rest ih =>
    simp only [insertEntry]
    split <;> rename_i hk
    · by_cases h : compare a k = .eq <;> simp [h]
    · by_cases h : compare a k = .eq
      · simp [h]
      · have he : compare a e.1 ≠ .eq := fun he =>
          h (Std.TransCmp.eq_trans he (Std.OrientedCmp.eq_symm hk))
        simp [h, he]
    · have ih' := ih hs.of_cons
      by_cases h : compare a e.1 = .eq
      · have : compare a k ≠ .eq := fun h' => by
          have := Std.TransCmp.eq_trans (Std.OrientedCmp.eq_symm h') h
          rw [this] at hk
          cases hk
        simp [h, this]
      · simp only [List.find?_cons, beq_eq_false_iff_ne.2 h]
        exact ih'

omit [Std.TransOrd κ] in
theorem isEmpty_mapValues {μ : Type} (f : κ → ν → μ) (m : SortedMap κ ν) : (m.mapValues f).isEmpty = m.isEmpty := by
  simp [isEmpty, mapValues]

omit [Std.TransOrd κ] in
theorem get?_of_isEmpty {m : SortedMap κ ν} (h : m.isEmpty = true) (k : κ) : m.get? k = none := by
  have hentries : m.entries = [] := List.isEmpty_iff.1 h
  rw [get?, hentries]
  rfl

omit [Std.TransOrd κ] in
theorem get?_mapValues {μ : Type} (f : κ → ν → μ) [Std.LawfulEqOrd κ] (m : SortedMap κ ν) (k : κ) :
    (m.mapValues f).get? k = (m.get? k).map (f k) := by
  obtain ⟨entries, hs⟩ := m
  simp only [get?, mapValues]
  induction entries with
  | nil => rfl
  | cons e rest ih =>
    have ih' := ih hs.of_cons
    by_cases h : compare k e.1 = .eq
    · have := Std.LawfulEqOrd.eq_of_compare h
      simp [this]
    · simp only [List.map_cons, List.find?_cons, beq_eq_false_iff_ne.2 h]
      exact ih'

/-- Values put in at other keys do not matter. -/
theorem get?_foldl_insert_of_not_mem [Std.LawfulEqOrd κ] {α : Type} (key : α → κ) (value : α → ν) {l : List α}
    (m : SortedMap κ ν) {k : κ} (h : ∀ a ∈ l, key a ≠ k) :
    (l.foldl (fun m a => m.insert (key a) (value a)) m).get? k = m.get? k := by
  induction l generalizing m with
  | nil => rfl
  | cons a l ih =>
    rw [List.foldl_cons, ih _ fun b hb => h b (List.mem_cons_of_mem a hb), get?_insert, if_neg]
    exact fun hk => h a List.mem_cons_self (Std.LawfulEqOrd.eq_of_compare hk).symm

/-- Of values put in one after the other those at a key decide over it, if they agree. -/
theorem get?_foldl_insert [Std.LawfulEqOrd κ] {α : Type} (key : α → κ) (value : α → ν) {l : List α} (m : SortedMap κ ν) {k : κ}
    {v : ν} (h : ∀ a ∈ l, key a = k → value a = v) (hmem : ∃ a ∈ l, key a = k) :
    (l.foldl (fun m a => m.insert (key a) (value a)) m).get? k = some v := by
  induction l generalizing m with
  | nil =>
    obtain ⟨a, ha, -⟩ := hmem
    cases ha
  | cons a l ih =>
    rw [List.foldl_cons]
    by_cases hl : ∃ b ∈ l, key b = k
    · exact ih _ (fun b hb => h b (List.mem_cons_of_mem a hb)) hl
    · obtain ⟨b, hb, hkey⟩ := hmem
      rcases List.mem_cons.1 hb with rfl | hb
      · rw [get?_foldl_insert_of_not_mem _ _ _ fun c hc hk => hl ⟨c, hc, hk⟩, get?_insert, if_pos]
        · rw [h b List.mem_cons_self hkey]
        · rw [hkey]
          exact Std.ReflCmp.compare_self
      · exact absurd ⟨b, hb, hkey⟩ hl

/-- What a key is answered with was put in for it, or was there before. -/
theorem mem_of_get?_foldl_insert [Std.LawfulEqOrd κ] {l : List (κ × ν)} {m : SortedMap κ ν} {k : κ} {v : ν}
    (h : (l.foldl (fun m e => m.insert e.1 e.2) m).get? k = some v) : (k, v) ∈ l ∨ m.get? k = some v := by
  induction l generalizing m with
  | nil => exact Or.inr h
  | cons e rest ih =>
    rcases ih h with hmem | hget
    · exact Or.inl (List.mem_cons_of_mem _ hmem)
    · rw [get?_insert] at hget
      split at hget
      · rename_i hk
        cases hget
        rw [Std.LawfulEqOrd.eq_of_compare hk]
        exact Or.inl List.mem_cons_self
      · exact Or.inr hget

/-- A map of a list of entries answers the keys of these entries. -/
theorem exists_get?_ofList_iff [Std.LawfulEqOrd κ] {entries : List (κ × ν)} {k : κ} :
    (∃ v, (ofList entries).get? k = some v) ↔ ∃ e ∈ entries, e.1 = k := by
  have hfold : ∀ m : SortedMap κ ν, (∃ v, (entries.foldl (fun m e => m.insert e.1 e.2) m).get? k = some v) ↔
      (∃ e ∈ entries, e.1 = k) ∨ ∃ v, m.get? k = some v := by
    induction entries with
    | nil => simp
    | cons e rest ih =>
      intro m
      rw [List.foldl_cons, ih]
      simp only [get?_insert, Std.LawfulEqOrd.compare_eq_iff_eq, List.mem_cons, exists_eq_or_imp]
      by_cases h : k = e.1
      · simp [h]
      · simp [h, Ne.symm h]
  refine (hfold ∅).trans (or_iff_left ?_)
  rintro ⟨v, hv⟩
  cases hv

/-- Of several values put in for a key the last is the answer. -/
theorem get?_ofList_of_last [Std.LawfulEqOrd κ] {front back : List (κ × ν)} {k : κ} {v : ν} (h : ∀ e ∈ back, e.1 ≠ k) :
    (ofList (front ++ (k, v) :: back)).get? k = some v := by
  rw [ofList, List.foldl_append, List.foldl_cons, get?_foldl_insert_of_not_mem Prod.fst Prod.snd _ h, get?_insert,
    if_pos Std.ReflCmp.compare_self]

omit [Std.TransOrd κ] in
/-- An entry is what the map answers for its key. -/
theorem get?_eq_some_iff [Std.LawfulEqOrd κ] (m : SortedMap κ ν) (k : κ) (v : ν) :
    m.get? k = some v ↔ (k, v) ∈ m.entries := by
  obtain ⟨entries, hs⟩ := m
  simp only [get?]
  induction entries with
  | nil => simp
  | cons e rest ih =>
    have ih' := ih hs.of_cons
    have hr : ∀ x ∈ rest, compare e.1 x.1 = .lt := (List.pairwise_cons.1 hs).1
    by_cases h : compare k e.1 = .eq
    · obtain rfl := Std.LawfulEqOrd.eq_of_compare h
      have hn : (e.1, v) ∉ rest := fun hm => by
        have hlt := hr _ hm
        rw [h] at hlt
        cases hlt
      simp only [List.find?_cons, h, beq_self_eq_true, Option.map_some, Option.some.injEq, List.mem_cons, hn, or_false]
      exact ⟨fun hv => by rw [← hv], fun hv => by rw [← hv]⟩
    · have hne : (k, v) ≠ e := fun he => h (by rw [← he]; exact Std.ReflCmp.compare_self)
      simp only [List.find?_cons, beq_eq_false_iff_ne.2 h, List.mem_cons, hne, false_or]
      exact ih'

/-- A list with one value for each key has the entries of its map. -/
theorem mem_entries_ofList [Std.LawfulEqOrd κ] {l : List (κ × ν)} (h : ∀ a ∈ l, ∀ b ∈ l, a.1 = b.1 → a.2 = b.2) (e : κ × ν) :
    e ∈ (ofList l).entries ↔ e ∈ l := by
  obtain ⟨k, v⟩ := e
  rw [← get?_eq_some_iff]
  constructor
  · intro hget
    exact (mem_of_get?_foldl_insert hget).resolve_right nofun
  · intro hmem
    exact get?_foldl_insert Prod.fst Prod.snd ∅ (fun a ha hk => h a ha (k, v) hmem hk) ⟨(k, v), hmem, rfl⟩

omit [Std.TransOrd κ] in
theorem get?_filter [Std.LawfulEqOrd κ] (p : κ → ν → Bool) (m : SortedMap κ ν) (k : κ) :
    (m.filter p).get? k = (m.get? k).filter (p k) := by
  ext v
  rw [get?_eq_some_iff, Option.filter_eq_some_iff, get?_eq_some_iff, filter, List.mem_filter]

omit [Std.TransOrd κ] in
/-- The keys of a map are those for which it has an answer. -/
theorem mem_keys_iff [Std.LawfulEqOrd κ] (m : SortedMap κ ν) (k : κ) : k ∈ m.keys ↔ ∃ v, m.get? k = some v := by
  simp only [keys, List.mem_map, get?_eq_some_iff]
  constructor
  · rintro ⟨e, he, rfl⟩
    exact ⟨e.2, he⟩
  · rintro ⟨v, hv⟩
    exact ⟨(k, v), hv, rfl⟩

/-- Sorted lists with the same members are equal. -/
theorem eq_of_mem_iff {a b : List (κ × ν)} (ha : a.Pairwise fun x y => compare x.1 y.1 = .lt)
    (hb : b.Pairwise fun x y => compare x.1 y.1 = .lt) (h : ∀ x, x ∈ a ↔ x ∈ b) : a = b := by
  have irrefl : ∀ x : κ × ν, compare x.1 x.1 ≠ .lt := fun x hx => by
    have := Std.OrientedCmp.gt_iff_lt.2 hx
    rw [hx] at this
    cases this
  induction a generalizing b with
  | nil =>
    cases b with
    | nil => rfl
    | cons y s => exact absurd ((h y).2 (by simp)) (by simp)
  | cons x r ih =>
    cases b with
    | nil => exact absurd ((h x).1 (by simp)) (by simp)
    | cons y s =>
      have hxr := (List.pairwise_cons.1 ha).1
      have hys := (List.pairwise_cons.1 hb).1
      have hxy : x = y := by
        rcases List.mem_cons.1 ((h x).1 (by simp)) with hx | hx
        · exact hx
        · rcases List.mem_cons.1 ((h y).2 (by simp)) with hy | hy
          · exact hy.symm
          · exact absurd (Std.TransCmp.lt_trans (hys x hx) (hxr y hy)) (irrefl y)
      subst hxy
      have hrs : ∀ z, z ∈ r ↔ z ∈ s := fun z => by
        constructor <;> intro hz
        · rcases List.mem_cons.1 ((h z).1 (by simp [hz])) with rfl | hz'
          · exact absurd (hxr z hz) (irrefl z)
          · exact hz'
        · rcases List.mem_cons.1 ((h z).2 (by simp [hz])) with rfl | hz'
          · exact absurd (hys z hz) (irrefl z)
          · exact hz'
      rw [ih ha.of_cons hb.of_cons hrs]

/-- Two maps that answer every look-up alike are equal. -/
theorem ext_get? [Std.LawfulEqOrd κ] {a b : SortedMap κ ν} (h : ∀ k, a.get? k = b.get? k) : a = b := by
  have hm : ∀ x : κ × ν, x ∈ a.entries ↔ x ∈ b.entries := fun x => by
    rw [← get?_eq_some_iff a x.1 x.2, ← get?_eq_some_iff b x.1 x.2, h]
  have he : a.entries = b.entries := eq_of_mem_iff a.sorted b.sorted hm
  cases a
  cases b
  cases he
  rfl

/-! ## Replaced values -/

omit [Std.TransOrd κ] in
theorem keys_mapValues {μ : Type} (f : κ → ν → μ) (m : SortedMap κ ν) : (m.mapValues f).keys = m.keys := by
  simp [keys, mapValues, List.map_map, Function.comp_def]

omit [Std.TransOrd κ] in
theorem mapValues_id (m : SortedMap κ ν) : m.mapValues (fun _ v => v) = m := by
  simp [mapValues]

omit [Std.TransOrd κ] in
theorem mapValues_mapValues {μ ξ : Type} (f : κ → ν → μ) (g : κ → μ → ξ) (m : SortedMap κ ν) :
    (m.mapValues f).mapValues g = m.mapValues fun k v => g k (f k v) := by
  simp [mapValues, List.map_map, Function.comp_def]

/-- Values are replaced alike before and after one is put in. -/
theorem mapValues_insert {μ : Type} [Std.LawfulEqOrd κ] (f : κ → ν → μ) (m : SortedMap κ ν) (k : κ) (v : ν) :
    (m.insert k v).mapValues f = (m.mapValues f).insert k (f k v) := by
  apply ext_get?
  intro a
  rw [get?_mapValues, get?_insert, get?_insert, get?_mapValues]
  by_cases h : compare a k = .eq
  · rw [if_pos h, if_pos h, Std.LawfulEqOrd.eq_of_compare h, Option.map_some]
  · rw [if_neg h, if_neg h]

/-- Values are replaced alike before and after a selection that they do not change. -/
theorem filter_mapValues [Std.LawfulEqOrd κ] {f : κ → ν → ν} {p : κ → ν → Bool} {m : SortedMap κ ν}
    (h : ∀ k v, m.get? k = some v → p k (f k v) = p k v) : (m.mapValues f).filter p = (m.filter p).mapValues f := by
  apply ext_get?
  intro k
  rw [get?_filter, get?_mapValues, get?_mapValues, get?_filter]
  cases hv : m.get? k with
  | none => rfl
  | some v =>
    rw [Option.map_some, Option.filter_some, Option.filter_some, h k v hv]
    split <;> rfl

/-- Values are replaced alike before and after they are put together. -/
theorem mapValues_ofList {μ : Type} [Std.LawfulEqOrd κ] (f : κ → ν → μ) (entries : List (κ × ν)) :
    (ofList entries).mapValues f = ofList (entries.map fun e => (e.1, f e.1 e.2)) := by
  have hfold : ∀ m : SortedMap κ ν, (entries.foldl (fun m e => m.insert e.1 e.2) m).mapValues f =
      (entries.map fun e => (e.1, f e.1 e.2)).foldl (fun m e => m.insert e.1 e.2) (m.mapValues f) := by
    induction entries with
    | nil => exact fun _ => rfl
    | cons e rest ih =>
      intro m
      rw [List.foldl_cons, ih, mapValues_insert, List.map_cons, List.foldl_cons]
  exact hfold ∅

end SortedMap

/-! ## Sorted sets -/

/-- A finite set as a sorted map without values. -/
abbrev SortedSet (κ : Type) [Ord κ] : Type := SortedMap κ Unit

namespace SortedSet

variable {κ : Type} [Ord κ] [Std.TransOrd κ]

/-- The set with one more member. -/
def add (s : SortedSet κ) (k : κ) : SortedSet κ := s.insert k ()

/-- The set of the members of a list. -/
def ofMembers (members : List κ) : SortedSet κ := members.foldl add ∅

variable [Std.LawfulEqOrd κ]

theorem mem_keys_add (s : SortedSet κ) (k a : κ) : a ∈ (add s k).keys ↔ a = k ∨ a ∈ s.keys := by
  simp only [SortedMap.mem_keys_iff, add, SortedMap.get?_insert, Std.LawfulEqOrd.compare_eq_iff_eq]
  by_cases h : a = k
  · simp [h]
  · simp [h]

theorem mem_keys_foldl_add (members : List κ) (s : SortedSet κ) (a : κ) :
    a ∈ (members.foldl add s).keys ↔ a ∈ members ∨ a ∈ s.keys := by
  induction members generalizing s with
  | nil => simp only [List.foldl_nil, List.not_mem_nil, false_or]
  | cons k rest ih =>
    rw [List.foldl_cons, ih, mem_keys_add, List.mem_cons]
    exact or_left_comm.trans or_assoc.symm

/-- A set holds the members it was made of, in order and each once. -/
theorem mem_keys_ofMembers (members : List κ) (a : κ) : a ∈ (ofMembers members).keys ↔ a ∈ members := by
  rw [ofMembers, mem_keys_foldl_add]
  exact or_iff_left List.not_mem_nil

/-- The order in which members are put in does not matter. -/
theorem ofMembers_congr {members others : List κ} (h : ∀ a, a ∈ members ↔ a ∈ others) : ofMembers members = ofMembers others := by
  apply SortedMap.ext_get?
  intro a
  apply Option.ext
  intro v
  have hmem : ∀ l : List κ, (ofMembers l).get? a = some v ↔ a ∈ l := by
    intro l
    rw [← mem_keys_ofMembers, SortedMap.mem_keys_iff]
    exact ⟨fun hv => ⟨v, hv⟩, fun ⟨_, hv⟩ => hv⟩
  rw [hmem, hmem, h]

end SortedSet
end SheetTemplate

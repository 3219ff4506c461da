import Mathlib.Algebra.GroupWithZero.Nat
import Mathlib.Data.List.Nodup
import Mathlib.Data.List.Perm.Basic
import SheetTemplate.Proofs.KeysBelow

/-!
# Each leaf and its path

A payload is walked by its children, the values one segment below a value (`Value.children`): what holds of a value as soon as it holds of
its children holds of every value (`Value.children_induction`). So the leaves that flattening lists are as many as there are in the payload
(`Leaves.length_listed`), and where keys are free of dots they are listed under different texts (`Leaves.nodup_listed`), because children
differ in their segments and the text of a path determines its segments. Then none is lost when they are held by their texts, and the text of
a path answers with what stands at the place that its segments lead to.
-/

namespace SheetTemplate

/-! ## Children -/

namespace Value

/-- The values one segment below a value, each with its segment. -/
def children : Value → List (String × Value)
  | .map fields => fields
  | .list items => items.zipIdx.map fun item => (position item.2, item.1)
  | _ => []

theorem children_of_isLeaf {v : Value} (h : v.isLeaf = true) : v.children = [] := by
  cases v with
  | list | map => cases h
  | null | bool | int | float | text | callable => rfl

theorem at_child {v : Value} {c : String × Value} (h : c ∈ v.children) : At v [c.1] c.2 := by
  cases v with
  | map fields => exact .field h (.here _)
  | list items =>
    obtain ⟨item, hitem, heq⟩ := List.mem_map.1 h
    rw [← heq]
    exact .item (List.mk_mem_zipIdx_iff_getElem?.1 hitem) (.here _)
  | null | bool | int | float | text | callable => exact absurd h List.not_mem_nil

theorem sizeOf_child_lt {v : Value} {c : String × Value} (h : c ∈ v.children) : sizeOf c.2 < sizeOf v := by
  cases v with
  | map fields =>
    have hfield : sizeOf c < sizeOf fields := List.sizeOf_lt_of_mem h
    obtain ⟨key, value⟩ := c
    simp only [Prod.mk.sizeOf_spec, map.sizeOf_spec] at hfield ⊢
    omega
  | list items =>
    obtain ⟨item, hitem, heq⟩ := List.mem_map.1 h
    have hmem : sizeOf item.1 < sizeOf items :=
      List.sizeOf_lt_of_mem (List.mem_of_getElem? (List.mk_mem_zipIdx_iff_getElem?.1 hitem))
    rw [← heq]
    simp only [list.sizeOf_spec]
    omega
  | null | bool | int | float | text | callable => exact absurd h List.not_mem_nil

/-- What holds of a value as soon as it holds of its children holds of every value. -/
@[elab_as_elim]
theorem children_induction {P : Value → Prop} (step : ∀ v, (∀ c ∈ v.children, P c.2) → P v) (v : Value) : P v :=
  step v fun c _ => children_induction step c.2
termination_by sizeOf v
decreasing_by exact sizeOf_child_lt ‹_›

/-- With plain keys children have different segments without dots, and plain keys themselves. -/
theorem HasPlainKeys.children {v : Value} (h : v.HasPlainKeys) :
    (v.children.map Prod.fst).Nodup ∧ ∀ c ∈ v.children, '.' ∉ c.1.toList ∧ c.2.HasPlainKeys := by
  constructor
  · cases v with
    | map fields => exact (h [] fields (.here _)).1
    | list items =>
      have hsegments : (Value.list items).children.map Prod.fst = (List.range' 0 items.length).map position := by
        rw [Value.children, List.map_map, ← List.zipIdx_map_snd 0 items, List.map_map]
        rfl
      rw [hsegments]
      exact (List.nodup_range' 1).map position_injective
    | null | bool | int | float | text | callable => exact List.nodup_nil
  · intro c hc
    exact ⟨h.dot_not_mem (at_child hc) c.1 List.mem_cons_self, h.below (at_child hc)⟩

mutual

/-- The number of leaves of a value; a leaf counts itself. -/
def leafCount : Value → Nat
  | .map fields => fieldsLeafCount fields
  | .list items => itemsLeafCount items
  | _ => 1

def fieldsLeafCount : List (String × Value) → Nat
  | [] => 0
  | (_, value) :: rest => value.leafCount + fieldsLeafCount rest

def itemsLeafCount : List Value → Nat
  | [] => 0
  | item :: rest => item.leafCount + itemsLeafCount rest

end

theorem leafCount_of_isLeaf {v : Value} (h : v.isLeaf = true) : v.leafCount = 1 := by
  cases v with
  | list | map => cases h
  | null | bool | int | float | text | callable => rfl

/-- A list or a map has the leaves of its children. -/
theorem leafCount_of_not_isLeaf {v : Value} (h : v.isLeaf = false) : v.leafCount = (v.children.map fun c => c.2.leafCount).sum := by
  cases v with
  | map fields =>
    rw [leafCount, children]
    clear h
    induction fields with
    | nil => rfl
    | cons field rest ih => rw [fieldsLeafCount, ih, List.map_cons, List.sum_cons]
  | list items =>
    have hcounts : (Value.list items).children.map (fun c => c.2.leafCount) = items.map leafCount := by
      rw [children, List.map_map]
      change items.zipIdx.map (leafCount ∘ Prod.fst) = _
      rw [← List.map_map, List.zipIdx_map_fst]
    rw [leafCount, hcounts]
    clear h hcounts
    induction items with
    | nil => rfl
    | cons item rest ih => rw [itemsLeafCount, ih, List.map_cons, List.sum_cons]
  | null | bool | int | float | text | callable => cases h

end Value

/-! ## Maps of lists without repeated keys -/

namespace SortedMap

variable {κ ν : Type} [Ord κ] [Std.TransOrd κ]

theorem nodup_keys (m : SortedMap κ ν) : m.keys.Nodup := by
  rw [List.nodup_iff_pairwise_ne, keys, List.pairwise_map]
  refine m.sorted.imp fun {a b} hlt heq => ?_
  have hself : compare b.1 b.1 = .eq := Std.ReflCmp.compare_self
  rw [heq, hself] at hlt
  cases hlt

/-- A list whose keys are all different loses no entry when it is put into a map. -/
theorem size_ofList [Std.LawfulEqOrd κ] {entries : List (κ × ν)} (h : (entries.map Prod.fst).Nodup) :
    (ofList entries).size = entries.length := by
  have hsame : ∀ k, k ∈ (ofList entries).keys ↔ k ∈ entries.map Prod.fst := by
    intro k
    rw [mem_keys_iff, exists_get?_ofList_iff, List.mem_map]
  have hperm := (List.perm_ext_iff_of_nodup (nodup_keys _) h).2 hsame
  simpa [keys, size] using hperm.length_eq

end SortedMap

namespace Leaves

/-! ## Leaves below children -/

theorem underFields_eq (path : String) (fields : List (String × Value)) :
    underFields path fields = fields.flatMap fun field => under (path ++ "." ++ field.1) field.2 := by
  induction fields with
  | nil => rfl
  | cons field rest ih => rw [underFields, ih, List.flatMap_cons]

theorem underItems_eq (path : String) (start : Nat) (items : List Value) :
    underItems path start items =
      (items.zipIdx start).flatMap fun item => under (path ++ "." ++ Value.position item.2) item.1 := by
  induction items generalizing start with
  | nil => rfl
  | cons item rest ih =>
    rw [underItems, ih, List.zipIdx_cons, List.flatMap_cons]
    rfl

theorem under_of_isLeaf {v : Value} (h : v.isLeaf = true) (path : String) : under path v = [(path, v)] := by
  cases v with
  | list | map => cases h
  | null | bool | int | float | text | callable => rfl

/-- Below a path the leaves of a list or a map are those of its children. -/
theorem under_of_not_isLeaf {v : Value} (h : v.isLeaf = false) (path : String) :
    under path v = v.children.flatMap fun c => under (path ++ "." ++ c.1) c.2 := by
  cases v with
  | map fields => rw [under, underFields_eq, Value.children]
  | list items => rw [under, underItems_eq, Value.children, List.flatMap_map]
  | null | bool | int | float | text | callable => cases h

/-- The leaves of a payload are those of its children. -/
theorem listed_eq (payload : Value) : listed payload = payload.children.flatMap fun c => under c.1 c.2 := by
  cases payload with
  | map fields => rfl
  | list items =>
    rw [listed, Value.children, List.flatMap_map]
    rfl
  | null | bool | int | float | text | callable => rfl

/-! ## How many leaves are listed -/

theorem length_under (path : String) (v : Value) : (under path v).length = v.leafCount := by
  induction v using Value.children_induction generalizing path with
  | step v ih =>
    cases hleaf : v.isLeaf with
    | true =>
      rw [under_of_isLeaf hleaf, Value.leafCount_of_isLeaf hleaf]
      rfl
    | false =>
      rw [under_of_not_isLeaf hleaf, Value.leafCount_of_not_isLeaf hleaf, List.length_flatMap]
      exact congrArg List.sum (List.map_congr_left fun c hc => ih c hc _)

/-- A payload has as many leaves listed as there are in it. -/
theorem length_listed {payload : Value} (h : payload.isLeaf = false) : (listed payload).length = payload.leafCount := by
  rw [listed_eq, Value.leafCount_of_not_isLeaf h, List.length_flatMap]
  exact congrArg List.sum (List.map_congr_left fun c _ => length_under c.1 c.2)

/-! ## Under which texts -/

/-- Children with different segments have their leaves under different texts. -/
theorem nodup_flatMap_under (front : List String) (hfront : ∀ s ∈ front, '.' ∉ s.toList) {children : List (String × Value)}
    (hsegments : (children.map Prod.fst).Nodup) (hplain : ∀ c ∈ children, '.' ∉ c.1.toList ∧ c.2.HasPlainKeys)
    (hunder : ∀ c ∈ children, ((under (Path.mk (front ++ [c.1])).text c.2).map Prod.fst).Nodup) :
    ((children.flatMap fun c => under (Path.mk (front ++ [c.1])).text c.2).map Prod.fst).Nodup := by
  -- A text under a child is that of a path through its segment.
  have hthrough : ∀ c ∈ children, ∀ t ∈ (under (Path.mk (front ++ [c.1])).text c.2).map Prod.fst,
      ∃ rest, (Path.ofText t).segments = front ++ c.1 :: rest := by
    intro c hc t ht
    obtain ⟨e, he, rfl⟩ := List.mem_map.1 ht
    obtain ⟨rest, w, hat, -, rfl⟩ := (mem_under (by simp) c.2 e).1 he
    refine ⟨rest, ?_⟩
    have hread := Path.segments_ofText_text (show front ++ [c.1] ++ rest ≠ [] by simp) ?_
    · rw [hread, List.append_assoc, List.singleton_append]
    · intro s hs
      simp only [List.mem_append, List.mem_singleton] at hs
      rcases hs with (hs | rfl) | hs
      · exact hfront s hs
      · exact (hplain c hc).1
      · exact (hplain c hc).2.dot_not_mem hat s hs
  rw [List.map_flatMap, List.nodup_flatMap]
  refine ⟨hunder, ?_⟩
  rw [List.nodup_iff_pairwise_ne, List.pairwise_map] at hsegments
  refine hsegments.imp_of_mem fun {c c'} hc hc' hne t ht ht' => hne ?_
  obtain ⟨rest, hrest⟩ := hthrough c hc t ht
  obtain ⟨rest', hrest'⟩ := hthrough c' hc' t ht'
  rw [hrest, List.append_cancel_left_eq] at hrest'
  exact (List.cons.inj hrest').1

theorem nodup_under {v : Value} (h : v.HasPlainKeys) {segments : List String} (hne : segments ≠ [])
    (hdot : ∀ s ∈ segments, '.' ∉ s.toList) : ((under (Path.mk segments).text v).map Prod.fst).Nodup := by
  induction v using Value.children_induction generalizing segments with
  | step v ih =>
    cases hleaf : v.isLeaf with
    | true =>
      rw [under_of_isLeaf hleaf]
      exact List.nodup_singleton _
    | false =>
      obtain ⟨hsegments, hplain⟩ := h.children
      have hchild : ∀ c : String × Value, (Path.mk segments).text ++ "." ++ c.1 = (Path.mk (segments ++ [c.1])).text := by
        intro c
        rw [Path.text_append_cons hne, Path.text_singleton]
      simp only [under_of_not_isLeaf hleaf, hchild]
      refine nodup_flatMap_under segments hdot hsegments hplain fun c hc => ih c hc (hplain c hc).2 (by simp) ?_
      intro s hs
      rcases List.mem_append.1 hs with hs | hs
      · exact hdot s hs
      · rw [List.mem_singleton.1 hs]
        exact (hplain c hc).1

/-- With plain keys the leaves of a payload are listed under different texts. -/
theorem nodup_listed {payload : Value} (h : payload.HasPlainKeys) : ((listed payload).map Prod.fst).Nodup := by
  obtain ⟨hsegments, hplain⟩ := h.children
  have hunder := nodup_flatMap_under [] (fun _ hs => absurd hs List.not_mem_nil) hsegments hplain fun c hc =>
    nodup_under (hplain c hc).2 (by simp) (by simpa using (hplain c hc).1)
  simp only [List.nil_append, Path.text_singleton] at hunder
  rw [listed_eq]
  exact hunder

/-! ## The leaves of a payload by path -/

variable {payload : Value}

/-- A payload has as many paths with a leaf as there are leaves in it. -/
theorem size_ofValue (h : payload.HasPlainKeys) : (ofValue payload).size = if payload.isLeaf then 0 else payload.leafCount := by
  rw [size, entries_ofValue, SortedMap.size_ofList (nodup_listed h)]
  cases hleaf : payload.isLeaf with
  | true =>
    rw [listed_eq, Value.children_of_isLeaf hleaf]
    rfl
  | false => exact length_listed hleaf

/-- The leaf under a text is what stands where its segments lead. -/
theorem get?_eq_some_iff (h : payload.HasPlainKeys) {path : String} {v : Value} :
    (ofValue payload).get? path = some v ↔ Value.At payload (Path.ofText path).segments v ∧ v.isLeaf = true := by
  have hiff := get?_ofValue_iff h (Path.ofText_ne_nil path) (Path.dot_not_mem_ofText path) (v := v)
  have htext : (Path.mk (Path.ofText path).segments).text = path := Path.text_ofText path
  rwa [htext] at hiff

/-- No leaf stands below another one. -/
theorem not_below_of_contains (h : payload.HasPlainKeys) {key key' : String} (hkey : (ofValue payload).contains key = true)
    (hkey' : (ofValue payload).contains key' = true) : ¬(key ++ ".").toList <+: key'.toList := by
  intro hprefix
  obtain ⟨rest, hrest⟩ := hprefix
  obtain ⟨v, hv⟩ := contains_eq_true_iff.1 hkey
  obtain ⟨v', hv'⟩ := contains_eq_true_iff.1 hkey'
  obtain ⟨hat, hleaf⟩ := (get?_eq_some_iff h).1 hv
  obtain ⟨hat', -⟩ := (get?_eq_some_iff h).1 hv'
  rw [segments_eq_append hrest] at hat'
  obtain ⟨w, hw, hbelow⟩ := hat'.exists_of_append
  obtain rfl : w = v := h.at_unique hw hat
  exact Path.ofText_ne_nil (String.ofList rest) (by simpa [Path.ofText] using (hbelow.eq_nil hleaf).1)

/-- Places of different leaves have different texts. -/
theorem segments_eq_of_text_eq (h : payload.HasPlainKeys) {segments segments' : List String} {v v' : Value}
    (hat : Value.At payload segments v) (hleaf : v.isLeaf = true) (hat' : Value.At payload segments' v') (hleaf' : v'.isLeaf = true)
    (htext : (Path.mk segments).text = (Path.mk segments').text) : segments = segments' := by
  cases hpayload : payload.isLeaf with
  | true => rw [(hat.eq_nil hpayload).1, (hat'.eq_nil hpayload).1]
  | false =>
    have hne : ∀ {place : List String} {w : Value}, Value.At payload place w → w.isLeaf = true → place ≠ [] := by
      intro place w hw hwleaf hnil
      subst hnil
      cases hw
      rw [hpayload] at hwleaf
      cases hwleaf
    exact congrArg Path.segments (Path.eq_of_text_eq (p := ⟨segments⟩) (q := ⟨segments'⟩) (hne hat hleaf) (hne hat' hleaf')
      (h.dot_not_mem hat) (h.dot_not_mem hat') htext)

/-- The leaves of a payload whose keys are free of dots. A text answers with a value exactly if the value is no list and no map and stands
where the segments of the text lead, through keys of maps and positions in lists. There are as many answers as there are leaves below the
payload, places of different leaves have different texts, and no text with an answer goes on, behind a dot, from another one. -/
theorem leaves_have_own_paths (payload : Value) (h : payload.HasPlainKeys) :
    (∀ (path : String) (v : Value), (ofValue payload).get? path = some v ↔
      Value.At payload (Path.ofText path).segments v ∧ v.isLeaf = true) ∧
    (ofValue payload).size = (if payload.isLeaf then 0 else payload.leafCount) ∧
    (∀ segments segments' v v', Value.At payload segments v → v.isLeaf = true → Value.At payload segments' v' → v'.isLeaf = true →
      (Path.mk segments).text = (Path.mk segments').text → segments = segments') ∧
    ∀ key key', (ofValue payload).contains key = true → (ofValue payload).contains key' = true →
      ¬(key ++ ".").toList <+: key'.toList :=
  ⟨fun _ _ => get?_eq_some_iff h, size_ofValue h, fun _ _ _ _ => segments_eq_of_text_eq h, fun _ _ => not_below_of_contains h⟩

/-- A payload with an empty key, keys that look like positions, and containers without elements. -/
def Sample.nested : Value :=
  .map [("", .map [("", .int 1)]), ("0", .list [.text "a", .list [], .map [("1", .null), ("x", .bool true)]]), ("e", .map [])]

/-- It has four leaves, among them one under the text of a single dot; nothing is left of the containers without elements. -/
theorem nested_leaves_found : Sample.nested.HasPlainKeys ∧ (ofValue Sample.nested).size = 4 ∧
    (ofValue Sample.nested).get? "." = some (.int 1) ∧ (ofValue Sample.nested).get? "0.2.1" = some .null ∧
    (ofValue Sample.nested).get? "0.1" = none := by
  have hscalar : ∀ v : Value, v.isLeaf = true → v.HasPlainKeys := fun _ => Value.hasPlainKeys_of_isLeaf
  have hplain : Sample.nested.HasPlainKeys := by
    refine Value.hasPlainKeys_map (by decide) (by decide) ?_
    simp only [List.forall_mem_cons, List.not_mem_nil, false_implies, implies_true, and_true]
    refine ⟨Value.hasPlainKeys_map (by decide) (by decide) ?_, Value.hasPlainKeys_list ?_,
      Value.hasPlainKeys_map (by decide) (by decide) fun _ h => absurd h List.not_mem_nil⟩
    · exact List.forall_mem_singleton.2 (hscalar _ rfl)
    · simp only [List.forall_mem_cons, List.not_mem_nil, false_implies, implies_true, and_true]
      refine ⟨hscalar _ rfl, Value.hasPlainKeys_list fun _ h => absurd h List.not_mem_nil,
        Value.hasPlainKeys_map (by decide) (by decide) ?_⟩
      simp only [List.forall_mem_cons, List.not_mem_nil, false_implies, implies_true, and_true]
      exact ⟨hscalar _ rfl, hscalar _ rfl⟩
  obtain ⟨hget, hsize, -, -⟩ := leaves_have_own_paths Sample.nested hplain
  have hempty : (Path.ofText ".").segments = ["", ""] := by decide +kernel
  have hthird : (Path.ofText "0.2.1").segments = ["0", Value.position 2, "1"] := by decide +kernel
  have hsecond : (Path.ofText "0.1").segments = ["0", Value.position 1] := by decide +kernel
  refine ⟨hplain, hsize, (hget _ _).2 ?_, (hget _ _).2 ?_, ?_⟩
  · rw [hempty]
    exact ⟨.field List.mem_cons_self (.field List.mem_cons_self (.here _)), rfl⟩
  · rw [hthird]
    exact ⟨.field (List.mem_cons_of_mem _ List.mem_cons_self) (.item rfl (.field List.mem_cons_self (.here _))), rfl⟩
  · rw [Option.eq_none_iff_forall_ne_some]
    intro v hv
    obtain ⟨hat, hleaf⟩ := (hget _ _).1 hv
    rw [hsecond] at hat
    -- The list without elements stands there, and nothing else does.
    have hlist : Value.At Sample.nested ["0", Value.position 1] (.list []) :=
      .field (List.mem_cons_of_mem _ List.mem_cons_self) (.item rfl (.here _))
    rw [hplain.at_unique hat hlist] at hleaf
    cases hleaf

end Leaves
end SheetTemplate

import Mathlib.Data.List.Nodup
import Mathlib.Data.String.Basic
import Mathlib.Order.Basic
import SheetTemplate.Leaves

/-!
# The leaves of a payload and its places

`Value.At` follows segments into a payload, keys into maps and positions into lists. Flattening lists exactly the leaves at places of
the payload, each under the text of its path (`mem_listed`). Where keys are free of dots and stand once in each map, a text names one
place at most, so looking a path up in the leaves is looking its place up in the payload (`get?_ofValue_iff`), and a path leads towards
a leaf exactly if one stands at its place or below (`reaches_ofValue_iff`).
-/

namespace SheetTemplate

/-! ## Places of a payload -/

namespace Value

/-- The segment of a position in a list. -/
def position (n : Nat) : String := String.ofList (Text.digits n)

/-- What stands at a place of a value: a segment names a field of a map, or a position in a list. -/
inductive At : Value → List String → Value → Prop
  | here (v : Value) : At v [] v
  | field {fields : List (String × Value)} {key : String} {v w : Value} {rest : List String} (mem : (key, v) ∈ fields)
      (below : At v rest w) : At (.map fields) (key :: rest) w
  | item {items : List Value} {i : Nat} {v w : Value} {rest : List String} (get : items[i]? = some v) (below : At v rest w) :
      At (.list items) (position i :: rest) w

/-- Places below places. -/
theorem At.append {v w x : Value} {segments rest : List String} (h : At v segments w) (hrest : At w rest x) :
    At v (segments ++ rest) x := by
  induction h with
  | here => exact hrest
  | field mem _ ih => exact .field mem (ih hrest)
  | item get _ ih => exact .item get (ih hrest)

/-- A place below a place is a place of what stands there. -/
theorem At.exists_of_append {v x : Value} {segments rest : List String} (h : At v (segments ++ rest) x) :
    ∃ w, At v segments w ∧ At w rest x := by
  induction segments generalizing v with
  | nil => exact ⟨v, .here v, h⟩
  | cons segment segments ih =>
    rw [List.cons_append] at h
    cases h with
    | field mem below =>
      obtain ⟨w, hw, hx⟩ := ih below
      exact ⟨w, .field mem hw, hx⟩
    | item get below =>
      obtain ⟨w, hw, hx⟩ := ih below
      exact ⟨w, .item get hw, hx⟩

/-- Nothing stands below a leaf. -/
theorem At.eq_nil {v w : Value} {segments : List String} (h : At v segments w) (hleaf : v.isLeaf = true) : segments = [] ∧ w = v := by
  cases h with
  | here => exact ⟨rfl, rfl⟩
  | field mem below => cases hleaf
  | item get below => cases hleaf

/-- A value whose maps have every key once, and no key with a dot in it. -/
def HasPlainKeys (v : Value) : Prop :=
  ∀ segments fields, At v segments (.map fields) → (fields.map Prod.fst).Nodup ∧ ∀ field ∈ fields, '.' ∉ field.1.toList

theorem hasPlainKeys_of_isLeaf {v : Value} (h : v.isLeaf = true) : v.HasPlainKeys := by
  intro segments fields hat
  obtain ⟨-, rfl⟩ := hat.eq_nil h
  cases h

theorem hasPlainKeys_list {items : List Value} (h : ∀ item ∈ items, item.HasPlainKeys) : (Value.list items).HasPlainKeys := by
  intro segments fields hat
  cases hat with
  | item get below => exact h _ (List.mem_of_getElem? get) _ fields below

theorem hasPlainKeys_map {fields : List (String × Value)} (hnodup : (fields.map Prod.fst).Nodup)
    (hdot : ∀ field ∈ fields, '.' ∉ field.1.toList) (h : ∀ field ∈ fields, field.2.HasPlainKeys) : (Value.map fields).HasPlainKeys := by
  intro segments found hat
  cases hat with
  | here => exact ⟨hnodup, hdot⟩
  | field mem below => exact h _ mem _ found below

/-- What stands in a value with plain keys has plain keys. -/
theorem HasPlainKeys.below {v w : Value} {segments : List String} (h : v.HasPlainKeys) (hat : At v segments w) : w.HasPlainKeys :=
  fun rest fields hfields => h (segments ++ rest) fields (hat.append hfields)

theorem position_injective : Function.Injective position := by
  intro i j h
  have hdigits : Text.digits i = Text.digits j := by
    have := congrArg String.toList h
    simpa [position] using this
  have hnumber := Text.number?_digits (Nat.le_max_left i j)
  rw [hdigits, Text.number?_digits (Nat.le_max_right i j)] at hnumber
  exact (Option.some.inj hnumber).symm

/-- With plain keys at most one value stands at a place. -/
theorem HasPlainKeys.at_unique {v w w' : Value} {segments : List String} (h : v.HasPlainKeys) (hw : At v segments w)
    (hw' : At v segments w') : w = w' := by
  induction hw with
  | here =>
    cases hw'
    rfl
  | @field fields key v w rest mem below ih =>
    cases hw' with
    | @field _ _ v' _ _ mem' below' =>
      obtain rfl : v = v' := by
        have hnodup := (h [] fields (.here _)).1
        have hpair := List.inj_on_of_nodup_map hnodup mem mem' rfl
        exact congrArg Prod.snd hpair
      exact ih (h.below (.field mem (.here v))) below'
  | @item items i v w rest get below ih =>
    generalize hsegment : position i :: rest = segments at hw'
    cases hw' with
    | here => cases hsegment
    | @item _ i' v' _ rest' get' below' =>
      injection hsegment with hposition hrest
      subst hrest
      obtain rfl := position_injective hposition
      obtain rfl : v = v' := Option.some.inj (get.symm.trans get')
      exact ih (h.below (.item get (.here v))) below'

/-- With plain keys the segments of places are free of dots. -/
theorem HasPlainKeys.dot_not_mem {v w : Value} {segments : List String} (h : v.HasPlainKeys) (hat : At v segments w) :
    ∀ segment ∈ segments, '.' ∉ segment.toList := by
  induction hat with
  | here => exact fun _ hmem => absurd hmem List.not_mem_nil
  | @field fields key v w rest mem below ih =>
    intro segment hsegment
    rcases List.mem_cons.1 hsegment with rfl | hsegment
    · exact (h [] fields (.here _)).2 _ mem
    · exact ih (h.below (.field mem (.here v))) segment hsegment
  | @item items i v w rest get below ih =>
    intro segment hsegment
    rcases List.mem_cons.1 hsegment with rfl | hsegment
    · intro hdot
      have hdigit := List.all_eq_true.1 (Text.all_isDigit_digits i) '.' (by simpa [position] using hdot)
      exact absurd hdigit (by decide)
    · exact ih (h.below (.item get (.here v))) segment hsegment

end Value

/-! ## Texts of paths -/

namespace Path

/-- The text of a path that goes on. -/
theorem text_append_cons {segments : List String} (hne : segments ≠ []) (next : String) (rest : List String) :
    (Path.mk (segments ++ next :: rest)).text = (Path.mk segments).text ++ "." ++ (Path.mk (next :: rest)).text := by
  have hchars : ∀ segments : List String, segments ≠ [] → (Path.mk (segments ++ next :: rest)).chars =
      (Path.mk segments).chars ++ '.' :: (Path.mk (next :: rest)).chars := by
    intro segments
    induction segments with
    | nil => exact fun h => absurd rfl h
    | cons first below ih =>
      intro _
      cases below with
      | nil => simp [chars, List.intercalate_cons_cons]
      | cons second below =>
        have hbelow := ih (List.cons_ne_nil second below)
        simp only [chars, List.map_cons, List.cons_append, List.intercalate_cons_cons] at hbelow ⊢
        rw [hbelow]
        simp
  have hdot : ("." : String) = String.ofList ['.'] := by decide
  rw [text, hchars segments hne, text, text, hdot, ← String.ofList_append, ← String.ofList_append]
  simp

theorem text_singleton (segment : String) : (Path.mk [segment]).text = segment := by simp [text, chars]

theorem ofText_ne_nil (s : String) : (ofText s).segments ≠ [] := by simp [ofText, ofChars]

/-- Segments of a text hold no dot. -/
theorem dot_not_mem_ofText (s : String) : ∀ segment ∈ (ofText s).segments, '.' ∉ segment.toList := by
  have hsplit : ∀ cs : List Char, ∀ part ∈ cs.splitOn '.', '.' ∉ part := by
    intro cs
    induction cs with
    | nil => simp
    | cons c cs ih =>
      intro part hpart
      rw [List.splitOn_cons_eq_if_modifyHead] at hpart
      split at hpart
      · rcases List.mem_cons.1 hpart with rfl | hpart
        · exact List.not_mem_nil
        · exact ih part hpart
      · rename_i hc
        cases hparts : cs.splitOn '.' with
        | nil => simp [hparts] at hpart
        | cons first rest =>
          rw [hparts] at hpart ih
          rcases List.mem_cons.1 hpart with rfl | hpart
          · rw [List.mem_cons, not_or]
            exact ⟨fun hdot => hc (beq_iff_eq.2 hdot.symm), ih first List.mem_cons_self⟩
          · exact ih part (List.mem_cons_of_mem _ hpart)
  intro segment hsegment
  obtain ⟨part, hpart, rfl⟩ := List.mem_map.1 hsegment
  rw [String.toList_ofList]
  exact hsplit _ part hpart

/-- Segments without dots are read back from the text of their path. -/
theorem segments_ofText_text {segments : List String} (hne : segments ≠ []) (hdot : ∀ s ∈ segments, '.' ∉ s.toList) :
    (ofText (Path.mk segments).text).segments = segments :=
  congrArg Path.segments (ofText_text (p := ⟨segments⟩) hne hdot)

/-- Paths without dots in their segments have different texts. -/
theorem eq_of_text_eq {p q : Path} (hp : p.segments ≠ []) (hq : q.segments ≠ []) (hpdot : ∀ s ∈ p.segments, '.' ∉ s.toList)
    (hqdot : ∀ s ∈ q.segments, '.' ∉ s.toList) (h : p.text = q.text) : p = q := by
  rw [← ofText_text hp hpdot, h, ofText_text hq hqdot]

end Path

namespace Leaves

/-! ## What is listed -/

mutual

/-- Below a place the leaves of its value are listed, each under the text of its path. -/
theorem mem_under {segments : List String} (hne : segments ≠ []) (v : Value) (e : String × Value) :
    e ∈ under (Path.mk segments).text v ↔
      ∃ rest w, Value.At v rest w ∧ w.isLeaf = true ∧ e = ((Path.mk (segments ++ rest)).text, w) := by
  have hleaf : v.isLeaf = true → (e ∈ [((Path.mk segments).text, v)] ↔
      ∃ rest w, Value.At v rest w ∧ w.isLeaf = true ∧ e = ((Path.mk (segments ++ rest)).text, w)) := by
    intro hleaf
    rw [List.mem_singleton]
    constructor
    · rintro rfl
      exact ⟨[], v, .here v, hleaf, by rw [List.append_nil]⟩
    · rintro ⟨rest, w, hat, -, rfl⟩
      obtain ⟨rfl, rfl⟩ := hat.eq_nil hleaf
      rw [List.append_nil]
  match v with
  | .map fields =>
    rw [under, mem_underFields hne fields e]
    constructor
    · rintro ⟨key, v, rest, w, hmem, hat, hw, rfl⟩
      exact ⟨key :: rest, w, .field hmem hat, hw, rfl⟩
    · rintro ⟨rest, w, hat, hw, rfl⟩
      cases hat with
      | here => cases hw
      | field mem below => exact ⟨_, _, _, _, mem, below, hw, rfl⟩
  | .list items =>
    rw [under, mem_underItems hne 0 items e]
    constructor
    · rintro ⟨i, v, rest, w, hget, hat, hw, rfl⟩
      exact ⟨Value.position i :: rest, w, .item hget hat, hw, by rw [Nat.zero_add]⟩
    · rintro ⟨rest, w, hat, hw, rfl⟩
      cases hat with
      | here => cases hw
      | item get below => exact ⟨_, _, _, _, get, below, hw, by rw [Nat.zero_add]⟩
  | .null => exact hleaf rfl
  | .bool _ => exact hleaf rfl
  | .int _ => exact hleaf rfl
  | .float _ => exact hleaf rfl
  | .text _ => exact hleaf rfl
  | .callable _ => exact hleaf rfl

theorem mem_underFields {segments : List String} (hne : segments ≠ []) (fields : List (String × Value)) (e : String × Value) :
    e ∈ underFields (Path.mk segments).text fields ↔
      ∃ key v rest w, (key, v) ∈ fields ∧ Value.At v rest w ∧ w.isLeaf = true ∧
        e = ((Path.mk (segments ++ key :: rest)).text, w) := by
  match fields with
  | [] => simp [underFields]
  | (key, value) :: others =>
    have hkey : (Path.mk segments).text ++ "." ++ key = (Path.mk (segments ++ [key])).text := by
      rw [Path.text_append_cons hne, Path.text_singleton]
    rw [underFields, List.mem_append, hkey, mem_under (by simp) value e, mem_underFields hne others e]
    constructor
    · rintro (⟨rest, w, hat, hw, rfl⟩ | ⟨key', v, rest, w, hmem, hat, hw, rfl⟩)
      · exact ⟨key, value, rest, w, List.mem_cons_self, hat, hw, by simp⟩
      · exact ⟨key', v, rest, w, List.mem_cons_of_mem _ hmem, hat, hw, rfl⟩
    · rintro ⟨key', v, rest, w, hmem, hat, hw, rfl⟩
      rcases List.mem_cons.1 hmem with heq | hmem
      · cases heq
        exact Or.inl ⟨rest, w, hat, hw, by simp⟩
      · exact Or.inr ⟨key', v, rest, w, hmem, hat, hw, rfl⟩

theorem mem_underItems {segments : List String} (hne : segments ≠ []) (start : Nat) (items : List Value) (e : String × Value) :
    e ∈ underItems (Path.mk segments).text start items ↔
      ∃ i v rest w, items[i]? = some v ∧ Value.At v rest w ∧ w.isLeaf = true ∧
        e = ((Path.mk (segments ++ Value.position (start + i) :: rest)).text, w) := by
  match items with
  | [] => simp [underItems]
  | item :: others =>
    have hposition : (Path.mk segments).text ++ "." ++ String.ofList (Text.digits start) =
        (Path.mk (segments ++ [Value.position start])).text := by
      rw [Path.text_append_cons hne, Path.text_singleton, Value.position]
    rw [underItems, List.mem_append, hposition, mem_under (by simp) item e, mem_underItems hne (start + 1) others e]
    constructor
    · rintro (⟨rest, w, hat, hw, rfl⟩ | ⟨i, v, rest, w, hget, hat, hw, rfl⟩)
      · exact ⟨0, item, rest, w, rfl, hat, hw, by simp⟩
      · refine ⟨i + 1, v, rest, w, hget, hat, hw, ?_⟩
        rw [show start + 1 + i = start + (i + 1) by omega]
    · rintro ⟨i, v, rest, w, hget, hat, hw, rfl⟩
      cases i with
      | zero =>
        cases hget
        exact Or.inl ⟨rest, w, hat, hw, by simp⟩
      | succ i =>
        refine Or.inr ⟨i, v, rest, w, hget, hat, hw, ?_⟩
        rw [show start + 1 + i = start + (i + 1) by omega]

end

/-- The leaves of a payload are those at its places, each under the text of its path. -/
theorem mem_listed {payload : Value} {e : String × Value} : e ∈ listed payload ↔
    ∃ segments w, segments ≠ [] ∧ Value.At payload segments w ∧ w.isLeaf = true ∧ e = ((Path.mk segments).text, w) := by
  have hkey : ∀ (segment : String) (v : Value), e ∈ under segment v ↔
      ∃ rest w, Value.At v rest w ∧ w.isLeaf = true ∧ e = ((Path.mk (segment :: rest)).text, w) := by
    intro segment v
    have hunder := mem_under (List.cons_ne_nil segment []) v e
    rw [Path.text_singleton] at hunder
    exact hunder
  cases payload with
  | map fields =>
    simp only [listed, List.mem_flatMap, hkey]
    constructor
    · rintro ⟨⟨key, v⟩, hmem, rest, w, hat, hw, rfl⟩
      exact ⟨key :: rest, w, List.cons_ne_nil _ _, .field hmem hat, hw, rfl⟩
    · rintro ⟨segments, w, hne, hat, hw, rfl⟩
      cases hat with
      | here => exact absurd rfl hne
      | field mem below => exact ⟨(_, _), mem, _, w, below, hw, rfl⟩
  | list items =>
    simp only [listed, List.mem_flatMap, hkey]
    constructor
    · rintro ⟨⟨v, i⟩, hmem, rest, w, hat, hw, rfl⟩
      exact ⟨Value.position i :: rest, w, List.cons_ne_nil _ _, .item (List.mk_mem_zipIdx_iff_getElem?.1 hmem) hat, hw, rfl⟩
    · rintro ⟨segments, w, hne, hat, hw, rfl⟩
      cases hat with
      | here => exact absurd rfl hne
      | @item _ i v _ rest get below => exact ⟨(v, i), List.mk_mem_zipIdx_iff_getElem?.2 get, rest, w, below, hw, rfl⟩
  | null | bool | int | float | text | callable =>
    simp only [listed, List.not_mem_nil, false_iff]
    rintro ⟨segments, w, hne, hat, -⟩
    exact hne (hat.eq_nil rfl).1

/-! ## Looking paths up -/

theorem contains_eq_true_iff {leaves : Leaves} {path : String} : leaves.contains path = true ↔ ∃ v, leaves.get? path = some v := by
  rw [contains, SortedMap.contains, Option.isSome_iff_exists]
  rfl

/-- The leaves of a payload are held by the texts of their paths. -/
theorem entries_ofValue (payload : Value) : (ofValue payload).entries = SortedMap.ofList (listed payload) := by
  have hfold : ∀ (l : List (String × Value)) (leaves : Leaves),
      (l.foldl (fun leaves leaf => leaves.insert leaf.1 leaf.2) leaves).entries =
        l.foldl (fun m leaf => m.insert leaf.1 leaf.2) leaves.entries := by
    intro l
    induction l with
    | nil => exact fun _ => rfl
    | cons leaf rest ih => exact fun leaves => ih (leaves.insert leaf.1 leaf.2)
  exact hfold _ _

/-- A text leads towards a leaf if it is a part of the text of one before one of its dots. -/
theorem inner_ofValue_iff {payload : Value} {t : String} :
    (ofValue payload).inner.contains t = true ↔ ∃ leaf ∈ listed payload, t ∈ partsBeforeDots leaf.1 := by
  have hfold : ∀ (l : List (String × Value)) (leaves : Leaves),
      t ∈ (l.foldl (fun leaves leaf => leaves.insert leaf.1 leaf.2) leaves).inner.keys ↔
        (∃ leaf ∈ l, t ∈ partsBeforeDots leaf.1) ∨ t ∈ leaves.inner.keys := by
    intro l
    induction l with
    | nil => exact fun leaves => by simp
    | cons leaf rest ih =>
      intro leaves
      rw [List.foldl_cons, ih, insert]
      simp only [SortedSet.mem_keys_foldl_add, List.exists_mem_cons_iff, or_assoc]
      exact or_left_comm
  have hkeys : (ofValue payload).inner.contains t = true ↔ t ∈ (ofValue payload).inner.keys := by
    rw [SortedMap.contains, Option.isSome_iff_exists, SortedMap.mem_keys_iff]
  rw [hkeys, ofValue, hfold]
  exact or_iff_left List.not_mem_nil

/-- A leaf that a payload has under a path is listed under it. -/
theorem mem_listed_of_get? {payload : Value} {path : String} {v : Value} (h : (ofValue payload).get? path = some v) :
    (path, v) ∈ listed payload := by
  rw [get?, entries_ofValue] at h
  exact (SortedMap.mem_of_get?_foldl_insert h).resolve_right nofun

/-- What a payload has under a path is no list and no map. -/
theorem isLeaf_of_get? {payload : Value} {path : String} {v : Value} (h : (ofValue payload).get? path = some v) : v.isLeaf = true := by
  obtain ⟨_, w, -, -, hleaf, heq⟩ := mem_listed.1 (mem_listed_of_get? h)
  obtain rfl : v = w := congrArg Prod.snd heq
  exact hleaf

variable {payload : Value} {segments : List String}

/-- With plain keys a path has a leaf exactly if one stands at its place. -/
theorem get?_ofValue_iff (h : payload.HasPlainKeys) (hne : segments ≠ []) (hdot : ∀ s ∈ segments, '.' ∉ s.toList) {v : Value} :
    (ofValue payload).get? (Path.mk segments).text = some v ↔ Value.At payload segments v ∧ v.isLeaf = true := by
  have hsame : ∀ {segments' : List String} {w : Value}, segments' ≠ [] → Value.At payload segments' w →
      (Path.mk segments').text = (Path.mk segments).text → segments' = segments := by
    intro segments' w hne' hat htext
    exact congrArg Path.segments (Path.eq_of_text_eq (p := ⟨segments'⟩) (q := ⟨segments⟩) hne' hne (h.dot_not_mem hat) hdot htext)
  constructor
  · intro hget
    obtain ⟨segments', w, hne', hat, hleaf, heq⟩ := mem_listed.1 (mem_listed_of_get? hget)
    obtain ⟨htext, rfl⟩ := Prod.mk.inj heq
    obtain rfl := hsame hne' hat htext.symm
    exact ⟨hat, hleaf⟩
  · rintro ⟨hat, hleaf⟩
    rw [get?, entries_ofValue]
    refine SortedMap.get?_foldl_insert Prod.fst Prod.snd ∅ ?_ ⟨_, mem_listed.2 ⟨segments, v, hne, hat, hleaf, rfl⟩, rfl⟩
    intro leaf hmem htext
    obtain ⟨segments', w, hne', hat', -, rfl⟩ := mem_listed.1 hmem
    obtain rfl := hsame hne' hat' htext
    exact h.at_unique hat' hat

/-- With plain keys a path is there exactly if a leaf stands at its place. -/
theorem contains_ofValue_iff (h : payload.HasPlainKeys) (hne : segments ≠ []) (hdot : ∀ s ∈ segments, '.' ∉ s.toList) :
    (ofValue payload).contains (Path.mk segments).text = true ↔ ∃ v, Value.At payload segments v ∧ v.isLeaf = true := by
  rw [contains_eq_true_iff]
  exact exists_congr fun v => get?_ofValue_iff h hne hdot

/-- The parts of the text of a path are the texts of its first segments. -/
theorem mem_partsBeforeDots (hne : segments ≠ []) (hdot : ∀ s ∈ segments, '.' ∉ s.toList) {t : String} :
    t ∈ partsBeforeDots (Path.mk segments).text ↔
      ∃ front rest, front ≠ [] ∧ rest ≠ [] ∧ segments = front ++ rest ∧ t = (Path.mk front).text := by
  simp only [partsBeforeDots, Path.segments_ofText_text hne hdot, List.mem_map, List.mem_range'_1]
  constructor
  · rintro ⟨count, hcount, rfl⟩
    refine ⟨segments.take count, segments.drop count, ?_, ?_, (List.take_append_drop _ _).symm, rfl⟩
    · intro hnil
      rw [List.take_eq_nil_iff] at hnil
      rcases hnil with hzero | hnil
      · omega
      · exact hne hnil
    · intro hnil
      rw [List.drop_eq_nil_iff] at hnil
      omega
  · rintro ⟨front, rest, hfront, hrest, rfl, rfl⟩
    have hlf := List.length_pos_iff.2 hfront
    have hlr := List.length_pos_iff.2 hrest
    refine ⟨front.length, ?_, by rw [List.take_left]⟩
    rw [List.length_append]
    omega

/-- With plain keys a path leads towards a leaf exactly if one stands at its place or below. -/
theorem reaches_ofValue_iff (h : payload.HasPlainKeys) (hne : segments ≠ []) (hdot : ∀ s ∈ segments, '.' ∉ s.toList) :
    (ofValue payload).reaches (Path.mk segments).text = true ↔
      ∃ rest w, Value.At payload (segments ++ rest) w ∧ w.isLeaf = true := by
  rw [reaches, Bool.or_eq_true, contains_ofValue_iff h hne hdot, inner_ofValue_iff]
  constructor
  · rintro (⟨w, hat, hw⟩ | ⟨leaf, hmem, hpart⟩)
    · exact ⟨[], w, by rwa [List.append_nil], hw⟩
    · obtain ⟨segments', w, hne', hat, hw, rfl⟩ := mem_listed.1 hmem
      obtain ⟨front, rest, hfront, -, rfl, htext⟩ := (mem_partsBeforeDots hne' (h.dot_not_mem hat)).1 hpart
      have hdot' : ∀ s ∈ front, '.' ∉ s.toList := fun s hs => h.dot_not_mem hat s (List.mem_append_left _ hs)
      obtain rfl : segments = front :=
        congrArg Path.segments (Path.eq_of_text_eq (p := ⟨segments⟩) (q := ⟨front⟩) hne hfront hdot hdot' htext)
      exact ⟨rest, w, hat, hw⟩
  · rintro ⟨rest, w, hat, hw⟩
    rcases List.eq_nil_or_concat rest with rfl | ⟨_, _, rfl⟩
    · exact Or.inl ⟨w, by rwa [List.append_nil] at hat, hw⟩
    · refine Or.inr ⟨_, mem_listed.2 ⟨_, w, ?_, hat, hw, rfl⟩, (mem_partsBeforeDots ?_ (h.dot_not_mem hat)).2
        ⟨segments, _, hne, ?_, rfl, rfl⟩⟩ <;> simp

/-- No path to a leaf is longer than the depth of the leaves. -/
theorem length_le_depth_of_contains {leaves : Leaves} {key : String} (h : leaves.contains key = true) :
    (Path.ofText key).segments.length ≤ leaves.depth := by
  have hkey : key ∈ leaves.entries.keys := (SortedMap.mem_keys_iff _ _).2 (contains_eq_true_iff.1 h)
  have hfold : ∀ (keys : List String) (start : Nat), start ≤ keys.foldl (fun most path =>
      max most (Path.ofText path).segments.length) start ∧ ∀ key ∈ keys, (Path.ofText key).segments.length ≤
        keys.foldl (fun most path => max most (Path.ofText path).segments.length) start := by
    intro keys
    induction keys with
    | nil => exact fun start => ⟨Nat.le_refl _, fun _ hmem => absurd hmem List.not_mem_nil⟩
    | cons key rest ih =>
      intro start
      obtain ⟨hstart, hrest⟩ := ih (max start (Path.ofText key).segments.length)
      refine ⟨(Nat.le_max_left _ _).trans hstart, fun other hother => ?_⟩
      rcases List.mem_cons.1 hother with rfl | hother
      · exact (Nat.le_max_right _ _).trans hstart
      · exact hrest other hother
  exact (hfold _ 0).2 key hkey

/-- With plain keys no place of a leaf is deeper than the depth of the leaves. -/
theorem length_le_depth (h : payload.HasPlainKeys) (hne : segments ≠ []) {v : Value} (hat : Value.At payload segments v)
    (hleaf : v.isLeaf = true) : segments.length ≤ (ofValue payload).depth := by
  have hkey : (ofValue payload).contains (Path.mk segments).text = true :=
    (contains_ofValue_iff h hne (h.dot_not_mem hat)).2 ⟨v, hat, hleaf⟩
  have hle := length_le_depth_of_contains hkey
  rwa [Path.segments_ofText_text hne (h.dot_not_mem hat)] at hle

/-! ## Top-level keys -/

/-- A leaf directly under a key of the payload is found by the key, dots in it or not. Another leaf under the same text could only
come from a key that begins the text, and stands further up. -/
theorem get?_ofValue_of_field {fields : List (String × Value)} (hsorted : fields.Pairwise fun a b => compare a.1 b.1 = .lt)
    {key : String} {v : Value} (hmem : (key, v) ∈ fields) (hleaf : v.isLeaf = true) :
    (ofValue (.map fields)).get? key = some v := by
  obtain ⟨front, back, rfl⟩ := List.append_of_mem hmem
  have hunder : under key v = [(key, v)] := by
    cases v with
    | list | map => cases hleaf
    | null | bool | int | float | text | callable => rfl
  rw [get?, entries_ofValue, listed, List.flatMap_append, List.flatMap_cons, hunder]
  refine SortedMap.get?_ofList_of_last ?_
  rintro ⟨path, w⟩ hleaf' rfl
  obtain ⟨⟨key', v'⟩, hback, hin⟩ := List.mem_flatMap.1 hleaf'
  have hlt : path < key' := by
    have hpair := (List.pairwise_append.1 hsorted).2.1
    exact compareOfLessAndEq_eq_lt.1 ((List.pairwise_cons.1 hpair).1 _ hback)
  have hin' : (path, w) ∈ under (Path.mk [key']).text v' := by rwa [Path.text_singleton]
  obtain ⟨rest, _, -, -, heq⟩ := (mem_under (List.cons_ne_nil key' []) v' _).1 hin'
  have hprefix : key'.toList <+: path.toList := by
    rw [show path = _ from congrArg Prod.fst heq]
    cases rest with
    | nil => simp [Path.text_singleton]
    | cons next rest =>
      rw [Path.text_append_cons (List.cons_ne_nil key' []), Path.text_singleton]
      simp
  exact hprefix.le (String.lt_iff_toList_lt.1 hlt)

end Leaves
end SheetTemplate

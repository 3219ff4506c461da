import Mathlib.Computability.StateTransition
import Mathlib.Data.List.Nodup
import Mathlib.Data.List.Perm.Subperm
import Mathlib.Data.Nat.Find
import SheetTemplate.Proofs.PathPositions

/-!
# Counting siblings

Siblings are counted by looking one element further along a direction for as long as there is a leaf (`Leaves.countOn?`). Nothing in this
search bounds it. It comes to an end because paths that are different numbers of elements further have different texts
(`Path.step_eq_of_text_eq`) and so name different leaves, of which there are only so many (`Leaves.le_size_of_leaves`).
-/

namespace SheetTemplate

/-! ## Different texts -/

namespace Path

/-- The text of a path tells the segment at a place from those around it. -/
theorem segment_eq_of_chars_set {segments : List String} {place : Nat} (hlt : place < segments.length) {s t : String}
    (h : (Path.mk (segments.set place s)).chars = (Path.mk (segments.set place t)).chars) : s = t := by
  have hcons : ∀ (first : String) {rest : List String}, rest ≠ [] →
      (Path.mk (first :: rest)).chars = first.toList ++ '.' :: (Path.mk rest).chars := by
    intro first rest hne
    cases rest with
    | nil => exact absurd rfl hne
    | cons second rest => simp [chars, List.intercalate_cons_cons]
  induction segments generalizing place with
  | nil => exact absurd hlt (Nat.not_lt_zero place)
  | cons first rest ih =>
    cases place with
    | zero =>
      rw [List.set_cons_zero, List.set_cons_zero] at h
      by_cases hrest : rest = []
      · have hsingle : ∀ x : String, (Path.mk [x]).chars = x.toList := fun x => by simp [chars]
        rw [hrest, hsingle, hsingle] at h
        exact String.toList_inj.1 h
      · rw [hcons s hrest, hcons t hrest] at h
        exact String.toList_inj.1 (List.append_cancel_right h)
    | succ place =>
      have hlt' : place < rest.length := Nat.lt_of_succ_lt_succ hlt
      have hne : ∀ x, rest.set place x ≠ [] := by
        intro x hnil
        rw [List.set_eq_nil_iff] at hnil
        rw [hnil] at hlt'
        exact Nat.not_lt_zero place hlt'
      rw [List.set_cons_succ, List.set_cons_succ, hcons first (hne s), hcons first (hne t)] at h
      exact ih hlt' (List.cons.inj (List.append_cancel_left h)).2

/-- Paths that are different numbers of elements further have different texts. -/
theorem step_eq_of_text_eq {p q q' : Path} {direction : Direction} {step step' : Nat} (hq : p.advance? direction step = some q)
    (hq' : p.advance? direction step' = some q') (h : q.text = q'.text) : step = step' := by
  obtain ⟨place, n, hplace, hn, -, rfl⟩ := advance?_eq_some_iff.1 hq
  obtain ⟨place', n', hplace', hn', -, rfl⟩ := advance?_eq_some_iff.1 hq'
  obtain rfl := Option.some.inj (hplace.symm.trans hplace')
  obtain rfl := Option.some.inj (hn.symm.trans hn')
  obtain ⟨segment, hsegment, -⟩ := Marker.isPosition_of_place? hplace
  have hposition := segment_eq_of_chars_set (List.getElem?_eq_some_iff.1 hsegment).1 (String.ofList_inj.1 h)
  exact Nat.add_left_cancel (Value.position_injective hposition)

end Path

/-! ## How many follow -/

namespace Leaves

variable {leaves : Leaves} {direction : Path.Direction} {path : Path} {count : Nat}

/-- Exactly `count` elements follow a path along a direction: as many steps further there are leaves, and one step more there is no
path or no leaf. -/
structure HasSiblings (leaves : Leaves) (direction : Path.Direction) (path : Path) (count : Nat) : Prop where
  leaf : ∀ step, 1 ≤ step → step ≤ count → ∃ next, path.advance? direction step = some next ∧ leaves.contains next.text = true
  gap : ∀ next, path.advance? direction (count + 1) = some next → leaves.contains next.text = false

/-- There are not more elements without a gap than leaves. -/
theorem le_size_of_leaves
    (h : ∀ step, 1 ≤ step → step ≤ count → ∃ next, path.advance? direction step = some next ∧ leaves.contains next.text = true) :
    count ≤ leaves.size := by
  have hbounds : ∀ {step}, step ∈ List.range' 1 count → ∃ next, path.advance? direction step = some next ∧
      leaves.contains next.text = true := by
    intro step hstep
    rw [List.mem_range'_1] at hstep
    exact h step hstep.1 (by omega)
  have hnodup : ((List.range' 1 count).map fun step => (path.further direction step).text).Nodup := by
    refine List.Nodup.map_on ?_ (List.nodup_range' 1)
    intro step hstep step' hstep' heq
    obtain ⟨next, hnext, -⟩ := hbounds hstep
    obtain ⟨next', hnext', -⟩ := hbounds hstep'
    rw [Path.further, hnext, Path.further, hnext'] at heq
    exact Path.step_eq_of_text_eq hnext hnext' heq
  have hkeys : ((List.range' 1 count).map fun step => (path.further direction step).text) ⊆ leaves.entries.keys := by
    intro text hmem
    obtain ⟨step, hstep, rfl⟩ := List.mem_map.1 hmem
    obtain ⟨next, hnext, hleaf⟩ := hbounds hstep
    rw [Path.further, hnext]
    exact (SortedMap.mem_keys_iff _ _).2 (contains_eq_true_iff.1 hleaf)
  have hlength := (List.Nodup.subperm hnodup hkeys).length_le
  simpa [SortedMap.keys, size, SortedMap.size] using hlength

/-- There is a first gap, since not every step leads to a leaf. -/
theorem exists_hasSiblings (leaves : Leaves) (direction : Path.Direction) (path : Path) : ∃ count, leaves.HasSiblings direction path count := by
  have hgap : ∃ count, ∀ next, path.advance? direction (count + 1) = some next → leaves.contains next.text = false := by
    by_contra hnone
    have hall : ∀ step, 1 ≤ step → step ≤ leaves.size + 1 →
        ∃ next, path.advance? direction step = some next ∧ leaves.contains next.text = true := by
      intro step hone _
      by_contra hstep
      refine hnone ⟨step - 1, fun next hnext => ?_⟩
      rw [Nat.sub_add_cancel hone] at hnext
      exact Bool.eq_false_iff.2 fun hleaf => hstep ⟨next, hnext, hleaf⟩
    exact Nat.not_succ_le_self _ (le_size_of_leaves hall)
  classical
  refine ⟨Nat.find hgap, fun step hone hstep => ?_, Nat.find_spec hgap⟩
  have hbefore := Nat.find_min hgap (show step - 1 < Nat.find hgap by omega)
  rw [Nat.sub_add_cancel hone] at hbefore
  by_contra hleaf
  exact hbefore fun next hnext => Bool.eq_false_iff.2 fun hcontains => hleaf ⟨next, hnext, hcontains⟩

/-- The search of a bounded length finds all elements that follow. -/
theorem siblings_eq (h : leaves.HasSiblings direction path count) : leaves.siblings direction path = count := by
  obtain ⟨more, hmore⟩ := Nat.exists_eq_add_of_le (le_size_of_leaves h.leaf)
  rw [siblings, hmore, ← List.range'_append_1, List.takeWhile_append_of_pos]
  · have hrest : (List.range' (1 + count) more).takeWhile (fun step =>
        (path.advance? direction step).any fun next => leaves.contains next.text) = [] := by
      cases more with
      | zero => rfl
      | succ more =>
        rw [List.range'_succ, List.takeWhile_cons_of_neg]
        rw [Nat.add_comm 1 count, Option.any_eq_true]
        rintro ⟨next, hnext, hcontains⟩
        rw [h.gap next hnext] at hcontains
        cases hcontains
    rw [hrest, List.append_nil, List.length_range']
  · intro step hstep
    rw [List.mem_range'_1] at hstep
    obtain ⟨next, hnext, hcontains⟩ := h.leaf step hstep.1 (by omega)
    rw [hnext, Option.any_some, hcontains]

/-- The number of siblings is the number of elements that follow. -/
theorem hasSiblings_iff : leaves.HasSiblings direction path count ↔ count = leaves.siblings direction path := by
  constructor
  · exact fun h => (siblings_eq h).symm
  · rintro rfl
    obtain ⟨count, hcount⟩ := exists_hasSiblings leaves direction path
    rwa [siblings_eq hcount]

/-! ## The search -/

/-- One step of the search from an element that was counted: on to the next one where it has a leaf, and to the end where it has none. The
count is a number of 32 bits. -/
def countOn? (leaves : Leaves) (direction : Path.Direction) (path : Path) (count : UInt32) : Option UInt32 :=
  if (path.advance? direction (count.toNat + 1)).any fun next => leaves.contains next.text then some (count + 1) else none

variable {counted next : UInt32}

/-- A step that goes on counts one more, and does not pass the number of siblings. -/
theorem countOn?_eq_some (hsize : leaves.size < 4294967295) (hle : counted.toNat ≤ leaves.siblings direction path)
    (h : leaves.countOn? direction path counted = some next) :
    next.toNat = counted.toNat + 1 ∧ next.toNat ≤ leaves.siblings direction path := by
  have hsiblings := hasSiblings_iff.2 (rfl : leaves.siblings direction path = _)
  have hbound := le_size_of_leaves hsiblings.leaf
  unfold countOn? at h
  split at h
  · rename_i hleaf
    obtain rfl := Option.some.inj h
    have hlt : counted.toNat ≠ leaves.siblings direction path := by
      intro heq
      obtain ⟨path', hpath, hcontains⟩ := (Option.any_eq_true _ _).1 hleaf
      rw [heq] at hpath
      rw [hsiblings.gap path' hpath] at hcontains
      cases hcontains
    have hnext : (counted + 1).toNat = counted.toNat + 1 := by
      rw [UInt32.toNat_add]
      exact Nat.mod_eq_of_lt (by change counted.toNat + 1 < 4294967296; omega)
    omega
  · cases h

/-- A step ends the search exactly when all siblings are counted. -/
theorem countOn?_eq_none_iff (hle : counted.toNat ≤ leaves.siblings direction path) :
    leaves.countOn? direction path counted = none ↔ counted.toNat = leaves.siblings direction path := by
  have hsiblings := hasSiblings_iff.2 (rfl : leaves.siblings direction path = _)
  unfold countOn?
  constructor
  · intro h
    split at h
    · cases h
    · rename_i hleaf
      by_contra hne
      obtain ⟨path', hpath, hcontains⟩ := hsiblings.leaf (counted.toNat + 1) (by omega) (by omega)
      exact hleaf ((Option.any_eq_true _ _).2 ⟨path', hpath, hcontains⟩)
  · intro heq
    rw [if_neg]
    intro hleaf
    obtain ⟨path', hpath, hcontains⟩ := (Option.any_eq_true _ _).1 hleaf
    rw [heq] at hpath
    rw [hsiblings.gap path' hpath] at hcontains
    cases hcontains

/-- What the search has counted is never more than the number of siblings. -/
theorem le_siblings_of_reaches (hsize : leaves.size < 4294967295)
    (h : StateTransition.Reaches (leaves.countOn? direction path) 0 counted) : counted.toNat ≤ leaves.siblings direction path := by
  induction h with
  | refl => exact Nat.zero_le _
  | tail _ hstep ih => exact (countOn?_eq_some hsize ih hstep).2

/-- From any count that it comes to the search goes on until all siblings are counted. -/
theorem exists_reaches_siblings (hsize : leaves.size < 4294967295) (hle : counted.toNat ≤ leaves.siblings direction path) :
    ∃ final, StateTransition.Reaches (leaves.countOn? direction path) counted final ∧
      final.toNat = leaves.siblings direction path := by
  induction hleft : leaves.siblings direction path - counted.toNat generalizing counted with
  | zero => exact ⟨counted, .refl, by omega⟩
  | succ left ih =>
    cases hnext : leaves.countOn? direction path counted with
    | none =>
      have hall := (countOn?_eq_none_iff hle).1 hnext
      omega
    | some next =>
      obtain ⟨hone, hle'⟩ := countOn?_eq_some hsize hle hnext
      obtain ⟨final, hreaches, hfinal⟩ := ih hle' (by omega)
      exact ⟨final, .head hnext hreaches, hfinal⟩

/-- Counting siblings comes to an end and is exact. The search for siblings of a path goes on one by one until all are counted, and its
count does not pass the largest number of 32 bits on the way; the number of siblings is the only number of which it is true that as many
steps further there are leaves, and one step more there is none; and there are not more siblings than leaves. -/
theorem sibling_count_ends (hsize : leaves.size < 4294967295) (direction : Path.Direction) (path : Path) :
    (∃ final ∈ StateTransition.eval (leaves.countOn? direction path) 0, final.toNat = leaves.siblings direction path) ∧
    (∀ counted next, StateTransition.Reaches (leaves.countOn? direction path) 0 counted →
      leaves.countOn? direction path counted = some next → next.toNat = counted.toNat + 1) ∧
    (∀ count, leaves.HasSiblings direction path count ↔ count = leaves.siblings direction path) ∧
    leaves.siblings direction path ≤ leaves.size := by
  refine ⟨?_, ?_, fun count => hasSiblings_iff, le_size_of_leaves (hasSiblings_iff.2 rfl).leaf⟩
  · have hzero : (0 : UInt32).toNat ≤ leaves.siblings direction path := Nat.zero_le _
    obtain ⟨final, hreaches, hfinal⟩ := exists_reaches_siblings hsize hzero
    refine ⟨final, StateTransition.mem_eval.2 ⟨hreaches, ?_⟩, hfinal⟩
    exact (countOn?_eq_none_iff (Nat.le_of_eq hfinal)).2 hfinal
  · intro counted next hreaches hnext
    exact (countOn?_eq_some hsize (le_siblings_of_reaches hsize hreaches) hnext).1

/-- Two values follow the first one, which is written with a leading zero. -/
theorem two_follow_first : (Leaves.ofValue (.map [("a", .list [.int 7, .int 8, .int 9])])).size < 4294967295 ∧
    (∃ final ∈ StateTransition.eval ((Leaves.ofValue (.map [("a", .list [.int 7, .int 8, .int 9])])).countOn? .down ⟨["a", "00"]⟩) 0,
      final.toNat = 2) ∧
    (Leaves.ofValue (.map [("a", .list [.int 7, .int 8, .int 9])])).HasSiblings .down ⟨["a", "00"]⟩ 2 := by
  have hsize : (Leaves.ofValue (.map [("a", .list [.int 7, .int 8, .int 9])])).size < 4294967295 := by decide +kernel
  obtain ⟨hends, -, hexact, -⟩ := sibling_count_ends hsize .down ⟨["a", "00"]⟩
  have hsiblings : (Leaves.ofValue (.map [("a", .list [.int 7, .int 8, .int 9])])).siblings .down ⟨["a", "00"]⟩ = 2 := by decide +kernel
  rw [hsiblings] at hends
  exact ⟨hsize, hends, (hexact 2).2 hsiblings.symm⟩

end Leaves
end SheetTemplate

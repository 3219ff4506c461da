import SheetTemplate.Proofs.KeysBelow
import SheetTemplate.Proofs.PathResolution

/-!
# Paths that are followed straight

Following segments goes into first elements as far as there are any, before the next segment is looked at. A path that leads on straight
is followed to its end all the same (`Straight.exists_follow_written`): what the descent took in advance are the positions 0 that come
next in the path, and these are skipped when they are met. They may be written as wildcards, as long as none of the wildcards is itself
found where the descent has ended.
-/

namespace SheetTemplate

/-! ## First elements -/

namespace Path

/-- The segments that lead to the first element of a list, to its first element, and so on `count` times. -/
def zeros (count : Nat) : List String := List.replicate count "0"

theorem append_zeros_zero (segments : List String) : segments ++ zeros 0 = segments := by
  rw [zeros, List.replicate_zero, List.append_nil]

theorem append_zeros_succ (segments : List String) (count : Nat) : segments ++ zeros (count + 1) = segments ++ ["0"] ++ zeros count :=
  List.append_cons _ _ _

theorem append_zeros_succ' (segments : List String) (count : Nat) : segments ++ zeros (count + 1) = segments ++ zeros count ++ ["0"] := by
  rw [zeros, List.replicate_succ', ← List.append_assoc, zeros]

/-- Wildcards put in for positions 0 are read as these positions again. -/
theorem grounded_generalized_eq (p : Path) : p.generalized.grounded = p.grounded := by
  obtain ⟨segments⟩ := p
  cases segments with
  | nil => rfl
  | cons root below =>
    simp only [generalized, grounded, List.map_cons, List.map_map, Path.mk.injEq, List.cons.injEq, true_and]
    refine List.map_congr_left fun s _ => ?_
    rw [Function.comp_apply]
    by_cases hzero : s = "0"
    · rw [if_pos hzero, hzero]
      rfl
    · rw [if_neg hzero]

/-- Without wildcards a path is read back from the one that has them for its positions 0. -/
theorem grounded_generalized {p : Path} (h : p.hasWildcard = false) : p.generalized.grounded = p := by
  rw [grounded_generalized_eq, grounded_of_not_hasWildcard h]

/-- Whether a segment is written for another: it is that segment, or a wildcard for a position 0. -/
def Writes (segment next : String) : Prop := segment = next ∨ segment = wildcard ∧ next = "0"

/-- Whether segments stand for others: they begin like them, and each is written for the one at its place. -/
def StandsFor (written named : List String) : Prop := written.head? = named.head? ∧ List.Forall₂ Writes written named

theorem StandsFor.refl (named : List String) : StandsFor named named := ⟨rfl, List.forall₂_same.2 fun _ _ => Or.inl rfl⟩

/-- Whether segments are read back from the text of their path, and can be joined to another one. -/
def IsSpelled (segments : List String) : Prop := (∀ s, segments.head? = some s → s ≠ "") ∧ ∀ s ∈ segments, '.' ∉ s.toList

theorem IsSpelled.of_append {front rest : List String} (h : IsSpelled (front ++ rest)) : IsSpelled front := by
  refine ⟨fun s hs => h.1 s ?_, fun s hs => h.2 s (List.mem_append_left _ hs)⟩
  rw [List.head?_append, hs, Option.some_or]

/-- The segments of a path that can stand in a marker are spelled. -/
theorem isSpelled_of_admits {p : Path} (h : Marker.admits p = true) : IsSpelled p.segments := by
  obtain ⟨hname, hdot⟩ := Marker.names_of_admits h
  exact ⟨fun s hs => hname s (List.mem_of_head? hs), hdot⟩

theorem IsSpelled.concat {segments : List String} (h : IsSpelled segments) {next : String} (hname : segments = [] → next ≠ "")
    (hdot : '.' ∉ next.toList) : IsSpelled (segments ++ [next]) := by
  constructor
  · intro s hs
    cases segments with
    | nil =>
      obtain rfl := Option.some.inj hs
      exact hname rfl
    | cons first rest => exact h.1 s hs
  · intro s hs
    rcases List.mem_append.1 hs with hs | hs
    · exact h.2 s hs
    · rw [List.mem_singleton.1 hs]
      exact hdot

/-- With wildcards read as 0 segments are still spelled. -/
theorem IsSpelled.grounded {p : Path} (h : IsSpelled p.segments) : IsSpelled p.grounded.segments := by
  constructor
  · intro t ht
    rw [Path.grounded, List.head?_map, Option.map_eq_some_iff] at ht
    obtain ⟨s, hs, rfl⟩ := ht
    split
    · decide
    · exact h.1 s hs
  · intro t ht
    obtain ⟨s, hs, rfl⟩ := List.mem_map.1 ht
    split
    · decide
    · exact h.2 s hs

theorem IsSpelled.append_zero {segments : List String} (h : IsSpelled segments) : IsSpelled (segments ++ ["0"]) :=
  h.concat (fun _ => by decide) (by decide)

theorem IsSpelled.append_zeros {segments : List String} (h : IsSpelled segments) (count : Nat) :
    IsSpelled (segments ++ zeros count) := by
  induction count with
  | zero => rwa [append_zeros_zero]
  | succ count ih =>
    rw [append_zeros_succ']
    exact ih.append_zero

end Path

namespace Leaves

open SheetTemplate.Path (zeros IsSpelled)

/-! ## The descent -/

/-- Steps into first elements end after `count` of them: no leaf is passed, and from the last place there is none to take. -/
structure EndsAfter (leaves : Leaves) (start : List String) (count : Nat) : Prop where
  passed : ∀ m < count, leaves.isLeafAt (start ++ zeros m) = false ∧ leaves.reachesBy (start ++ zeros m) "0" = true
  ended : leaves.isLeafAt (start ++ zeros count) = true ∨ leaves.reachesBy (start ++ zeros count) "0" = false

variable {leaves : Leaves} {start : List String} {count : Nat} {payload : Value}

/-- No step is taken from a leaf, and from a place without a first element. -/
theorem EndsAfter.zero (h : leaves.isLeafAt start = true ∨ leaves.reachesBy start "0" = false) : leaves.EndsAfter start 0 := by
  refine ⟨fun _ hm => absurd hm (Nat.not_lt_zero _), ?_⟩
  rw [Path.append_zeros_zero]
  exact h

/-- A step more, taken at the start. -/
theorem EndsAfter.succ (h : leaves.EndsAfter (start ++ ["0"]) count) (hleaf : leaves.isLeafAt start = false)
    (hreach : leaves.reachesBy start "0" = true) : leaves.EndsAfter start (count + 1) := by
  refine ⟨fun m hm => ?_, by rw [Path.append_zeros_succ]; exact h.ended⟩
  cases m with
  | zero =>
    rw [Path.append_zeros_zero]
    exact ⟨hleaf, hreach⟩
  | succ m =>
    rw [Path.append_zeros_succ]
    exact h.passed m (by omega)

/-- The steps behind the first one. -/
theorem EndsAfter.tail (h : leaves.EndsAfter start (count + 1)) : leaves.EndsAfter (start ++ ["0"]) count := by
  refine ⟨fun m hm => ?_, by rw [← Path.append_zeros_succ]; exact h.ended⟩
  rw [← Path.append_zeros_succ]
  exact h.passed (m + 1) (by omega)

/-- A step is taken only where there is a first element. -/
theorem EndsAfter.reachesBy (h : leaves.EndsAfter start (count + 1)) : leaves.reachesBy start "0" = true := by
  have hreach := (h.passed 0 (Nat.succ_pos _)).2
  rwa [Path.append_zeros_zero] at hreach

/-- Behind a place from which no segment leads on there is no leaf. -/
theorem isLeafAt_append_eq_false (hspelled : IsSpelled start) {segment : String}
    (hreach : (ofValue payload).reachesBy start segment = false) (rest : List String) :
    (ofValue payload).isLeafAt (start ++ segment :: rest) = false := by
  rw [reachesBy_eq hspelled.1, Bool.eq_false_iff] at hreach
  rw [Bool.eq_false_iff]
  intro hleaf
  have hne : start ++ [segment] ≠ [] := by simp
  refine hreach (reaches_iff.2 ⟨_, hleaf, ?_⟩)
  rw [List.append_cons start segment rest]
  exact atOrBelow_append hne rest

/-- Where the steps end at no leaf, there is none to be reached by them. -/
theorem EndsAfter.isLeafAt_eq_false (h : (ofValue payload).EndsAfter start count) (hspelled : IsSpelled start)
    (hleaf : (ofValue payload).isLeafAt (start ++ zeros count) = false) (m : Nat) :
    (ofValue payload).isLeafAt (start ++ zeros m) = false := by
  rcases Nat.lt_trichotomy m count with hm | rfl | hm
  · exact (h.passed m hm).1
  · exact hleaf
  · have hstuck : (ofValue payload).reachesBy (start ++ zeros count) "0" = false :=
      h.ended.resolve_left fun hend => by simp [hleaf] at hend
    have hmore : zeros m = zeros count ++ "0" :: zeros (m - count - 1) := by
      rw [zeros, zeros, zeros, ← List.replicate_succ, List.replicate_append_replicate]
      congr 1
      omega
    rw [hmore, ← List.append_assoc]
    exact isLeafAt_append_eq_false (hspelled.append_zeros count) hstuck _

/-- The descent takes all first elements that there are, as no leaf lies deeper than it may go. -/
theorem exists_descend (hne : start ≠ []) (hspelled : IsSpelled start) {steps : Nat}
    (hsteps : (ofValue payload).depth ≤ start.length + steps) :
    ∃ count, (ofValue payload).descend steps start = start ++ zeros count ∧ (ofValue payload).EndsAfter start count := by
  induction steps generalizing start with
  | zero =>
    refine ⟨0, by rw [descend, Path.append_zeros_zero], .zero (Or.inr ?_)⟩
    rw [Bool.eq_false_iff, ne_eq, reachesBy_eq hspelled.1]
    intro hreach
    have hlength := length_le_depth_of_reaches hreach
    rw [Path.ofText_text (by simp) hspelled.append_zero.2, List.length_append] at hlength
    simp only [List.length_singleton] at hlength
    omega
  | succ steps ih =>
    by_cases hend : (ofValue payload).isLeafAt start = true ∨ (ofValue payload).reachesBy start "0" = false
    · exact ⟨0, by rw [descend_eq_self hend, Path.append_zeros_zero], .zero hend⟩
    · obtain ⟨hleaf, hreach⟩ : (ofValue payload).isLeafAt start = false ∧ (ofValue payload).reachesBy start "0" = true := by
        simpa using hend
      have hlength : (ofValue payload).depth ≤ (start ++ ["0"]).length + steps := by
        rw [List.length_append, List.length_singleton]
        omega
      obtain ⟨count, hdescend, hafter⟩ := ih (by simp) hspelled.append_zero hlength
      refine ⟨count + 1, ?_, hafter.succ hleaf hreach⟩
      rw [descend_succ hne hleaf hreach, hdescend, Path.append_zeros_succ]

/-! ## Paths that are followed straight -/

/-- Whether a path leads on straight: it passes no leaf, and where another segment than 0 follows there is no first element. -/
def Straight (leaves : Leaves) (path : Path) : Prop :=
  ∀ front next rest, path.segments = front ++ next :: rest → front ≠ [] →
    leaves.isLeafAt front = false ∧ (next ≠ "0" → leaves.reachesBy front "0" = false)

variable {path : Path} {done : List String}

/-- Where the descent ends at a leaf, the positions that it took ahead are those that follow in the path. -/
theorem Straight.exists_ahead (h : leaves.Straight path) {rest : List String} (hpath : path.segments = done ++ rest) (hne : done ≠ [])
    (hafter : leaves.EndsAfter done count) (hleaf : leaves.isLeafAt (done ++ zeros count) = true) :
    ∃ further, done ++ zeros count = path.segments ++ zeros further ∧ leaves.EndsAfter path.segments further := by
  induction rest generalizing done count with
  | nil =>
    rw [List.append_nil] at hpath
    exact ⟨count, by rw [hpath], hpath ▸ hafter⟩
  | cons next rest ih =>
    obtain ⟨hnot, hzero⟩ := h done next rest hpath hne
    cases count with
    | zero =>
      rw [Path.append_zeros_zero, hnot] at hleaf
      cases hleaf
    | succ count =>
      obtain rfl : next = "0" := by
        by_contra hnext
        have hnone := hzero hnext
        rw [hafter.reachesBy] at hnone
        cases hnone
      rw [Path.append_zeros_succ] at hleaf ⊢
      exact ih (by simp [hpath]) (by simp) hafter.tail hleaf

/-- Whether none of the wildcards written for positions is taken for a key: nothing is found at `*` where first elements end that are
taken from such a position, unless they end at a leaf. -/
def Clear (leaves : Leaves) (written named : List String) : Prop :=
  ∀ start rest count, start ≠ [] → named = start ++ "0" :: rest → written[start.length]? = some Path.wildcard →
    leaves.EndsAfter start count → leaves.isLeafAt (start ++ zeros count) = false →
      leaves.reachesBy (start ++ zeros count) Path.wildcard = false

/-- Without wildcards for positions there is none to be taken for a key. -/
theorem clear_self (leaves : Leaves) (named : List String) : leaves.Clear named named := by
  rintro start rest count - rfl hwildcard
  simp [Path.wildcard] at hwildcard

/-- The same for segments that are still to come when those of `done` are behind them. -/
def ClearFrom (leaves : Leaves) (done written named : List String) : Prop :=
  ∀ middle rest count, done ++ middle ≠ [] → named = middle ++ "0" :: rest → written[middle.length]? = some Path.wildcard →
    leaves.EndsAfter (done ++ middle) count → leaves.isLeafAt (done ++ middle ++ zeros count) = false →
      leaves.reachesBy (done ++ middle ++ zeros count) Path.wildcard = false

section ClearFrom

variable {segment next : String} {written named : List String}

theorem clearFrom_nil : leaves.ClearFrom [] written named ↔ leaves.Clear written named := Iff.rfl

/-- A wildcard that comes next is not taken for a key. -/
theorem ClearFrom.head (h : leaves.ClearFrom done (Path.wildcard :: written) ("0" :: named)) (hne : done ≠ [])
    (hafter : leaves.EndsAfter done count) (hleaf : leaves.isLeafAt (done ++ zeros count) = false) :
    leaves.reachesBy (done ++ zeros count) Path.wildcard = false := by
  have hhead := h [] named count
  rw [List.append_nil] at hhead
  exact hhead hne rfl rfl hafter hleaf

/-- The segments behind the first one. -/
theorem ClearFrom.tail (h : leaves.ClearFrom done (segment :: written) (next :: named)) :
    leaves.ClearFrom (done ++ [next]) written named := by
  rintro middle rest count - rfl
  rw [← List.append_cons]
  exact h (next :: middle) rest count (by simp) rfl

/-- A segment more, with no wildcard that is taken for a key. -/
theorem ClearFrom.cons (h : leaves.ClearFrom (done ++ [next]) written named)
    (hhead : segment = Path.wildcard → next = "0" → done ≠ [] → ∀ count, leaves.EndsAfter done count →
      leaves.isLeafAt (done ++ zeros count) = false → leaves.reachesBy (done ++ zeros count) Path.wildcard = false) :
    leaves.ClearFrom done (segment :: written) (next :: named) := by
  intro middle rest count hne hnamed hwildcard hafter hleaf
  cases middle with
  | nil =>
    rw [List.append_nil] at hne hafter hleaf ⊢
    exact hhead (Option.some.inj hwildcard) (List.cons.inj hnamed).1 hne count hafter hleaf
  | cons name middle =>
    obtain ⟨rfl, hbelow⟩ := List.cons.inj hnamed
    rw [List.append_cons] at hafter hleaf ⊢
    exact h middle rest count (by simp) hbelow hwildcard hafter hleaf

end ClearFrom

/-- Where following segments stands when those of `done` are behind it: at the start, or at the last of `count` first elements. -/
inductive Ahead (leaves : Leaves) : List String → Nat → Prop
  | start : Ahead leaves [] 0
  | below {done : List String} {count : Nat} (ne_nil : done ≠ []) (after : leaves.EndsAfter done count)
      (no_leaf : leaves.isLeafAt (done ++ zeros count) = false) : Ahead leaves done count

/-- A segment that is written for the next one is that one, or a wildcard that is skipped. -/
theorem followed_or_skipped {segment next : String} (hwrites : Path.Writes segment next) (hhead : done = [] → segment = next)
    (hskipped : done ≠ [] → segment = Path.wildcard → next = "0" → leaves.reachesBy (done ++ zeros count) segment = false) :
    segment = next ∨ done ≠ [] ∧ next = "0" ∧ leaves.reachesBy (done ++ zeros count) segment = false := by
  by_cases hne : done = []
  · exact Or.inl (hhead hne)
  · exact hwrites.imp_right fun h => ⟨hne, h.2, hskipped hne h.1 h.2⟩

/-- Following one segment of a straight path. Where the descent is ahead, the path goes on with a position that it took, and the segment
is skipped. -/
theorem Straight.exists_here (h : (ofValue payload).Straight path) (hspelled : IsSpelled path.segments)
    (hreach : (ofValue payload).reaches path.text = true) {segment next : String} {rest : List String}
    (hpath : path.segments = done ++ next :: rest) (hahead : (ofValue payload).Ahead done count)
    (hsegment : segment = next ∨ done ≠ [] ∧ next = "0" ∧ (ofValue payload).reachesBy (done ++ zeros count) segment = false) :
    ∃ further, (ofValue payload).descend (ofValue payload).depth
        (if (ofValue payload).reachesBy (done ++ zeros count) segment then done ++ zeros count ++ [segment] else done ++ zeros count) =
        done ++ [next] ++ zeros further ∧ (ofValue payload).EndsAfter (done ++ [next]) further := by
  have hdone : IsSpelled done := (hpath ▸ hspelled).of_append
  have hpath' : path.segments = done ++ [next] ++ rest := hpath.trans (List.append_cons _ _ _)
  have hnext : (ofValue payload).reachesBy done next = true := by
    rw [reachesBy_eq hdone.1]
    have hne : done ++ [next] ≠ [] := by simp
    have hbelow := atOrBelow_append hne rest
    rw [← hpath'] at hbelow
    exact reaches_of_atOrBelow hbelow hreach
  cases count with
  | zero =>
    rw [Path.append_zeros_zero] at hsegment ⊢
    obtain rfl : segment = next := by
      rcases hsegment with hsame | ⟨hne, rfl, -⟩
      · exact hsame
      · cases hahead with
        | start => exact absurd rfl hne
        | below _ hafter hleaf =>
          have hstuck := hafter.ended.resolve_left (by simp [hleaf])
          rw [Path.append_zeros_zero, hnext] at hstuck
          cases hstuck
    rw [hnext, if_pos rfl]
    exact exists_descend (by simp) (hpath' ▸ hspelled).of_append (Nat.le_add_left _ _)
  | succ count =>
    cases hahead with
    | below hne hafter hleaf =>
      obtain rfl : next = "0" := by
        by_contra hname
        have hzero := (h done next rest hpath hne).2 hname
        rw [hafter.reachesBy] at hzero
        cases hzero
      have hstuck := hafter.ended.resolve_left (by simp [hleaf])
      have hskipped : (ofValue payload).reachesBy (done ++ zeros (count + 1)) segment = false := by
        rcases hsegment with rfl | ⟨-, -, hskipped⟩
        · exact hstuck
        · exact hskipped
      refine ⟨count, ?_, hafter.tail⟩
      rw [hskipped, if_neg Bool.false_ne_true, descend_eq_self (Or.inr hstuck), Path.append_zeros_succ]

/-- The same for all segments that are still to come. -/
theorem Straight.exists_follow_from (h : (ofValue payload).Straight path) (hspelled : IsSpelled path.segments)
    (hreach : (ofValue payload).reaches path.text = true) {todo rest : List String} (hwritten : List.Forall₂ Path.Writes todo rest)
    (hpath : path.segments = done ++ rest) (hne : rest ≠ []) (hhead : done = [] → todo.head? = rest.head?)
    (hahead : (ofValue payload).Ahead done count) (hclear : (ofValue payload).ClearFrom done todo rest) :
    ∃ further, (ofValue payload).follow (done ++ zeros count) todo = path.segments ++ zeros further ∧
      (ofValue payload).EndsAfter path.segments further := by
  induction hwritten generalizing done count with
  | nil => exact absurd rfl hne
  | @cons segment next todo rest hwrites hrest ih =>
    have hsegment := followed_or_skipped hwrites (fun hnil => Option.some.inj (hhead hnil)) fun hdone hstar hzero => by
      cases hahead with
      | start => exact absurd rfl hdone
      | below _ hafter hleaf =>
        rw [hstar, hzero] at hclear
        rw [hstar]
        exact hclear.head hdone hafter hleaf
    obtain ⟨further, hhere, hafter⟩ := h.exists_here hspelled hreach hpath hahead hsegment
    have hpath' : path.segments = done ++ [next] ++ rest := hpath.trans (List.append_cons _ _ _)
    rw [follow_cons (by simp) hhere]
    split
    · rename_i hleaf
      exact h.exists_ahead hpath' (by simp) hafter hleaf
    · rename_i hleaf
      cases rest with
      | nil =>
        obtain rfl := List.forall₂_nil_right_iff.1 hrest
        rw [List.append_nil] at hpath'
        exact ⟨further, by rw [follow, hpath'], hpath' ▸ hafter⟩
      | cons more rest =>
        exact ih hpath' (List.cons_ne_nil _ _) (fun hnil => absurd hnil (by simp))
          (.below (by simp) hafter (Bool.eq_false_iff.2 hleaf)) hclear.tail

/-- A straight path that leads towards a leaf is followed to its end and from there into first elements, also where wildcards are
written for its positions. -/
theorem Straight.exists_follow_written (h : (ofValue payload).Straight path) (hspelled : IsSpelled path.segments)
    (hne : path.segments ≠ []) (hreach : (ofValue payload).reaches path.text = true) {written : List String}
    (hwritten : Path.StandsFor written path.segments) (hclear : (ofValue payload).Clear written path.segments) :
    ∃ count, (ofValue payload).follow [] written = path.segments ++ zeros count ∧
      (ofValue payload).EndsAfter path.segments count :=
  h.exists_follow_from hspelled hreach hwritten.2 rfl hne (fun _ => hwritten.1) .start (clearFrom_nil.2 hclear)

end Leaves
end SheetTemplate

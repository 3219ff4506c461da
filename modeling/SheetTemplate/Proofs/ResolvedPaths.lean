import SheetTemplate.Proofs.StraightPaths

/-!
# Resolved paths

What a path is resolved to. The segments that are followed make up a straight path (`Followed.follow`). So a path that was resolved is
followed to the same leaf once more, as the wildcards that were put in are skipped, and stays as it is
(`NoWildcardKeys.resolve?_resolved`).

A path may name a leaf when its wildcards are read as 0. It is resolved to this leaf only if it leads there directly
(`named_leaf_kept_iff`): the descent into first elements does not look at the positions that are written behind a wildcard
(`second_column_lost`).
-/

namespace SheetTemplate

namespace Path

/-- A path is written with wildcards for its positions 0. -/
theorem standsFor_generalized {p : Path} (h : p.hasWildcard = false) : StandsFor p.generalized.segments p.segments := by
  obtain ⟨segments⟩ := p
  cases segments with
  | nil => exact .refl []
  | cons root below =>
    refine ⟨rfl, .cons (Or.inl rfl) (List.forall₂_map_left_iff.2 (List.forall₂_same.2 fun s _ => ?_))⟩
    by_cases hzero : s = "0"
    · exact Or.inr ⟨if_pos hzero, hzero⟩
    · exact Or.inl (if_neg hzero)

/-- A path that does not begin with a wildcard stands for the path of the first element. -/
theorem standsFor_grounded {p : Path} (h : ∀ name, p.segments.head? = some name → name ≠ wildcard) :
    StandsFor p.segments p.grounded.segments := by
  obtain ⟨segments⟩ := p
  constructor
  · cases segments with
    | nil => rfl
    | cons root below => exact (congrArg some (if_neg (h root rfl))).symm
  · refine List.forall₂_map_right_iff.2 (List.forall₂_same.2 fun s _ => ?_)
    by_cases hwildcard : s = wildcard
    · exact Or.inr ⟨hwildcard, if_pos hwildcard⟩
    · exact Or.inl (if_neg hwildcard).symm

end Path

namespace Leaves

open SheetTemplate.Path (zeros IsSpelled)

variable {leaves : Leaves} {payload : Value} {segments found todo start : List String} {next : String} {count : Nat} {path q : Path}

/-- No step is taken from a leaf. -/
theorem EndsAfter.eq_zero (h : leaves.EndsAfter start count) (hleaf : leaves.isLeafAt start = true) : count = 0 := by
  by_contra hne
  have hpassed := (h.passed 0 (Nat.pos_of_ne_zero hne)).1
  rw [Path.append_zeros_zero, hleaf] at hpassed
  cases hpassed

/-- The descent ends at one place. -/
theorem EndsAfter.unique {count' : Nat} (h : leaves.EndsAfter start count) (h' : leaves.EndsAfter start count') : count = count' := by
  have hle : ∀ {a b : Nat}, leaves.EndsAfter start a → leaves.EndsAfter start b → b ≤ a := by
    intro a b ha hb
    by_contra hlt
    obtain ⟨hleaf, hreach⟩ := hb.passed a (by omega)
    rcases ha.ended with hend | hend
    · rw [hend] at hleaf
      cases hleaf
    · rw [hend] at hreach
      cases hreach
  exact Nat.le_antisymm (hle h' h) (hle h h')

/-! ## What following segments leads to -/

/-- From the start no first element is taken. -/
theorem descend_nil (steps : Nat) : leaves.descend steps [] = [] := by
  cases steps with
  | zero => rfl
  | succ steps => rw [descend, if_neg fun hgo => hgo.1 rfl]

theorem isPrefix_descend (leaves : Leaves) (steps : Nat) (found : List String) : found <+: leaves.descend steps found := by
  obtain ⟨below, hbelow, -⟩ := leaves.exists_descend_append steps found
  exact ⟨below, hbelow.symm⟩

/-- Following segments only adds to what is found. -/
theorem isPrefix_follow (leaves : Leaves) (found todo : List String) : found <+: leaves.follow found todo := by
  obtain ⟨below, hbelow, -⟩ := leaves.exists_follow_append found todo
  exact ⟨below, hbelow.symm⟩

/-- A segment that leads towards a leaf is among what is found. -/
theorem append_isPrefix_follow {segment : String} (h : leaves.reachesBy found segment = true) (todo : List String) :
    found ++ [segment] <+: leaves.follow found (segment :: todo) := by
  have hhere := isPrefix_descend leaves leaves.depth (found ++ [segment])
  rw [follow, h, if_pos rfl]
  split
  · exact hhere
  · exact hhere.trans (isPrefix_follow _ _ _)

/-- What is found when segments are followed: a straight path made of some of them and of positions 0. -/
structure Followed (leaves : Leaves) (segments found : List String) : Prop where
  spelled : IsSpelled found
  straight : leaves.Straight ⟨found⟩
  among : ∀ s ∈ found, s ∈ segments ∨ s = "0"

theorem Followed.nil (leaves : Leaves) (segments : List String) : leaves.Followed segments [] := by
  refine ⟨⟨nofun, nofun⟩, fun front next rest hpath => ?_, nofun⟩
  exact absurd hpath.symm (by simp)

/-- One more segment leads on straight from a place that is no leaf, if it is 0 or there is no first element. -/
theorem Followed.concat (h : leaves.Followed segments found)
    (hrest : found ≠ [] → leaves.isLeafAt found = false ∧ (next ≠ "0" → leaves.reachesBy found "0" = false))
    (hmem : next ∈ segments ∨ next = "0") (hname : found = [] → next ≠ "") (hdot : '.' ∉ next.toList) :
    leaves.Followed segments (found ++ [next]) := by
  refine ⟨h.spelled.concat hname hdot, ?_, ?_⟩
  · intro front other rest hpath hne
    rcases List.eq_nil_or_concat rest with rfl | ⟨rest, last, rfl⟩
    · obtain ⟨rfl, hlast⟩ := List.append_inj' hpath rfl
      obtain rfl := (List.cons.inj hlast).1
      exact hrest hne
    · rw [List.concat_eq_append, ← List.cons_append, ← List.append_assoc] at hpath
      obtain ⟨hfound, -⟩ := List.append_inj' hpath rfl
      exact h.straight front other rest hfound hne
  · intro s hs
    rcases List.mem_append.1 hs with hs | hs
    · exact h.among s hs
    · rw [List.mem_singleton.1 hs]
      exact hmem

/-- First elements lead on straight. -/
theorem Followed.append_zeros (h : leaves.Followed segments start) (hne : start ≠ []) (hafter : leaves.EndsAfter start count) :
    leaves.Followed segments (start ++ zeros count) := by
  have hsteps : ∀ m ≤ count, leaves.Followed segments (start ++ zeros m) := by
    intro m hm
    induction m with
    | zero => rwa [Path.append_zeros_zero]
    | succ m ih =>
      rw [Path.append_zeros_succ']
      refine (ih (by omega)).concat (fun _ => ⟨(hafter.passed m hm).1, fun hzero => absurd rfl hzero⟩) (Or.inr rfl) ?_ (by decide)
      exact fun hnil => absurd (List.append_eq_nil_iff.1 hnil).1 hne
  exact hsteps count (Nat.le_refl count)

/-- A segment that leads towards a leaf is followed, and behind it first elements are taken. -/
theorem exists_follow_cons {segment : String} (hspelled : IsSpelled (found ++ [segment]))
    (hreach : (ofValue payload).reachesBy found segment = true) (todo : List String) :
    ∃ count, (ofValue payload).EndsAfter (found ++ [segment]) count ∧ (ofValue payload).follow found (segment :: todo) =
      if (ofValue payload).isLeafAt (found ++ [segment] ++ zeros count) then found ++ [segment] ++ zeros count
      else (ofValue payload).follow (found ++ [segment] ++ zeros count) todo := by
  obtain ⟨count, hdescend, hafter⟩ := exists_descend (by simp) hspelled (Nat.le_add_left (ofValue payload).depth _)
  exact ⟨count, hafter, follow_cons (by simp) (by rw [hreach, if_pos rfl, hdescend]) todo⟩

/-- A segment that leads nowhere is skipped, at the start and where no first element is left. -/
theorem follow_cons_of_not {segment : String} (hreach : leaves.reachesBy found segment = false)
    (hrest : found ≠ [] → leaves.isLeafAt found = false ∧ leaves.reachesBy found "0" = false) (todo : List String) :
    leaves.follow found (segment :: todo) = leaves.follow found todo := by
  by_cases hnil : found = []
  · subst hnil
    rw [follow, hreach, if_neg Bool.false_ne_true]
    simp only [descend_nil]
    exact if_neg fun hstop => hstop.1 rfl
  · obtain ⟨hleaf, hzero⟩ := hrest hnil
    have hhere : leaves.descend leaves.depth (if leaves.reachesBy found segment then found ++ [segment] else found) = found := by
      rw [hreach, if_neg Bool.false_ne_true]
      exact descend_eq_self (Or.inr hzero) _
    rw [follow_cons hnil hhere, hleaf, if_neg Bool.false_ne_true]

/-- What following segments finds leads on straight, if it goes on from where no first element is left. At the start an empty segment may
come only behind one that leads towards a leaf. -/
theorem Followed.follow (h : (ofValue payload).Followed segments found)
    (hrest : found ≠ [] → (ofValue payload).isLeafAt found = false ∧ (ofValue payload).reachesBy found "0" = false)
    (hmem : ∀ s ∈ todo, s ∈ segments) (hdot : ∀ s ∈ todo, '.' ∉ s.toList)
    (hname : found = [] → ∀ front rest, todo = front ++ "" :: rest → ∃ s ∈ front, (ofValue payload).reachesBy [] s = true) :
    (ofValue payload).Followed segments ((ofValue payload).follow found todo) := by
  induction todo generalizing found with
  | nil => exact h
  | cons segment todo ih =>
    have hmem' : ∀ s ∈ todo, s ∈ segments := fun s hs => hmem s (List.mem_cons_of_mem _ hs)
    have hdot' : ∀ s ∈ todo, '.' ∉ s.toList := fun s hs => hdot s (List.mem_cons_of_mem _ hs)
    cases hreach : (ofValue payload).reachesBy found segment with
    | false =>
      rw [follow_cons_of_not hreach hrest]
      refine ih h hrest hmem' hdot' fun hnil front rest htodo => ?_
      obtain ⟨s, hs, hleads⟩ := hname hnil (segment :: front) rest (by rw [htodo, List.cons_append])
      rcases List.mem_cons.1 hs with rfl | hs
      · rw [hnil, hleads] at hreach
        cases hreach
      · exact ⟨s, hs, hleads⟩
    | true =>
      have hhere : (ofValue payload).Followed segments (found ++ [segment]) := by
        refine h.concat (fun hne => ⟨(hrest hne).1, fun _ => (hrest hne).2⟩) (Or.inl (hmem segment List.mem_cons_self)) ?_
          (hdot segment List.mem_cons_self)
        rintro hnil rfl
        obtain ⟨_, hs, -⟩ := hname hnil [] todo rfl
        cases hs
      obtain ⟨count, hafter, hfollow⟩ := exists_follow_cons hhere.spelled hreach todo
      have hfollowed := hhere.append_zeros (by simp) hafter
      rw [hfollow]
      split
      · exact hfollowed
      · rename_i hleaf
        have hstuck := hafter.ended.resolve_left hleaf
        exact ih hfollowed (fun _ => ⟨Bool.eq_false_iff.2 hleaf, hstuck⟩) hmem' hdot' fun hnil => absurd hnil (by simp)

/-! ## Resolving twice -/

/-- A path is resolved to the leaf that its segments are followed to, unless it is a leaf itself or written like that already. -/
theorem resolve?_eq_some_iff : leaves.resolve? path = some q ↔ leaves.contains path.text = false ∧
    leaves.isLeafAt (leaves.follow [] path.segments) = true ∧ (Path.mk (leaves.follow [] path.segments)).generalized = q ∧ q ≠ path := by
  rw [resolve?]
  cases leaves.contains path.text with
  | true => simp
  | false =>
    simp only [Bool.false_eq_true, if_false, Option.ite_none_right_eq_some, Option.some.injEq, true_and]
    constructor
    · rintro ⟨⟨hleaf, hlong⟩, rfl⟩
      exact ⟨hleaf, rfl, hlong⟩
    · rintro ⟨hleaf, rfl, hlong⟩
      exact ⟨⟨hleaf, hlong⟩, rfl⟩

/-- Whether no key has a segment that is a wildcard. -/
def NoWildcardKeys (leaves : Leaves) : Prop := ∀ key, leaves.contains key = true → (Path.ofText key).hasWildcard = false

theorem noWildcardKeys_iff :
    leaves.NoWildcardKeys ↔ leaves.entries.keys.all (fun key => !(Path.ofText key).hasWildcard) = true := by
  simp only [List.all_eq_true, Bool.not_eq_true']
  refine forall_congr' fun key => imp_congr_left ?_
  rw [contains_eq_true_iff, SortedMap.mem_keys_iff]
  rfl

instance : Decidable leaves.NoWildcardKeys := decidable_of_iff' _ noWildcardKeys_iff

/-- Without wildcards in keys no wildcard is found. -/
theorem NoWildcardKeys.reachesBy_wildcard (h : (ofValue payload).NoWildcardKeys) (hspelled : IsSpelled found) :
    (ofValue payload).reachesBy found Path.wildcard = false := by
  have hspelled' : IsSpelled (found ++ [Path.wildcard]) := hspelled.concat (fun _ => by decide) (by decide)
  rw [reachesBy_eq hspelled.1, Bool.eq_false_iff]
  intro hreach
  obtain ⟨key, hkey, hbelow⟩ := reaches_iff.1 hreach
  obtain ⟨rest, hsegments⟩ := hbelow.exists_segments
  have hnot := h key hkey
  rw [Path.ofText_text (by simp) hspelled'.2] at hsegments
  rw [Path.hasWildcard, hsegments, Bool.eq_false_iff] at hnot
  exact hnot (List.contains_iff_mem.2 (by simp))

/-- Without wildcards in keys no leaf is found by one. -/
theorem NoWildcardKeys.hasWildcard (h : leaves.NoWildcardKeys) (hspelled : IsSpelled found) (hleaf : leaves.isLeafAt found = true) :
    (Path.mk found).hasWildcard = false := by
  by_cases hnil : found = []
  · rw [hnil]
    rfl
  · have hnot := h _ hleaf
    rwa [Path.ofText_text hnil hspelled.2] at hnot

/-- Following the segments of a path finds segments that lead on straight, if none of them is empty. -/
theorem followed_of_names (hname : ∀ s ∈ path.segments, s ≠ "") (hdot : ∀ s ∈ path.segments, '.' ∉ s.toList) :
    (ofValue payload).Followed path.segments ((ofValue payload).follow [] path.segments) :=
  (Followed.nil _ _).follow (fun hne => absurd rfl hne) (fun _ => id) hdot
    fun _ front rest hsegments => absurd rfl (hname "" (by rw [hsegments]; simp))

/-- A path that was resolved stays as it is when it is resolved again. -/
theorem NoWildcardKeys.resolve?_resolved (h : (ofValue payload).NoWildcardKeys) (hname : ∀ s ∈ path.segments, s ≠ "")
    (hdot : ∀ s ∈ path.segments, '.' ∉ s.toList) (hq : (ofValue payload).resolve? path = some q) :
    (ofValue payload).resolve? q = none := by
  obtain ⟨-, hleaf, rfl, -⟩ := resolve?_eq_some_iff.1 hq
  have hfollowed : (ofValue payload).Followed path.segments _ := followed_of_names hname hdot
  have hwildcard := h.hasWildcard hfollowed.spelled hleaf
  generalize (ofValue payload).follow [] path.segments = found at hleaf hfollowed hwildcard
  by_cases hnil : found = []
  · subst hnil
    exact if_pos hleaf
  · -- The wildcards that were put in are skipped, and the same first elements are taken.
    have hclear : (ofValue payload).Clear (Path.mk found).generalized.segments found := by
      rintro start rest count - rfl - - -
      exact h.reachesBy_wildcard (hfollowed.spelled.of_append.append_zeros count)
    obtain ⟨count, hfollow, hafter⟩ := hfollowed.straight.exists_follow_written hfollowed.spelled hnil
      (reaches_iff.2 ⟨_, hleaf, .refl _⟩) (Path.standsFor_generalized hwildcard) hclear
    obtain rfl : count = 0 := hafter.eq_zero hleaf
    rw [Path.append_zeros_zero] at hfollow
    rw [Option.eq_none_iff_forall_ne_some]
    intro q hq
    obtain ⟨-, -, hsame, hne⟩ := resolve?_eq_some_iff.1 hq
    rw [hfollow] at hsame
    exact hne hsame.symm

/-! ## Paths that name a leaf with their wildcards read as 0 -/

/-- Whether a path leads to the leaf that it names with its wildcards read as 0: that path is straight, and none of the wildcards is taken
for a key. -/
structure Direct (leaves : Leaves) (path : Path) : Prop where
  straight : leaves.Straight path.grounded
  clear : leaves.Clear path.segments path.grounded.segments

/-- Among first elements that lead to a leaf there are no wildcards to be taken for keys, as nothing is followed beyond the leaf. -/
theorem clearFrom_zeros (hspelled : IsSpelled (start ++ zeros count)) (hleaf : (ofValue payload).isLeafAt (start ++ zeros count) = true)
    (written : List String) : (ofValue payload).ClearFrom start written (zeros count) := by
  intro middle rest further _ hzeros _ hafter hno
  obtain ⟨-, -, hrest⟩ := List.append_eq_replicate_iff.1 hzeros.symm
  have hend : start ++ zeros count = start ++ middle ++ zeros ("0" :: rest).length := by
    rw [hzeros, ← List.append_assoc, zeros, ← hrest]
  have hnot := hafter.isLeafAt_eq_false (hend ▸ hspelled).of_append hno ("0" :: rest).length
  rw [← hend, hleaf] at hnot
  cases hnot

/-- The same for all segments that are still to come. -/
theorem Straight.clearFrom_of_follow (h : (ofValue payload).Straight path) (hspelled : IsSpelled path.segments)
    (hleaf : (ofValue payload).isLeafAt path.segments = true) (hwildcard : Path.wildcard ∉ path.segments) {done rest : List String}
    (hwritten : List.Forall₂ Path.Writes todo rest) (hpath : path.segments = done ++ rest) (hhead : done = [] → todo.head? = rest.head?)
    (hahead : (ofValue payload).Ahead done count) (hfollow : (ofValue payload).follow (done ++ zeros count) todo = path.segments) :
    (ofValue payload).ClearFrom done todo rest := by
  induction hwritten generalizing done count with
  | nil => exact fun middle _ _ _ hnil => absurd hnil (by simp)
  | @cons segment next todo rest hwrites _ ih =>
    have hskipped : segment = Path.wildcard → (ofValue payload).reachesBy (done ++ zeros count) segment = false := by
      rintro rfl
      rw [Bool.eq_false_iff]
      intro hreach
      have hbegins := append_isPrefix_follow hreach todo
      rw [hfollow] at hbegins
      exact hwildcard (hbegins.subset (by simp))
    have hsegment := followed_or_skipped hwrites (fun hnil => Option.some.inj (hhead hnil)) fun _ hstar _ => hskipped hstar
    obtain ⟨taken, hhere, hafter⟩ := h.exists_here hspelled (reaches_iff.2 ⟨_, hleaf, .refl _⟩) hpath hahead hsegment
    have hpath' : path.segments = done ++ [next] ++ rest := hpath.trans (List.append_cons _ _ _)
    rw [follow_cons (by simp) hhere] at hfollow
    refine ClearFrom.cons ?_ ?_
    · split at hfollow
      · obtain rfl : rest = zeros taken := List.append_cancel_left (hpath'.symm.trans hfollow.symm)
        rw [hpath'] at hspelled hleaf
        exact clearFrom_zeros hspelled hleaf todo
      · rename_i hgo
        exact ih hpath' (fun hnil => absurd hnil (by simp)) (.below (by simp) hafter (Bool.eq_false_iff.2 hgo)) hfollow
    · intro hstar _ hne further hafter' _
      cases hahead with
      | start => exact absurd rfl hne
      | below _ hafter'' _ =>
        rw [hafter'.unique hafter'', ← hstar]
        exact hskipped hstar

/-- Where segments with wildcards for positions are followed to the leaf of a straight path, none of the wildcards is taken for a key. -/
theorem Straight.clear_of_follow (h : (ofValue payload).Straight path) (hspelled : IsSpelled path.segments)
    (hleaf : (ofValue payload).isLeafAt path.segments = true) (hwildcard : path.hasWildcard = false) {written : List String}
    (hwritten : Path.StandsFor written path.segments) (hfollow : (ofValue payload).follow [] written = path.segments) :
    (ofValue payload).Clear written path.segments := by
  have hnot : Path.wildcard ∉ path.segments := fun hmem => by
    rw [Path.hasWildcard, List.contains_iff_mem.2 hmem] at hwildcard
    cases hwildcard
  exact clearFrom_nil.1 (h.clearFrom_of_follow hspelled hleaf hnot hwritten.2 rfl (fun _ => hwritten.1) .start hfollow)

/-- Following a path that names a leaf with its wildcards read as 0 finds segments that lead on straight. -/
theorem followed_of_grounded (hname : ∀ name, path.segments.head? = some name → name ≠ "" ∧ name ≠ Path.wildcard)
    (hdot : ∀ s ∈ path.segments, '.' ∉ s.toList) (hleaf : (ofValue payload).isLeafAt path.grounded.segments = true)
    (hne : path.segments ≠ []) : (ofValue payload).Followed path.segments ((ofValue payload).follow [] path.segments) ∧
      ∃ name, path.segments.head? = some name ∧ [name] <+: (ofValue payload).follow [] path.segments := by
  obtain ⟨name, rest, hsegments⟩ := List.exists_cons_of_ne_nil hne
  have hfirst := hname name (by rw [hsegments]; rfl)
  have hreach : (ofValue payload).reachesBy [] name = true := by
    rw [reachesBy_eq (fun _ hnone => by cases hnone)]
    refine reaches_iff.2 ⟨_, hleaf, ?_⟩
    rw [Path.grounded, hsegments, List.map_cons, if_neg hfirst.2]
    exact atOrBelow_append (by simp) _
  refine ⟨(Followed.nil _ _).follow (fun hne => absurd rfl hne) (fun _ => id) hdot ?_, name, by rw [hsegments]; rfl, ?_⟩
  · intro _ front more hempty
    cases front with
    | nil => exact absurd rfl (hname "" (by rw [hempty]; rfl)).1
    | cons other front =>
      rw [hsegments, List.cons_append] at hempty
      obtain ⟨rfl, -⟩ := List.cons.inj hempty
      exact ⟨name, List.mem_cons_self, hreach⟩
  · rw [hsegments]
    exact append_isPrefix_follow hreach rest

/-- What is found holds no wildcard if a leaf is left when wildcards in it are read as 0. -/
theorem Followed.hasWildcard_eq_false (h : (ofValue payload).Followed segments found)
    (hname : ∀ name, found.head? = some name → name ≠ Path.wildcard)
    (hleaf : (ofValue payload).isLeafAt (Path.mk found).grounded.segments = true) : (Path.mk found).hasWildcard = false := by
  rw [Path.hasWildcard, Bool.eq_false_iff]
  intro hmem
  obtain ⟨front, rest, rfl, hfront⟩ := List.eq_append_cons_of_mem (List.contains_iff_mem.1 hmem)
  have hne : front ≠ [] := by
    rintro rfl
    exact hname _ rfl rfl
  -- At the first wildcard the leaf goes on with 0, but there is no first element.
  have hgrounded : (Path.mk (front ++ Path.wildcard :: rest)).grounded.segments = front ++ "0" :: (Path.mk rest).grounded.segments := by
    have hplain := congrArg Path.segments (Path.grounded_of_not_hasWildcard (p := ⟨front⟩)
      (Bool.eq_false_iff.2 fun hcontains => hfront (List.contains_iff_mem.1 hcontains)))
    simp only [Path.grounded, List.map_append, List.map_cons, if_true] at hplain ⊢
    rw [hplain]
  have hzero := (h.straight front Path.wildcard rest rfl hne).2 (by decide)
  rw [hgrounded, isLeafAt_append_eq_false h.spelled.of_append hzero] at hleaf
  cases hleaf

/-- A path that names a leaf with its wildcards read as 0 is resolved to one that names the same leaf exactly if it leads there. -/
theorem named_leaf_kept_iff {s : String}
    (hname : ∀ name, (Path.ofText s).segments.head? = some name → name ≠ "" ∧ name ≠ Path.wildcard)
    (hkey : (ofValue payload).contains (Path.ofText s).grounded.text = true) (hq : (ofValue payload).resolve? (Path.ofText s) = some q) :
    q.grounded = (Path.ofText s).grounded ↔ (ofValue payload).Direct (Path.ofText s) := by
  have hne : (Path.ofText s).segments ≠ [] := Path.ofText_ne_nil s
  have hdot := Path.dot_not_mem_ofText s
  generalize Path.ofText s = path at hname hkey hq hne hdot ⊢
  have hspelled : IsSpelled path.grounded.segments := Path.IsSpelled.grounded ⟨fun name hhead => (hname name hhead).1, hdot⟩
  have hne' : path.grounded.segments ≠ [] := by simpa [Path.grounded] using hne
  obtain ⟨-, hfound, rfl, -⟩ := resolve?_eq_some_iff.1 hq
  obtain ⟨hfollowed, name, hhead, hbegins⟩ := followed_of_grounded hname hdot hkey hne
  rw [Path.grounded_generalized_eq]
  constructor
  · intro hsame
    have hnot : (Path.mk ((ofValue payload).follow [] path.segments)).hasWildcard = false := by
      refine hfollowed.hasWildcard_eq_false ?_ (hsame ▸ hkey)
      obtain ⟨rest, hfound⟩ := hbegins
      intro first hfirst
      rw [← hfound] at hfirst
      obtain rfl := Option.some.inj hfirst
      exact (hname name hhead).2
    rw [Path.grounded_of_not_hasWildcard hnot] at hsame
    have hfollow : (ofValue payload).follow [] path.segments = path.grounded.segments := congrArg Path.segments hsame
    rw [hfollow] at hfollowed
    exact ⟨hfollowed.straight, hfollowed.straight.clear_of_follow hspelled hkey (Path.hasWildcard_grounded path)
      (Path.standsFor_grounded fun name hhead => (hname name hhead).2) hfollow⟩
  · intro hdirect
    obtain ⟨count, hfollow, hafter⟩ := hdirect.straight.exists_follow_written hspelled hne' (reaches_iff.2 ⟨_, hkey, .refl _⟩)
      (Path.standsFor_grounded fun name hhead => (hname name hhead).2) hdirect.clear
    obtain rfl : count = 0 := hafter.eq_zero hkey
    rw [hfollow, Path.append_zeros_zero]
    exact Path.grounded_of_not_hasWildcard (Path.hasWildcard_grounded path)

/-- A matrix of two rows. -/
def Sample.matrix : Value := .map [("m", .list [.list [.int 1, .int 2], .list [.int 3, .int 4]])]

/-- The first column is found where it is written. -/
theorem first_column_kept : (ofValue Sample.matrix).resolve? (Path.ofText "m.0.*") = some ⟨["m", "*", "*"]⟩ ∧
    (ofValue Sample.matrix).Direct (Path.ofText "m.0.*") := by
  have hq : (ofValue Sample.matrix).resolve? (Path.ofText "m.0.*") = some ⟨["m", "*", "*"]⟩ := by decide +kernel
  exact ⟨hq, (named_leaf_kept_iff (by decide +kernel) (by decide +kernel) hq).1 (by decide +kernel)⟩

/-- A column behind a wildcard is written for the second elements, and the path is resolved to the first ones. -/
theorem second_column_lost : (ofValue Sample.matrix).contains (Path.ofText "m.*.1").grounded.text = true ∧
    (ofValue Sample.matrix).resolve? (Path.ofText "m.*.1") = some ⟨["m", "*", "*"]⟩ ∧
      (Path.mk ["m", "*", "*"]).grounded ≠ (Path.ofText "m.*.1").grounded := by
  refine ⟨by decide +kernel, by decide +kernel, by decide +kernel⟩

end Leaves
end SheetTemplate

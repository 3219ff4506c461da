import SheetTemplate.Proofs.ListPaths
import SheetTemplate.Resolution

/-!
# Resolution of paths into lists

A path with a wildcard is no leaf itself, so resolution follows its segments. It arrives at the value in the first element, whose path with
wildcards is the path itself, or where a key is mistaken for a position or a wildcard at no leaf (`Supplied.arrives_path`). So the path stays
as it is (`resolve?_path`).
-/

namespace SheetTemplate

/-! ## Following segments -/

namespace Leaves

variable {leaves : Leaves} {found : List String} {segment : String} {payload : Value} {segments : List String}

/-- One more segment is looked up at the text of the path with it. -/
theorem reachesBy_eq (hname : ∀ s, segments.head? = some s → s ≠ "") :
    leaves.reachesBy segments segment = leaves.reaches (Path.mk (segments ++ [segment])).text := by
  rw [reachesBy]
  congr 1
  cases segments with
  | nil => rw [if_pos (show (Path.mk []).text = "" from rfl), List.nil_append, Path.text_singleton]
  | cons first rest =>
    rw [if_neg, Path.text_append_cons (List.cons_ne_nil _ _), Path.text_singleton]
    intro hempty
    cases hfirst : first.toList with
    | nil => exact hname first rfl (String.toList_eq_nil_iff.1 hfirst)
    | cons c cs =>
      have hhead := Path.head?_chars (p := ⟨first :: rest⟩) rfl (congrArg List.head? hfirst)
      rw [Path.text] at hempty
      rw [String.ofList_eq_empty_iff.1 hempty] at hhead
      cases hhead

/-- With plain keys one more segment leads towards a leaf exactly if one stands at its place or below. -/
theorem reachesBy_ofValue_iff (h : payload.HasPlainKeys) (hname : ∀ s, segments.head? = some s → s ≠ "")
    (hdot : ∀ s ∈ segments ++ [segment], '.' ∉ s.toList) :
    (ofValue payload).reachesBy segments segment = true ↔
      ∃ rest w, Value.At payload (segments ++ segment :: rest) w ∧ w.isLeaf = true := by
  rw [reachesBy_eq hname, reaches_ofValue_iff h (by simp) hdot]
  simp only [List.append_assoc, List.singleton_append]

/-- The descent ends at a leaf, and where there is no first element. -/
theorem descend_eq_self (h : leaves.isLeafAt found = true ∨ leaves.reachesBy found "0" = false) (steps : Nat) :
    leaves.descend steps found = found := by
  cases steps with
  | zero => rfl
  | succ steps =>
    rw [descend, if_neg]
    rintro ⟨-, hleaf, hreach⟩
    rcases h with h | h
    · rw [h] at hleaf
      cases hleaf
    · rw [h] at hreach
      cases hreach

/-- The descent takes a first element. -/
theorem descend_succ (hne : found ≠ []) (hleaf : leaves.isLeafAt found = false) (hreach : leaves.reachesBy found "0" = true)
    (steps : Nat) : leaves.descend (steps + 1) found = leaves.descend steps (found ++ ["0"]) := by
  rw [descend, if_pos]
  exact ⟨hne, by rw [hleaf]; rfl, hreach⟩

/-- Following a segment, with the descent behind it. -/
theorem follow_cons {here : List String} (hne : here ≠ [])
    (hhere : leaves.descend leaves.depth (if leaves.reachesBy found segment then found ++ [segment] else found) = here)
    (rest : List String) :
    leaves.follow found (segment :: rest) = if leaves.isLeafAt here then here else leaves.follow here rest := by
  rw [follow]
  simp only [hhere]
  simp only [hne, ne_eq, not_false_eq_true, true_and]

/-- The descent only takes positions 0. -/
theorem exists_descend_append (leaves : Leaves) (steps : Nat) (found : List String) :
    ∃ below, leaves.descend steps found = found ++ below ∧ ∀ s ∈ below, s = "0" := by
  induction steps generalizing found with
  | zero => exact ⟨[], (List.append_nil _).symm, nofun⟩
  | succ steps ih =>
    rw [descend]
    split
    · obtain ⟨below, hbelow, hzero⟩ := ih (found ++ ["0"])
      exact ⟨"0" :: below, by rw [hbelow, ← List.append_cons], List.forall_mem_cons.2 ⟨rfl, hzero⟩⟩
    · exact ⟨[], (List.append_nil _).symm, nofun⟩

/-- Following segments finds some of them in their order, and positions 0 between them. -/
theorem exists_follow_append (leaves : Leaves) (found todo : List String) :
    ∃ below, leaves.follow found todo = found ++ below ∧ (below.filter (· ≠ "0")).Sublist todo := by
  induction todo generalizing found with
  | nil => exact ⟨[], (List.append_nil _).symm, List.nil_sublist _⟩
  | cons segment todo ih =>
    obtain ⟨zeros, hzeros, hzero⟩ := leaves.exists_descend_append leaves.depth
      (if leaves.reachesBy found segment then found ++ [segment] else found)
    have hnone : zeros.filter (· ≠ "0") = [] := List.filter_eq_nil_iff.2 fun s hs => by simp [hzero s hs]
    -- Behind the segment stand the positions 0, and what is found by following the others.
    obtain ⟨below, hbelow, hsub⟩ : ∃ below, leaves.follow found (segment :: todo) =
        leaves.descend leaves.depth (if leaves.reachesBy found segment then found ++ [segment] else found) ++ below ∧
          (below.filter (· ≠ "0")).Sublist todo := by
      rw [follow]
      generalize leaves.descend leaves.depth _ = here
      split
      · exact ⟨[], (List.append_nil _).symm, List.nil_sublist _⟩
      · exact ih _
    rw [hbelow, hzeros]
    split
    · refine ⟨segment :: (zeros ++ below), by simp, ?_⟩
      have htail : ((zeros ++ below).filter (· ≠ "0")).Sublist todo := by
        rw [List.filter_append, hnone]
        exact hsub
      rw [List.filter_cons]
      split
      · exact htail.cons_cons _
      · exact htail.cons _
    · refine ⟨zeros ++ below, by simp, ?_⟩
      rw [List.filter_append, hnone]
      exact hsub.cons _

/-- What is found behind a place at which the descent goes on is made of further segments, and of positions 0. -/
theorem exists_follow_goesOn {start todo more : List String} {steps : Nat}
    (hhere : leaves.descend leaves.depth (if leaves.reachesBy found segment then found ++ [segment] else found) =
      leaves.descend steps start) (hgo : Path.GoesOn todo more) :
    ∃ rest, leaves.follow found (segment :: todo) = start ++ rest ∧ Path.GoesOn rest more := by
  obtain ⟨zeros, hzeros, hzero⟩ := leaves.exists_descend_append steps start
  obtain ⟨below, hbelow, hsub⟩ : ∃ below, leaves.follow found (segment :: todo) = start ++ zeros ++ below ∧
      (below.filter (· ≠ "0")).Sublist todo := by
    rw [follow]
    simp only [hhere.trans hzeros]
    split
    · exact ⟨[], (List.append_nil _).symm, List.nil_sublist _⟩
    · exact leaves.exists_follow_append _ todo
  refine ⟨zeros ++ below, by rw [hbelow, List.append_assoc], ?_⟩
  exact (Path.GoesOn.of_sublist hsub hgo).append_left _ fun s hs => Or.inl (hzero s hs)

end Leaves

/-! ## Resolution -/

namespace ListPath

variable {l : ListPath} {payload : Value} {rows columns : Nat} {front more : List String} {next : String}

/-- A search that ends at a leaf ends at the first value. -/
def Arrives (l : ListPath) (payload : Value) (found : List String) : Prop :=
  (Leaves.ofValue payload).isLeafAt found = true → found = (l.key 0 0).segments

/-- No segment on the way holds a dot. -/
theorem dot_not_mem_of_key (hkey : (l.key 0 0).segments = front ++ more) : ∀ segment ∈ front, '.' ∉ segment.toList := by
  intro segment hmem
  exact l.dot_not_mem_key 0 0 segment (hkey ▸ List.mem_append_left _ hmem)

section Supplied

variable (hs : l.Supplied payload rows columns)
include hs

/-- Towards the first value lead segments with text from the first one on. -/
theorem Supplied.reachesBy_iff (hkey : (l.key 0 0).segments = front ++ more) {segment : String} (hdot : '.' ∉ segment.toList) :
    (Leaves.ofValue payload).reachesBy front segment = true ↔
      ∃ rest w, Value.At payload (front ++ segment :: rest) w ∧ w.isLeaf = true := by
  refine Leaves.reachesBy_ofValue_iff hs.plain_keys ?_ ?_
  · rintro name hname rfl
    obtain ⟨⟨first, rest, c, hsegments, hfirst, -⟩, -⟩ := Marker.admits_iff.1 (l.admits_key 0 0)
    cases front with
    | nil => cases hname
    | cons name names =>
      cases hname
      rw [hkey, List.cons_append] at hsegments
      obtain ⟨rfl, -⟩ := List.cons.inj hsegments
      cases hfirst
  · intro s hmem
    rcases List.mem_append.1 hmem with hmem | hmem
    · exact dot_not_mem_of_key hkey s hmem
    · rw [List.mem_singleton.1 hmem]
      exact hdot

/-- Each segment on the way to the first value leads towards it. -/
theorem Supplied.reachesBy_next (hkey : (l.key 0 0).segments = front ++ next :: more) :
    (Leaves.ofValue payload).reachesBy front next = true := by
  obtain ⟨v, hat, hleaf⟩ := hs.first_column 0 hs.one_le
  refine (hs.reachesBy_iff hkey (l.dot_not_mem_key 0 0 next (by rw [hkey]; simp))).2 ⟨more, v, ?_, hleaf⟩
  rw [← hkey]
  exact hat

/-- The first value is a leaf, and nothing on the way is one. -/
theorem Supplied.isLeafAt_iff (hkey : (l.key 0 0).segments = front ++ more) (hfront : front ≠ []) :
    (Leaves.ofValue payload).isLeafAt front = true ↔ more = [] := by
  obtain ⟨v, hat, hleaf⟩ := hs.first_column 0 hs.one_le
  rw [hkey] at hat
  obtain ⟨w, hw, hv⟩ := hat.exists_of_append
  rw [Leaves.isLeafAt, Leaves.contains_ofValue_iff hs.plain_keys hfront (dot_not_mem_of_key hkey)]
  constructor
  · rintro ⟨w', hw', hleaf'⟩
    obtain rfl := hs.plain_keys.at_unique hw hw'
    exact (hv.eq_nil hleaf').1
  · rintro rfl
    cases hv
    exact ⟨_, hw, hleaf⟩

/-- Before its end there is no leaf on the way. -/
theorem Supplied.isLeafAt_front (hkey : (l.key 0 0).segments = front ++ next :: more) (hfront : front ≠ []) :
    (Leaves.ofValue payload).isLeafAt front = false := by
  rw [Bool.eq_false_iff, ne_eq, hs.isLeafAt_iff hkey hfront]
  exact List.cons_ne_nil _ _

/-- Segments that go on along the way lead to a leaf if one stands at their place. -/
theorem Supplied.isLeafAt_append_iff (hkey : (l.key 0 0).segments = front ++ more) (hfront : front ≠ []) {rest : List String}
    (hgo : Path.GoesOn rest more) : (Leaves.ofValue payload).isLeafAt (front ++ rest) = true ↔
      ∃ w, Value.At payload (front ++ rest) w ∧ w.isLeaf = true := by
  refine Leaves.contains_ofValue_iff hs.plain_keys (by simp [hfront]) fun segment hmem => ?_
  rcases List.mem_append.1 hmem with hmem | hmem
  · exact dot_not_mem_of_key hkey segment hmem
  · rcases hgo.mem hmem with rfl | rfl | hmem
    · decide
    · decide
    · exact l.dot_not_mem_key 0 0 segment (hkey ▸ List.mem_append_right _ hmem)

/-- Behind a key `0` of a map on the way, no leaf is left for the rest of the way. -/
theorem Supplied.isLeafAt_zero (hkey : (l.key 0 0).segments = front ++ next :: more) (hfront : front ≠ []) (hnext : next ≠ "0")
    {rest : List String} (hgo : Path.GoesOn rest (next :: more)) :
    (Leaves.ofValue payload).isLeafAt (front ++ "0" :: rest) = false := by
  have hzero : Path.GoesOn ("0" :: rest) (next :: more) := hgo.append_left ["0"] (by simp)
  rw [Bool.eq_false_iff, ne_eq, hs.isLeafAt_append_iff hkey hfront hzero]
  rintro ⟨w, hat, hleaf⟩
  rw [hs.no_zero _ _ _ _ w hkey hfront hnext hgo hat] at hleaf
  cases hleaf

/-- Behind a key `*` of the first element, no leaf is left for the field. -/
theorem Supplied.isLeafAt_wildcard {field : List String} (hfield : l.field = some field) {rest : List String}
    (hgo : Path.GoesOn rest field) : (Leaves.ofValue payload).isLeafAt (l.list ++ "0" :: Path.wildcard :: rest) = false := by
  have hkey : (l.key 0 0).segments = l.list ++ "0" :: field := by rw [key, Path.position_zero, hfield, Option.getD_some]
  have hwildcard : Path.GoesOn ("0" :: Path.wildcard :: rest) ("0" :: field) :=
    (hgo.append_left ["0", Path.wildcard] (by simp)).cons "0"
  rw [Bool.eq_false_iff, ne_eq, hs.isLeafAt_append_iff hkey l.list_ne_nil hwildcard]
  rintro ⟨w, hat, hleaf⟩
  rw [hs.no_wildcard _ _ w hfield hgo hat] at hleaf
  cases hleaf

/-- The descent may go on for a list and its first element at least. -/
theorem Supplied.exists_depth : ∃ depth, (Leaves.ofValue payload).depth = depth + 2 := by
  obtain ⟨v, hat, hleaf⟩ := hs.first_column 0 hs.one_le
  have hdepth := Leaves.length_le_depth hs.plain_keys (l.key_ne_nil 0 0) hat hleaf
  have hlength := List.length_pos_iff.2 l.list_ne_nil
  rw [key, List.length_append, List.length_cons] at hdepth
  exact ⟨(Leaves.ofValue payload).depth - 2, by omega⟩

/-- A search that takes a key `0` of a map on the way ends at no leaf. -/
theorem Supplied.arrives_of_zero (hkey : (l.key 0 0).segments = front ++ next :: more) (hfront : front ≠ []) (hname : Path.IsName next)
    {found todo : List String} {segment : String} {steps : Nat}
    (hhere : (Leaves.ofValue payload).descend (Leaves.ofValue payload).depth
      (if (Leaves.ofValue payload).reachesBy found segment then found ++ [segment] else found) =
        (Leaves.ofValue payload).descend (steps + 1) front)
    (hreach : (Leaves.ofValue payload).reachesBy front "0" = true) (hgo : Path.GoesOn todo (next :: more)) :
    l.Arrives payload ((Leaves.ofValue payload).follow found (segment :: todo)) := by
  have hnot : (Leaves.ofValue payload).isLeafAt front = false := hs.isLeafAt_front hkey hfront
  rw [Leaves.descend_succ hfront hnot hreach] at hhere
  obtain ⟨rest, hfollow, hrest⟩ := Leaves.exists_follow_goesOn hhere hgo
  rw [hfollow, ← List.append_cons]
  intro hleaf
  rw [hs.isLeafAt_zero hkey hfront hname.ne_zero hrest] at hleaf
  cases hleaf

/-- A name on the way is followed if another one comes behind it. -/
theorem Supplied.arrives_name {segment : String} (hkey : (l.key 0 0).segments = front ++ segment :: next :: more)
    (hname : Path.IsName next) {todo : List String} (hgo : Path.GoesOn todo (next :: more))
    (h : l.Arrives payload ((Leaves.ofValue payload).follow (front ++ [segment]) todo)) :
    l.Arrives payload ((Leaves.ofValue payload).follow front (segment :: todo)) := by
  have hne : front ++ [segment] ≠ [] := by simp
  have hkey' : (l.key 0 0).segments = (front ++ [segment]) ++ next :: more := by simp [hkey]
  obtain ⟨depth, hdepth⟩ := hs.exists_depth
  by_cases hzero : (Leaves.ofValue payload).reachesBy (front ++ [segment]) "0" = true
  · exact hs.arrives_of_zero hkey' hne hname (by rw [hs.reachesBy_next hkey, if_pos rfl, hdepth]) hzero hgo
  · have hleaf : (Leaves.ofValue payload).isLeafAt (front ++ [segment]) = false := hs.isLeafAt_front hkey' hne
    rw [Leaves.follow_cons hne, if_neg (by rw [hleaf]; exact Bool.false_ne_true)]
    · exact h
    · rw [hs.reachesBy_next hkey, if_pos rfl]
      exact Leaves.descend_eq_self (Or.inr (Bool.eq_false_iff.2 hzero)) _

/-- The names of a field are followed to the value. -/
theorem Supplied.arrives_field {todo : List String} (hkey : (l.key 0 0).segments = front ++ todo) (hne : todo ≠ [])
    (hnames : ∀ segment ∈ todo, Path.IsName segment) : l.Arrives payload ((Leaves.ofValue payload).follow front todo) := by
  induction todo generalizing front with
  | nil => exact absurd rfl hne
  | cons segment rest ih =>
    cases rest with
    | nil =>
      have hleaf : (Leaves.ofValue payload).isLeafAt (front ++ [segment]) = true :=
        (hs.isLeafAt_iff (hkey.trans (List.append_cons front segment [])) (by simp)).2 rfl
      rw [Leaves.follow_cons (show front ++ [segment] ≠ [] by simp), if_pos hleaf]
      · exact fun _ => hkey.symm
      · rw [hs.reachesBy_next hkey, if_pos rfl]
        exact Leaves.descend_eq_self (Or.inl hleaf) _
    | cons next rest =>
      exact hs.arrives_name hkey (hnames next (by simp)) (.refl _)
        (ih (by simp [hkey]) (List.cons_ne_nil _ _) fun s hmem => hnames s (List.mem_cons_of_mem _ hmem))

/-- The last name of the list is followed, and the first element behind it taken. -/
theorem Supplied.descend_last {last : String} (hlist : front ++ [last] = l.list) {depth : Nat}
    (hdepth : (Leaves.ofValue payload).depth = depth + 2) :
    (Leaves.ofValue payload).descend (Leaves.ofValue payload).depth
      (if (Leaves.ofValue payload).reachesBy front last then front ++ [last] else front) =
        (Leaves.ofValue payload).descend (depth + 1) (l.list ++ ["0"]) := by
  have hkey : (l.key 0 0).segments = l.list ++ "0" :: l.field.getD ["0"] := by rw [key, Path.position_zero]
  have hnot : (Leaves.ofValue payload).isLeafAt l.list = false := hs.isLeafAt_front hkey l.list_ne_nil
  have hreach : (Leaves.ofValue payload).reachesBy front last = true :=
    hs.reachesBy_next (show (l.key 0 0).segments = front ++ last :: "0" :: l.field.getD ["0"] by simp [hkey, ← hlist])
  rw [hreach, if_pos rfl, hlist, hdepth, Leaves.descend_succ l.list_ne_nil hnot (hs.reachesBy_next hkey)]

/-- In the first element the field is followed behind the wildcard. -/
theorem Supplied.arrives_element {name : String} {names : List String} (hfield : l.field = some (name :: names))
    (hzero : (Leaves.ofValue payload).reachesBy (l.list ++ ["0"]) "0" = false) :
    l.Arrives payload ((Leaves.ofValue payload).follow (l.list ++ ["0"]) (Path.wildcard :: name :: names)) := by
  have hkey : (l.key 0 0).segments = (l.list ++ ["0"]) ++ name :: names := by simp [key, Path.position_zero, hfield]
  have hne : l.list ++ ["0"] ≠ [] := by simp
  by_cases hwildcard : (Leaves.ofValue payload).reachesBy (l.list ++ ["0"]) Path.wildcard = true
  · have hhere : (Leaves.ofValue payload).descend (Leaves.ofValue payload).depth
        (if (Leaves.ofValue payload).reachesBy (l.list ++ ["0"]) Path.wildcard then l.list ++ ["0"] ++ [Path.wildcard]
          else l.list ++ ["0"]) =
        (Leaves.ofValue payload).descend (Leaves.ofValue payload).depth (l.list ++ ["0"] ++ [Path.wildcard]) := by
      rw [hwildcard, if_pos rfl]
    obtain ⟨rest, hfollow, hrest⟩ := Leaves.exists_follow_goesOn hhere (.refl (name :: names))
    rw [hfollow, ← List.append_cons, ← List.append_cons]
    intro hleaf
    rw [hs.isLeafAt_wildcard hfield hrest] at hleaf
    cases hleaf
  · have hnot : (Leaves.ofValue payload).isLeafAt (l.list ++ ["0"]) = false := hs.isLeafAt_front hkey hne
    have hnames := l.field_named
    rw [hfield, Option.getD_some] at hnames
    rw [Leaves.follow_cons hne, hnot, if_neg Bool.false_ne_true]
    · exact hs.arrives_field hkey (List.cons_ne_nil _ _) hnames
    · rw [if_neg hwildcard]
      exact Leaves.descend_eq_self (Or.inr hzero) _

/-- From the list the descent goes into its first element, and behind the wildcard the field is followed. -/
theorem Supplied.arrives_list {last : String} (hlist : front ++ [last] = l.list) :
    l.Arrives payload ((Leaves.ofValue payload).follow front (last :: Path.wildcard :: l.field.getD [Path.wildcard])) := by
  obtain ⟨depth, hdepth⟩ := hs.exists_depth
  have hdescend := hs.descend_last hlist hdepth
  have hkey : (l.key 0 0).segments = (l.list ++ ["0"]) ++ l.field.getD ["0"] := by simp [key, Path.position_zero]
  have hne : l.list ++ ["0"] ≠ [] := by simp
  cases hsome : l.field with
  | none =>
    -- The first element is a list itself, and its first element the value.
    rw [hsome, Option.getD_none] at hkey
    have hend : (Leaves.ofValue payload).isLeafAt (l.key 0 0).segments = true :=
      (hs.isLeafAt_iff (List.append_nil _).symm (l.key_ne_nil 0 0)).2 rfl
    have hinner : (Leaves.ofValue payload).isLeafAt (l.list ++ ["0"]) = false := hs.isLeafAt_front hkey hne
    rw [Leaves.descend_succ hne hinner (hs.reachesBy_next hkey), ← hkey, Leaves.descend_eq_self (Or.inl hend)] at hdescend
    rw [Leaves.follow_cons (l.key_ne_nil 0 0) hdescend, if_pos hend]
    exact fun _ => rfl
  | some field =>
    rw [hsome, Option.getD_some] at hkey
    cases field with
    | nil =>
      have hend : (Leaves.ofValue payload).isLeafAt (l.list ++ ["0"]) = true := (hs.isLeafAt_iff hkey hne).2 rfl
      rw [Leaves.descend_eq_self (Or.inl hend)] at hdescend
      rw [Leaves.follow_cons hne hdescend, if_pos hend]
      exact fun _ => by rw [hkey, List.append_nil]
    | cons name names =>
      have hname : Path.IsName name := l.field_named name (by simp [hsome])
      cases hzero : (Leaves.ofValue payload).reachesBy (l.list ++ ["0"]) "0" with
      | true =>
        have hgo : Path.GoesOn (Path.wildcard :: name :: names) (name :: names) := (Path.GoesOn.refl _).append_left ["*"] (by decide)
        exact hs.arrives_of_zero hkey hne hname hdescend hzero hgo
      | false =>
        have hinner : (Leaves.ofValue payload).isLeafAt (l.list ++ ["0"]) = false := hs.isLeafAt_front hkey hne
        rw [Leaves.descend_eq_self (Or.inr hzero)] at hdescend
        rw [Leaves.follow_cons hne hdescend, hinner, if_neg Bool.false_ne_true]
        exact hs.arrives_element hsome hzero

/-- Following the path with its wildcards leads to the first value, or to no leaf. -/
theorem Supplied.arrives_path : l.Arrives payload ((Leaves.ofValue payload).follow [] l.path.segments) := by
  have hbehind : Path.GoesOn (Path.wildcard :: l.field.getD [Path.wildcard]) ("0" :: l.field.getD ["0"]) := by
    refine Path.GoesOn.cons ?_ "0"
    cases l.field with
    | none => exact (Path.GoesOn.nil _).append_left ["*", "*"] (by decide)
    | some field => exact (Path.GoesOn.refl field).append_left ["*"] (by decide)
  have hfrom : ∀ (todo front : List String), todo ≠ [] → front ++ todo = l.list →
      l.Arrives payload ((Leaves.ofValue payload).follow front (todo ++ Path.wildcard :: l.field.getD [Path.wildcard])) := by
    intro todo
    induction todo with
    | nil => exact fun _ hne => absurd rfl hne
    | cons segment rest ih =>
      intro front _ hlist
      cases rest with
      | nil => exact hs.arrives_list hlist
      | cons next rest =>
        have hkey : (l.key 0 0).segments = front ++ segment :: next :: (rest ++ "0" :: l.field.getD ["0"]) := by
          simp [key, Path.position_zero, ← hlist]
        rw [List.cons_append]
        exact hs.arrives_name hkey (l.list_named next (by simp [← hlist])) ((Path.GoesOn.refl (next :: rest)).append hbehind)
          (ih (front ++ [segment]) (List.cons_ne_nil _ _) (by simp [← hlist]))
  exact hfrom l.list [] l.list_ne_nil rfl

/-- Resolution leaves the path alone. -/
theorem Supplied.resolve?_path : (Leaves.ofValue payload).resolve? l.path = none := by
  rw [Leaves.resolve?]
  split
  · rfl
  · rw [if_neg]
    rintro ⟨hleaf, hne⟩
    rw [hs.arrives_path hleaf] at hne
    exact hne l.generalized_key

end Supplied

end ListPath
end SheetTemplate

import SheetTemplate.Proofs.ListPaths
import SheetTemplate.Proofs.MarkerRewriting
import SheetTemplate.Proofs.OutputTexts

/-!
# Advances commute and add up

A row repeats down the sheet along the first position of a path and a cell repeats across along the last one of at least two. These are
different places, and what is written at one of them does not change which places hold positions, nor what is read at the other. So it
does not matter which way a text is advanced first, and advancing it twice along one direction advances it by the sum
(`advances_commute_and_add`). In the sheet the copy of a cell in a copy of its row reads the element in that column and row.
-/

namespace SheetTemplate

/-! ## Paths -/

namespace Path

variable {p : Path} {direction : Direction} {a b : Nat}

/-- A path that goes further keeps the places of its positions. -/
theorem place?_further (p : Path) (direction : Direction) (step : Nat) (d : Direction) :
    (p.further direction step).place? d = p.place? d := by
  rcases p.further_cases direction step with ⟨place, n, hplace, -, -, hfurther⟩ | ⟨-, hfurther⟩
  · rw [hfurther, place?_put hplace]
  · rw [hfurther]

/-- The two directions have different places. -/
theorem place?_ne {d : Direction} (hne : d ≠ direction) {place : Nat} (h : p.place? direction = some place) :
    p.place? d ≠ some place := by
  intro hsame
  cases direction <;> cases d
  · exact hne rfl
  · exact Nat.lt_irrefl _ (place?_lt h hsame)
  · exact Nat.lt_irrefl _ (place?_lt hsame h)
  · exact hne rfl

/-- A path that goes further along one direction keeps the position along the other. -/
theorem position?_further {d : Direction} (hne : d ≠ direction) (step : Nat) :
    (p.further direction step).position? d = p.position? d := by
  rcases p.further_cases direction step with ⟨place, n, hplace, -, -, hfurther⟩ | ⟨-, hfurther⟩
  · rw [hfurther, position?_put_of_ne hplace (place?_ne hne hplace)]
  · rw [hfurther]

/-- Positions in different places can be put in any order. -/
theorem put_comm {place other : Nat} (h : place ≠ other) (n m : Nat) : (p.put place n).put other m = (p.put other m).put place n := by
  rw [put, put, put, put, List.set_comm _ _ h]

/-- The last position put in a place is the one that stays. -/
theorem put_put (place n m : Nat) : (p.put place n).put place m = p.put place m := by
  rw [put, put, put, List.set_set]

/-- Going across and going down commute. -/
theorem further_comm (p : Path) (a b : Nat) : (p.further .across a).further .down b = (p.further .down b).further .across a := by
  have hdown : (p.further .across a).position? .down = p.position? .down := position?_further Direction.noConfusion a
  have hacross : (p.further .down b).position? .across = p.position? .across := position?_further Direction.noConfusion b
  rcases p.further_cases .across a with ⟨j, m, hj, hm, hm', ha⟩ | ⟨hstays, ha⟩
  · have ha' : (p.further .down b).further .across a = (p.further .down b).put j (m + a) :=
      further_of_le ((place?_further p .down b .across).trans hj) (hacross.trans hm) hm'
    rcases p.further_cases .down b with ⟨i, n, hi, hn, hn', hb⟩ | ⟨hstays', hb⟩
    · have hb' : (p.further .across a).further .down b = (p.further .across a).put i (n + b) :=
        further_of_le ((place?_further p .across a .down).trans hi) (hdown.trans hn) hn'
      rw [ha', hb', ha, hb, put_comm (Nat.ne_of_gt (place?_lt hi hj))]
    · have hb' : (p.further .across a).further .down b = p.further .across a :=
        further_eq_self fun n hn => hstays' n (hdown.symm.trans hn)
      rw [hb', hb]
  · have ha' : (p.further .down b).further .across a = p.further .down b :=
      further_eq_self fun m hm => hstays m (hacross.symm.trans hm)
    rw [ha', ha]

/-- Going further twice along one direction is going further by the sum, if the position does not pass the last one. -/
theorem further_further (h : ∀ n, p.position? direction = some n → n + (a + b) ≤ lastPosition) :
    (p.further direction a).further direction b = p.further direction (a + b) := by
  rcases p.further_cases direction a with ⟨place, n, hplace, hn, hle, ha⟩ | ⟨hstays, ha⟩
  · have hsum := h n hn
    have hplace' : (p.put place (n + a)).place? direction = some place := (place?_put hplace _ _).trans hplace
    rw [ha, further_of_le hplace' (position?_put hplace hle) (by omega), put_put, further_of_le hplace hn hsum, Nat.add_assoc]
  · have hnone : ∀ step n, p.position? direction = some n → ¬n + step ≤ lastPosition := by
      intro step n hn
      have hsum := h n hn
      exact absurd (show n + a ≤ lastPosition by omega) (hstays n hn)
    rw [ha, further_eq_self (hnone b), further_eq_self (hnone (a + b))]

/-! ### Elements of lists in lists -/

/-- The path of element `(i, j)`: position `i` stands behind the segments `front`, position `j` in front of the segments `back`. -/
def element (front middle back : List String) (i j : Nat) : Path := ⟨front ++ Value.position i :: middle ++ Value.position j :: back⟩

section Element

variable {front middle back : List String} (hfront : ∀ segment ∈ front, IsName segment) (hback : ∀ segment ∈ back, IsName segment)
include hfront hback

/-- With names in front and behind, the two positions are those along the directions. -/
theorem place?_element (i j : Nat) : (element front middle back i j).place? .down = some front.length ∧
    (element front middle back i j).place? .across = some (front.length + 1 + middle.length) := by
  have hplaces : ∃ places, (element front middle back i j).positionPlaces =
      front.length :: places ++ [front.length + 1 + middle.length] := by
    refine ⟨((middle.zipIdx (front.length + 1)).filter fun segment => isPosition segment.1).map (·.2), ?_⟩
    rw [positionPlaces, element, List.zipIdx_append, List.zipIdx_append, List.filter_append, List.filter_append,
      filter_zipIdx_eq_nil hfront, List.zipIdx_cons, List.zipIdx_cons, List.filter_cons, List.filter_cons,
      if_pos (isPosition_position i), if_pos (isPosition_position j), filter_zipIdx_eq_nil hback]
    simp
    omega
  obtain ⟨places, hplaces⟩ := hplaces
  have htwo : 2 ≤ (front.length :: places ++ [front.length + 1 + middle.length]).length := by simp
  rw [place?, place?, hplaces, if_pos htwo]
  exact ⟨rfl, List.getLast?_concat⟩

/-- Further down the first position is larger. -/
theorem further_element_down {i step : Nat} (j : Nat) (h : i + step ≤ lastPosition) :
    (element front middle back i j).further .down step = element front middle back (i + step) j := by
  have hplace : (element front middle back i j).place? .down = some front.length := (place?_element hfront hback i j).1
  have hsegment : (element front middle back i j).segments[front.length]? = some (Value.position i) := by simp [element]
  rw [further, advance?_of_place? hplace hsegment h, Option.getD_some, element, element]
  simp

/-- Further across the last position is larger. -/
theorem further_element_across (i : Nat) {j step : Nat} (h : j + step ≤ lastPosition) :
    (element front middle back i j).further .across step = element front middle back i (j + step) := by
  have hplace : (element front middle back i j).place? .across = some (front.length + 1 + middle.length) :=
    (place?_element hfront hback i j).2
  have hsegment : (element front middle back i j).segments[front.length + 1 + middle.length]? = some (Value.position j) := by
    simp [element, Nat.add_assoc, Nat.add_comm 1]
  rw [further, advance?_of_place? hplace hsegment h, Option.getD_some, element, element]
  simp [Nat.add_assoc, Nat.add_comm 1]

end Element

end Path

/-! ## Texts -/

namespace Marker

variable {direction : Path.Direction} {a b : Nat} {s : String}

/-- The text of copy `copy` of a cell along a direction. Copy 0 is the cell itself. -/
def copied (direction : Path.Direction) (copy : Nat) (s : String) : String := if copy = 0 then s else advance direction copy s

@[simp] theorem copied_zero (direction : Path.Direction) (s : String) : copied direction 0 s = s := if_pos rfl

theorem copied_of_ne_zero {copy : Nat} (h : copy ≠ 0) : copied direction copy s = advance direction copy s := if_neg h

/-- Rewriting that does not count markers goes through their list. -/
theorem repathEach_const (f : Marker → Option Path) (s : String) :
    repathEach (fun _ => f) s = weave s ((all s).map fun m => (m.withPath ((f m).getD m.path)).chars) := by
  have hmap : (all s).mapIdx (fun _ m => m.withPath ((f m).getD m.path)) = (all s).map fun m => m.withPath ((f m).getD m.path) :=
    List.mapIdx_eq_iff.2 fun number => List.getElem?_map
  rw [repathEach_eq_weave, hmap, List.map_map]
  rfl

/-- A text is advanced marker by marker. -/
theorem advance_eq_repathEach (direction : Path.Direction) (step : Nat) (s : String) :
    advance direction step s = repathEach (fun _ m => m.path.advance? direction step) s := (replaceEach_const _ s).symm

/-- A text that is advanced once is that in which each path goes further. -/
theorem advance_eq_weave (direction : Path.Direction) (step : Nat) (s : String) :
    advance direction step s = weave s ((all s).map fun m => (m.withPath (m.path.further direction step)).chars) :=
  (advance_eq_repathEach direction step s).trans (repathEach_const _ s)

/-- A text that is advanced twice is that in which each path goes further twice. -/
theorem advance_advance (direction next : Path.Direction) (a b : Nat) (s : String) : advance next b (advance direction a s) =
    weave s ((all s).map fun m => (m.withPath ((m.path.further direction a).further next b)).chars) := by
  have hadmitted : Admitted (fun _ m => m.path.advance? direction a) s := fun number m path hm hpath =>
    admits_advance? (proper_of_mem_all (List.mem_of_getElem? hm)).admitted hpath
  rw [advance_eq_repathEach, advance_eq_repathEach, repathEach_repathEach hadmitted]
  exact repathEach_const (fun m => some ((m.path.further direction a).further next b)) s

/-- It does not matter which way a text is advanced first. -/
theorem advance_comm (a b : Nat) (s : String) :
    advance .down b (advance .across a s) = advance .across a (advance .down b s) := by
  rw [advance_advance, advance_advance]
  simp only [Path.further_comm]

/-- Nor does it for copies. -/
theorem copied_comm (j k : Nat) (s : String) : copied .down k (copied .across j s) = copied .across j (copied .down k s) := by
  by_cases hk : k = 0
  · rw [hk, copied_zero, copied_zero]
  · by_cases hj : j = 0
    · rw [hj, copied_zero, copied_zero]
    · rw [copied_of_ne_zero hk, copied_of_ne_zero hj, copied_of_ne_zero hk, copied_of_ne_zero hj, advance_comm]

/-- A text that is advanced twice along one direction is advanced by the sum. -/
theorem advance_add (h : ∀ m ∈ all s, ∀ n, m.path.position? direction = some n → n + (a + b) ≤ Path.lastPosition) :
    advance direction b (advance direction a s) = advance direction (a + b) s := by
  rw [advance_advance, advance_eq_weave]
  refine congrArg (weave s) (List.map_congr_left fun m hm => ?_)
  rw [Path.further_further (h m hm)]

/-- The markers of a copy. -/
theorem all_copied (direction : Path.Direction) (copy : Nat) (s : String) :
    all (copied direction copy s) =
      (all s).map fun m => m.withPath (if copy = 0 then m.path else m.path.further direction copy) := by
  rw [copied]
  split
  · exact (List.map_id _).symm
  · exact all_advance direction copy s

theorem valueInText_copied (direction : Path.Direction) (copy : Nat) (s : String) :
    valueInText (copied direction copy s) = valueInText s := by
  rw [copied]
  split
  · rfl
  · exact valueInText_advance direction copy s

/-- In the copy of a cell beside it, in a copy of its row, an element of a list in a list is that in this row and column. -/
theorem all_copied_copied (k j : Nat) (s : String) : List.Forall₂ (fun m copy : Marker => ∀ front middle back row column,
    m.path = Path.element front middle back row column → (∀ segment ∈ front, Path.IsName segment) →
      (∀ segment ∈ back, Path.IsName segment) → row + k ≤ Path.lastPosition → column + j ≤ Path.lastPosition →
        copy = m.withPath (Path.element front middle back (row + k) (column + j)))
    (all s) (all (copied .down k (copied .across j s))) := by
  rw [all_copied, all_copied, List.map_map, List.forall₂_map_right_iff, List.forall₂_same]
  rintro m - front middle back row column hpath hfront hback hk hj
  have hacross : (if j = 0 then m.path else m.path.further .across j) = Path.element front middle back row (column + j) := by
    split
    · rename_i hzero
      rw [hzero, hpath, Nat.add_zero]
    · rw [hpath, Path.further_element_across hfront hback row hj]
  have hdown : (if k = 0 then Path.element front middle back row (column + j)
      else (Path.element front middle back row (column + j)).further .down k) =
        Path.element front middle back (row + k) (column + j) := by
    split
    · rename_i hzero
      rw [hzero, Nat.add_zero]
    · exact Path.further_element_down hfront hback _ hk
  change m.withPath (if k = 0 then (if j = 0 then m.path else m.path.further .across j)
    else (if j = 0 then m.path else m.path.further .across j).further .down k) = _
  rw [hacross, hdown]

end Marker

/-! ## Cells -/

namespace Widening

/-- A copy of the cell that repeats across stands in the column where it begins and no other copy does. -/
theorem get?_widen_column {w : Widening} {line : Line} (hline : line.get? w.anchor = some w.text) {j : Nat} (hj : j ≤ w.copies)
    (halone : ∀ other ≤ w.copies, w.column other 0 = w.column j 0 → other = j) :
    (w.widen line).get? (w.column j 0) = some (Marker.copied .across j w.text) := by
  rw [widen, Marker.copied]
  split
  · rename_i hzero
    have hanchor : w.column j 0 = w.anchor := by
      rw [hzero, column, Nat.zero_mul]
      exact ((Column.eq_offset_iff (n := 0) w.anchor.le_last).2 rfl).symm
    rw [SortedMap.get?_foldl_insert_of_not_mem, hanchor, hline]
    intro other hother hcolumn
    have hbounds := mem_numbers.1 hother
    have hsame := halone other hbounds.2 hcolumn
    omega
  · refine SortedMap.get?_foldl_insert _ _ _ ?_ ⟨j, mem_numbers.2 ⟨by omega, hj⟩, rfl⟩
    intro other hother hcolumn
    rw [halone other (mem_numbers.1 hother).2 hcolumn]

end Widening

namespace Layout

variable {leaves : Leaves} {areas : List Area} {grid : Grid} {layout : Layout}

/-- The text of the cell that repeats across is that of the template with its wildcards read as position 0. -/
theorem text_of_widening {row : Nat} {w : Widening} (h : widening? leaves areas grid row = some w) :
    (groundedLine grid row).get? w.anchor = some w.text := by
  simp only [widening?, Widening.ofLine?, Option.bind_eq_bind, Option.bind_eq_some_iff, Option.some.injEq] at h
  obtain ⟨anchor, -, text, htext, rfl⟩ := h
  exact htext

/-- The copy of a cell beside it, in a copy of its row. -/
theorem text?_of_copied (h : ofTemplate leaves areas grid = .ok layout) {row origin copies stride : Nat}
    (hfate : layout.fate? row = some (.placed origin copies stride)) {w : Widening}
    (hw : widening? leaves areas grid row = some w) {k j : Nat} (hk : k ≤ copies) (hj : j ≤ w.copies)
    (halone : ∀ other ≤ w.copies, w.column other 0 = w.column j 0 → other = j) :
    layout.grid.text? ⟨w.column j 0, origin + k * stride⟩ = some (Marker.copied .down k (Marker.copied .across j w.text)) := by
  obtain ⟨block, -, hline⟩ := line_of_placed h hfate hk
  have hlive : Strip.isLive w.text = true := by
    rw [Strip.isLive, Marker.inText_of_valueInText (valueInText_widening hw), Bool.true_or]
  have hkept : (keptLine grid row (expansion leaves areas grid block row).stacking.copies).get? w.anchor = some w.text := by
    rw [get?_keptLine, text_of_widening hw, Option.filter_some, hlive, Bool.or_true, if_pos rfl]
  have hrow : (expansion leaves areas grid block row).line.get? (w.column j 0) = some (Marker.copied .across j w.text) := by
    rw [expansion_line, hw]
    exact Widening.get?_widen_column hkept hj halone
  rw [Grid.text?, hline, copyLine]
  split
  · rename_i hzero
    rw [hrow, hzero, Marker.copied_zero]
  · rename_i hpos
    have hcopied : (expansion leaves areas grid block row).stacking.line.get? (w.column j 0) =
        some (Marker.copied .across j w.text) := by
      change (Stacking.copied _ row (expansion leaves areas grid block row).line).get? _ = _
      rw [Stacking.copied, SortedMap.get?_filter, hrow, Option.filter_some, Marker.valueInText_copied, valueInText_widening hw,
        Bool.true_or, if_pos rfl]
    rw [SortedMap.get?_mapValues, hcopied, Option.map_some, Marker.copied_of_ne_zero hpos]

end Layout

namespace Marker

/-- Advances commute and add up. It does not matter whether the last position of every marker of a text is advanced first or the first
one. Advancing the same position twice is advancing it by the sum, where no position that can be read passes the last one. So in the
sheet of a template the copy `j` of a cell that repeats across, in copy `k` of its row, holds a text that is the same whichever
copy is made first; and where a marker of the cell names element `(row, column)` of a list of lists, with a wildcard for 0, the
marker of the copy names element `(row + k, column + j)`. -/
theorem advances_commute_and_add (s : String) (a b : Nat) :
    advance .down b (advance .across a s) = advance .across a (advance .down b s) ∧
    (∀ direction, (∀ m ∈ all s, ∀ n, m.path.position? direction = some n → n + (a + b) ≤ Path.lastPosition) →
      advance direction b (advance direction a s) = advance direction (a + b) s) ∧
    ∀ leaves areas grid layout, Layout.ofTemplate leaves areas grid = .ok layout → ∀ row origin copies stride w text,
      layout.fate? row = some (.placed origin copies stride) → Layout.widening? leaves areas grid row = some w →
      (grid.line row).get? w.anchor = some text → ∀ k ≤ copies, ∀ j ≤ w.copies,
      (∀ other ≤ w.copies, w.column other 0 = w.column j 0 → other = j) →
        ∃ copy, layout.grid.text? ⟨w.column j 0, origin + k * stride⟩ = some copy ∧
          copy = copied .down k (copied .across j (ground text)) ∧ copy = copied .across j (copied .down k (ground text)) ∧
          List.Forall₂ (fun m m' : Marker => ∀ front middle back i l, m.path.grounded = Path.element front middle back i l →
            (∀ segment ∈ front, Path.IsName segment) → (∀ segment ∈ back, Path.IsName segment) →
              i + k ≤ Path.lastPosition → l + j ≤ Path.lastPosition →
                m' = m.withPath (Path.element front middle back (i + k) (l + j))) (all text) (all copy) := by
  refine ⟨advance_comm a b s, fun direction hfar => advance_add hfar, ?_⟩
  intro leaves areas grid layout hlayout row origin copies stride w text hfate hw htext k hk j hj halone
  have hground : w.text = ground text := by
    have hcell := Layout.text_of_widening hw
    rw [Layout.groundedLine, SortedMap.get?_mapValues, htext] at hcell
    exact (Option.some.inj hcell).symm
  refine ⟨_, Layout.text?_of_copied hlayout hfate hw hk hj halone, by rw [hground], by rw [hground, copied_comm], ?_⟩
  have hmarkers := all_copied_copied k j (ground text)
  rw [all_ground, List.forall₂_map_left_iff] at hmarkers
  rw [hground]
  exact hmarkers

/-- A list of two lists of three values. -/
def Sample.values : Leaves :=
  Leaves.ofValue (.map [("m", .list [.list [.int 1, .int 2, .int 3], .list [.int 4, .int 5, .int 6]])])

/-- A value in every one of them, beside a path with a leading zero. -/
def Sample.valueText : String := "[m.*.*] of [k.07.1]"

/-- A template with this text in its only cell. -/
def Sample.valueTexts : Grid := SortedMap.ofList [(1, SortedMap.ofList [(Layout.Sample.columnA, valueText)])]

/-- The last value of the last list is read in the copy across of the copy down. -/
theorem last_value_of_last_list : ∃ layout w,
    Layout.ofTemplate Sample.values [] Sample.valueTexts = .ok layout ∧ layout.fate? 1 = some (.placed 1 1 1) ∧
    Layout.widening? Sample.values [] Sample.valueTexts 1 = some w ∧ (Sample.valueTexts.line 1).get? w.anchor = some Sample.valueText ∧
    2 ≤ w.copies ∧ (∀ other ≤ w.copies, w.column other 0 = w.column 2 0 → other = 2) ∧
    (∃ copy, layout.grid.text? ⟨w.column 2 0, 1 + 1 * 1⟩ = some copy ∧ copy = "[m.1.2] of [k.8.3]") ∧
    advance .down 1 (advance .across 2 Sample.valueText) = advance .across 2 (advance .down 1 Sample.valueText) ∧
    (∀ m ∈ all Sample.valueText, ∀ n, m.path.position? .across = some n → n + (1 + 2) ≤ Path.lastPosition) ∧
    advance .across 2 (advance .across 1 Sample.valueText) = advance .across (1 + 2) Sample.valueText := by
  obtain ⟨layout, hlayout, hplaced⟩ := Layout.exists_ok_of_any (show (Layout.ofTemplate Sample.values [] Sample.valueTexts).toOption.any
    (fun layout => decide (layout.fate? 1 = some (.placed 1 1 1))) = true by decide +kernel)
  have hfate := of_decide_eq_true hplaced
  have hwidening : Layout.widening? Sample.values [] Sample.valueTexts 1 =
      some ⟨Layout.Sample.columnA, ground Sample.valueText, 0, 2⟩ := by decide +kernel
  have htext : (Sample.valueTexts.line 1).get? Layout.Sample.columnA = some Sample.valueText := by decide +kernel
  have halone : ∀ other ≤ 2, (Widening.mk Layout.Sample.columnA (ground Sample.valueText) 0 2).column other 0 =
      (Widening.mk Layout.Sample.columnA (ground Sample.valueText) 0 2).column 2 0 → other = 2 := by decide +kernel
  have hread : (all Sample.valueText).all (fun m => (m.path.position? .across).all fun n => n + (1 + 2) ≤ Path.lastPosition) = true := by
    decide +kernel
  have hfar : ∀ m ∈ all Sample.valueText, ∀ n, m.path.position? .across = some n → n + (1 + 2) ≤ Path.lastPosition := by
    intro m hm n hn
    have hposition := List.all_eq_true.1 hread m hm
    rw [hn] at hposition
    exact of_decide_eq_true hposition
  obtain ⟨hcomm, -, hcells⟩ := advances_commute_and_add Sample.valueText 2 1
  obtain ⟨copy, hcopy, hdown, -⟩ := hcells _ _ _ layout hlayout 1 1 1 1 _ _ hfate hwidening htext 1 (Nat.le_refl 1) 2 (Nat.le_refl 2) halone
  obtain ⟨-, hsum, -⟩ := advances_commute_and_add Sample.valueText 1 2
  exact ⟨layout, _, hlayout, hfate, hwidening, htext, Nat.le_refl 2, halone, ⟨copy, hcopy, hdown.trans (by decide +kernel)⟩, hcomm, hfar,
    hsum .across hfar⟩

end Marker
end SheetTemplate

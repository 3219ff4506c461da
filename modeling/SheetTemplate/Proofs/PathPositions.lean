import SheetTemplate.Proofs.MarkerScan
import SheetTemplate.Proofs.PayloadLeaves

/-!
# Positions of a path

To advance a path is to write a larger number at one place of it (`Path.put`). Which places hold positions can be told from the kinds of
the segments alone, and a position is put in the place of a position, so all places stay where they are (`Path.place?_put`). What is
written at one of them is read there again (`Path.position?_put`), and nothing else changes at the others.

`Path.advance?_eq_some_iff` says all that advancing does.
-/

namespace SheetTemplate
namespace Path

variable {p q : Path} {direction : Direction} {place other n step : Nat}

/-! ## Places -/

theorem isPosition_position (n : Nat) : isPosition (Value.position n) = true := by
  have hne : Value.position n ≠ "" := by
    intro h
    exact Text.digits_ne_nil n (by simpa [Value.position] using congrArg String.toList h)
  rw [isPosition, decide_eq_true hne, Bool.true_and, Value.position, String.toList_ofList]
  exact Text.all_isDigit_digits n

/-- The places of positions depend on the kinds of the segments alone. -/
theorem positionPlaces_congr (h : p.segments.map isPosition = q.segments.map isPosition) : p.positionPlaces = q.positionPlaces := by
  have hkinds : ∀ path : Path, path.positionPlaces = ((path.segments.map isPosition).zipIdx.filter (·.1)).map (·.2) := by
    intro path
    rw [positionPlaces, List.zipIdx_map, List.filter_map, List.map_map]
    rfl
  rw [hkinds, hkinds, h]

/-- The places of positions come in order. -/
theorem sorted_positionPlaces (p : Path) : p.positionPlaces.Pairwise (· < ·) := by
  have hplaces : p.positionPlaces.Sublist (List.range p.segments.length) := by
    have hall : p.segments.zipIdx.map (·.2) = List.range p.segments.length := by
      rw [List.zipIdx_map_snd, List.range_eq_range']
    rw [← hall]
    exact List.Sublist.map _ List.filter_sublist
  exact List.pairwise_lt_range.sublist hplaces

/-- The position of the column comes behind the position of the row. -/
theorem place?_lt (hdown : p.place? .down = some place) (hacross : p.place? .across = some other) : place < other := by
  have hsorted := p.sorted_positionPlaces
  simp only [place?] at hdown hacross
  split at hacross
  · rename_i htwo
    cases hplaces : p.positionPlaces with
    | nil => rw [hplaces] at hdown; cases hdown
    | cons first rest =>
      rw [hplaces] at hdown hacross htwo hsorted
      obtain rfl := Option.some.inj hdown
      have hrest : rest ≠ [] := List.length_pos_iff.1 (Nat.lt_of_succ_lt_succ htwo)
      rw [List.getLast?_cons_of_ne_nil hrest] at hacross
      exact (List.pairwise_cons.1 hsorted).1 other (List.mem_of_getLast? hacross)
  · cases hacross

/-! ## Writing a position -/

/-- The path with position `n` at a place. -/
def put (p : Path) (place n : Nat) : Path := ⟨p.segments.set place (Value.position n)⟩

/-- The position along a direction, if it does not pass the last one. -/
def position? (p : Path) (direction : Direction) : Option Nat := do
  let place ← p.place? direction
  let segment ← p.segments[place]?
  Text.number? lastPosition segment.toList

/-- All that advancing does. -/
theorem advance?_eq_some_iff : p.advance? direction step = some q ↔
    ∃ place n, p.place? direction = some place ∧ p.position? direction = some n ∧ n + step ≤ lastPosition ∧ q = p.put place (n + step) := by
  simp only [advance?, position?, Option.bind_eq_bind, Option.bind_eq_some_iff, Option.ite_none_right_eq_some, Option.some.injEq]
  constructor
  · rintro ⟨place, hplace, segment, hsegment, n, hn, hle, rfl⟩
    exact ⟨place, n, hplace, ⟨place, hplace, segment, hsegment, hn⟩, hle, rfl⟩
  · rintro ⟨place, n, hplace, ⟨place', hplace', segment, hsegment, hn⟩, hle, rfl⟩
    obtain rfl := Option.some.inj (hplace.symm.trans hplace')
    exact ⟨place, hplace, segment, hsegment, n, hn, hle, rfl⟩

/-- Where a position is put in the place of a position, all places stay. -/
theorem place?_put (h : p.place? direction = some place) (n : Nat) (d : Direction) : (p.put place n).place? d = p.place? d := by
  obtain ⟨segment, hsegment, hposition⟩ := Marker.isPosition_of_place? h
  have hkinds : (p.put place n).segments.map isPosition = p.segments.map isPosition := by
    have hkind : (p.segments.map isPosition)[place]? = some true := by rw [List.getElem?_map, hsegment, Option.map_some, hposition]
    obtain ⟨hlt, hget⟩ := List.getElem?_eq_some_iff.1 hkind
    rw [put, List.map_set, isPosition_position, ← hget, List.set_getElem_self]
  cases d <;> rw [place?, place?, positionPlaces_congr hkinds]

/-- A position is read where it stands along the direction. -/
theorem position?_of_place? (hplace : p.place? direction = some place) (hsegment : p.segments[place]? = some (Value.position n))
    (hn : n ≤ lastPosition) : p.position? direction = some n := by
  have hnumber : Text.number? lastPosition (Value.position n).toList = some n := by
    rw [Value.position, String.toList_ofList]
    exact Text.number?_digits hn
  rw [position?, hplace, Option.bind_eq_bind, Option.bind_some, hsegment, Option.bind_eq_bind, Option.bind_some, hnumber]

/-- A position that was put somewhere is read there. -/
theorem position?_put (h : p.place? direction = some place) (hn : n ≤ lastPosition) :
    (p.put place n).position? direction = some n := by
  obtain ⟨segment, hsegment, -⟩ := Marker.isPosition_of_place? h
  refine position?_of_place? ((place?_put h n direction).trans h) ?_ hn
  rw [put, List.getElem?_set_self (List.getElem?_eq_some_iff.1 hsegment).1]

/-- A position put in another place is not read. -/
theorem position?_put_of_ne (h : p.place? direction = some place) {d : Direction} (hne : p.place? d ≠ some place) (n : Nat) :
    (p.put place n).position? d = p.position? d := by
  rw [position?, position?, place?_put h]
  cases hplace : p.place? d with
  | none => rfl
  | some other =>
    have hother : place ≠ other := by
      rintro rfl
      exact hne hplace
    simp only [Option.bind_eq_bind, Option.bind_some, put, List.getElem?_set_ne hother]

/-! ## Advancing as far as it goes -/

/-- The path `step` elements further along a direction, or the path itself where it does not go so far. -/
def further (p : Path) (direction : Direction) (step : Nat) : Path := (p.advance? direction step).getD p

/-- A path whose position can be read, and is far enough from the last one, goes further. -/
theorem further_of_le (hplace : p.place? direction = some place) (hn : p.position? direction = some n) (hle : n + step ≤ lastPosition) :
    p.further direction step = p.put place (n + step) := by
  rw [further, advance?_eq_some_iff.2 ⟨place, n, hplace, hn, hle, rfl⟩, Option.getD_some]

/-- A path goes no further without a position that can be read, or where the position would pass the last one. -/
theorem further_eq_self (h : ∀ n, p.position? direction = some n → ¬n + step ≤ lastPosition) : p.further direction step = p := by
  rw [further]
  cases hnext : p.advance? direction step with
  | none => rfl
  | some q =>
    obtain ⟨place, n, -, hn, hle, -⟩ := advance?_eq_some_iff.1 hnext
    exact absurd hle (h n hn)

/-- Where a position is read, there is a place for it. -/
theorem exists_place_of_position? (h : p.position? direction = some n) : ∃ place, p.place? direction = some place := by
  simp only [position?, Option.bind_eq_bind, Option.bind_eq_some_iff] at h
  obtain ⟨place, hplace, -⟩ := h
  exact ⟨place, hplace⟩

/-- A path goes further at one place, or not at all. -/
theorem further_cases (p : Path) (direction : Direction) (step : Nat) :
    (∃ place n, p.place? direction = some place ∧ p.position? direction = some n ∧ n + step ≤ lastPosition ∧
      p.further direction step = p.put place (n + step)) ∨
    (∀ n, p.position? direction = some n → ¬n + step ≤ lastPosition) ∧ p.further direction step = p := by
  by_cases h : ∃ n, p.position? direction = some n ∧ n + step ≤ lastPosition
  · obtain ⟨n, hn, hle⟩ := h
    obtain ⟨place, hplace⟩ := exists_place_of_position? hn
    exact Or.inl ⟨place, n, hplace, hn, hle, further_of_le hplace hn hle⟩
  · have hnone : ∀ n, p.position? direction = some n → ¬n + step ≤ lastPosition := fun n hn hle => h ⟨n, hn, hle⟩
    exact Or.inr ⟨hnone, further_eq_self hnone⟩

end Path
end SheetTemplate

import SheetTemplate.Compile
import SheetTemplate.Proofs.ResolvedPaths

/-!
# Resolved texts

What resolution does to a text, if no key has a wildcard among its segments. It is idempotent (`resolve_resolve`). A marker keeps its
sign, its blanks and its place, and its path stays or names a leaf (`resolved_pieces`). But the path that a marker is resolved to need not
begin with a letter, since segments that lead nowhere are skipped, the first one too; what is left of the marker are plain letters then
(`year_loses_marker`).
-/

namespace SheetTemplate
namespace Leaves

variable {payload : Value} {path q : Path} {m : Marker} {s : String}

/-- The segments of a resolved path can stand in a marker. -/
theorem isSegment_of_resolve? (h : Marker.admits path = true) (hq : (ofValue payload).resolve? path = some q) :
    ∀ s ∈ q.segments, Marker.isSegment s = true := by
  obtain ⟨hname, hdot⟩ := Marker.names_of_admits h
  obtain ⟨-, -, rfl, -⟩ := resolve?_eq_some_iff.1 hq
  have hfound : ∀ s ∈ (ofValue payload).follow [] path.segments, Marker.isSegment s = true := by
    intro s hs
    rcases (followed_of_names hname hdot).among s hs with hmem | rfl
    · exact (Marker.admits_iff.1 h).2 s hmem
    · decide
  generalize (ofValue payload).follow [] path.segments = found at hfound
  cases found with
  | nil => exact nofun
  | cons root below =>
    intro s hs
    rcases List.mem_cons.1 hs with rfl | hs
    · exact hfound s List.mem_cons_self
    · obtain ⟨t, ht, rfl⟩ := List.mem_map.1 hs
      split
      · decide
      · exact hfound t (List.mem_cons_of_mem root ht)

/-- The markers of a resolved text stay as they are when it is resolved again. -/
theorem resolve?_of_mem_all (h : (ofValue payload).NoWildcardKeys) (hm : m ∈ Marker.all (Marker.resolve (ofValue payload) s)) :
    (ofValue payload).resolve? m.path = none := by
  rw [Marker.mem_all_iff, Marker.resolve, Marker.pieces_mapPaths fun _ _ => isSegment_of_resolve?] at hm
  obtain ⟨p, hp, hrewritten⟩ := List.mem_flatMap.1 hm
  obtain ⟨m', rfl, ⟨hnone, rfl⟩ | ⟨q, hq, -, rfl⟩⟩ := Piece.marker_mem_rewrite hrewritten
  · exact hnone
  · obtain ⟨hname, hdot⟩ := Marker.names_of_admits (Marker.proper_of_mem_all (Marker.mem_all_iff.2 hp)).admitted
    exact h.resolve?_resolved hname hdot hq

/-- Resolution is idempotent: a text that was resolved stays as it is when it is resolved again, and so does a grid. -/
theorem resolve_resolve (h : (ofValue payload).NoWildcardKeys) :
    (∀ s, Marker.resolve (ofValue payload) (Marker.resolve (ofValue payload) s) = Marker.resolve (ofValue payload) s) ∧
      ∀ grid, Template.resolve (ofValue payload) (Template.resolve (ofValue payload) grid) = Template.resolve (ofValue payload) grid := by
  have htext : ∀ s, Marker.resolve (ofValue payload) (Marker.resolve (ofValue payload) s) = Marker.resolve (ofValue payload) s :=
    fun s => Marker.mapPaths_eq_self fun m hm => resolve?_of_mem_all h hm
  refine ⟨htext, fun grid => ?_⟩
  simp only [Template.resolve, Grid.mapTexts, SortedMap.mapValues_mapValues, htext]

/-- A resolved path names a leaf with its wildcards read as 0. -/
theorem NoWildcardKeys.contains_grounded (h : (ofValue payload).NoWildcardKeys) (hadmits : Marker.admits path = true)
    (hq : (ofValue payload).resolve? path = some q) : (ofValue payload).contains q.grounded.text = true := by
  obtain ⟨hname, hdot⟩ := Marker.names_of_admits hadmits
  obtain ⟨-, hleaf, rfl, -⟩ := resolve?_eq_some_iff.1 hq
  rw [Path.grounded_generalized (h.hasWildcard (followed_of_names hname hdot).spelled hleaf)]
  exact hleaf

/-- A path whose first segment leads towards a leaf is resolved to one that can stand in a marker. -/
theorem admits_of_reaches (hadmits : Marker.admits path = true) (hq : (ofValue payload).resolve? path = some q) {name : String}
    (hname : path.segments.head? = some name) (hreach : (ofValue payload).reaches name = true) : Marker.admits q = true := by
  obtain ⟨⟨first, rest, c, hsegments, hletter, hc⟩, -⟩ := Marker.admits_iff.1 hadmits
  refine Marker.admits_iff.2 ⟨?_, isSegment_of_resolve? hadmits hq⟩
  obtain ⟨-, -, rfl, -⟩ := resolve?_eq_some_iff.1 hq
  rw [hsegments] at hname
  obtain rfl := Option.some.inj hname
  have hfirst : (ofValue payload).reachesBy [] first = true := hreach
  obtain ⟨below, hfound⟩ := append_isPrefix_follow hfirst rest
  rw [hsegments, ← hfound]
  exact ⟨first, _, c, rfl, hletter, hc⟩

/-- What becomes of the markers of a text. The text between them stays, and so do the signs and blanks of each of them. A path stays or is
replaced by one that names a leaf with its wildcards read as 0, and the marker is one again if that path begins with a letter, as it does
where the first segment leads towards a leaf. Otherwise its characters are left in the text. -/
theorem resolved_pieces (h : (ofValue payload).NoWildcardKeys) (s : String) :
    Piece.ofText (Marker.resolve (ofValue payload) s) = (Piece.ofText s).flatMap (Piece.rewrite (ofValue payload).resolve?) ∧
    (∀ m ∈ Marker.all s, ∀ q, (ofValue payload).resolve? m.path = some q → (ofValue payload).contains q.grounded.text = true ∧
      (Marker.admits q = true ↔ ∃ c, q.chars.head? = some c ∧ c.isAlpha = true) ∧
      ∀ name, m.path.segments.head? = some name → (ofValue payload).reaches name = true → Marker.admits q = true) ∧
    ((∀ m ∈ Marker.all s, ∀ q, (ofValue payload).resolve? m.path = some q → Marker.admits q = true) →
      Piece.ofText (Marker.resolve (ofValue payload) s) = (Piece.ofText s).map (Piece.mapPath (ofValue payload).resolve?)) := by
  have hpieces : Piece.ofText (Marker.resolve (ofValue payload) s) =
      (Piece.ofText s).flatMap (Piece.rewrite (ofValue payload).resolve?) :=
    Marker.pieces_mapPaths (fun _ _ => isSegment_of_resolve?) s
  refine ⟨hpieces, ?_, ?_⟩
  · intro m hm q hq
    have hadmits := (Marker.proper_of_mem_all hm).admitted
    refine ⟨h.contains_grounded hadmits hq, ?_, fun name => admits_of_reaches hadmits hq⟩
    have hall := List.all_eq_true.2 (isSegment_of_resolve? hadmits hq)
    rw [Marker.admits, hall, Bool.and_true, Option.any_eq_true]
  · exact fun hkept => hpieces.trans (Marker.flatMap_rewrite hkept)

/-- A list of items, and a total by year. -/
def Sample.years : Value := .map [("2024", .map [("total", .int 5)]), ("items", .list [.map [("n", .int 7)]])]

theorem Sample.years_plain : (ofValue years).NoWildcardKeys := by decide +kernel

/-- A condition on an item is resolved, and stays so. -/
theorem item_resolved_once : Marker.resolve (ofValue Sample.years) "[= items.n] sold" = "[= items.*.n] sold" ∧
    Marker.resolve (ofValue Sample.years) "[= items.*.n] sold" = "[= items.*.n] sold" := by
  have hresolved : Marker.resolve (ofValue Sample.years) "[= items.n] sold" = "[= items.*.n] sold" := by decide +kernel
  have htwice := (resolve_resolve Sample.years_plain).1 "[= items.n] sold"
  rw [hresolved] at htwice
  exact ⟨hresolved, htwice⟩

/-- The condition on an item is one again, and asks for the item. -/
theorem item_stays_condition : (ofValue Sample.years).contains "items.0.n" = true ∧
    Piece.ofText (Marker.resolve (ofValue Sample.years) "[= items.n] sold") =
      (Piece.ofText "[= items.n] sold").map (Piece.mapPath (ofValue Sample.years).resolve?) := by
  have hall : Marker.all "[= items.n] sold" = [⟨.rowIf, [' '], ⟨["items", "n"]⟩⟩] := by decide +kernel
  obtain ⟨-, hmarkers, hkept⟩ := resolved_pieces Sample.years_plain "[= items.n] sold"
  rw [hall] at hmarkers hkept
  refine ⟨(hmarkers _ List.mem_cons_self ⟨["items", "*", "n"]⟩ (by decide +kernel)).1, hkept fun m hm q hq => ?_⟩
  refine (hmarkers m hm q hq).2.2 "items" ?_ (by decide +kernel)
  rw [List.mem_singleton.1 hm]
  rfl

/-- A path whose first segment leads nowhere is followed from a year on, and what is left is no marker. -/
theorem year_loses_marker : (ofValue Sample.years).NoWildcardKeys ∧ Marker.all "[order.2024.total]" = [⟨.value, [], ⟨["order", "2024", "total"]⟩⟩] ∧
    Marker.resolve (ofValue Sample.years) "[order.2024.total]" = "[2024.total]" ∧ Marker.all "[2024.total]" = [] :=
  ⟨Sample.years_plain, by decide +kernel, by decide +kernel, by decide +kernel⟩

end Leaves
end SheetTemplate

import Mathlib.Data.List.Nodup
import SheetTemplate.Layout

/-!
# Bands of a layout

The walk over a template (`Layout.walk`) meets one row after the other, but it treats some of them together: a row that goes out
is a band by itself, and a row that stays is one with the rows of the block that it begins. `Laid` says which bands a template is
made of and where they stand. A band that stays takes `(copies + 1) * (height + 1)` rows of the sheet, the next band follows it
without a gap, and a block is never cut short, since the rows of every merge are walked.

`Laid` is derived from the walk in one place (`exists_laid`). What is said of layouts elsewhere goes by induction on it.
-/

namespace SheetTemplate
namespace Layout

/-! ## Rows of a template by themselves -/

/-- A row of a template with its markers grounded. -/
def groundedLine (grid : Grid) (row : Nat) : Line := (grid.line row).mapValues fun _ text => Marker.ground text

/-- What the markers of a row of a template ask for. -/
def repetition (leaves : Leaves) (grid : Grid) (row : Nat) : Repetition := Repetition.ofLine leaves (grid.line row)

/-- Whether a condition over a row of a template is not met. -/
def refuses (leaves : Leaves) (grid : Grid) (row : Nat) : Bool := Strip.isRefused leaves (groundedLine grid row)

/-- The expansion of a row of a template that is met inside `block`. -/
def expansion (leaves : Leaves) (areas : List Area) (grid : Grid) (block : Block) (row : Nat) : Expansion :=
  Expansion.ofLine areas block row (groundedLine grid row) (repetition leaves grid row)

/-- How far the merges of repeated values reach below a row that is met outside of blocks. -/
def ownHeight (leaves : Leaves) (areas : List Area) (grid : Grid) (row : Nat) : Nat :=
  (expansion leaves areas grid .idle row).height

variable {leaves : Leaves} {areas : List Area} {grid : Grid}

/-- A row without copies has no height. -/
theorem ownHeight_eq_zero {row : Nat} (h : (repetition leaves grid row).rows = 0) : ownHeight leaves areas grid row = 0 := by
  unfold ownHeight expansion Expansion.ofLine
  simp only [Block.copies, Block.inherited?, Option.elim, h, if_true]

/-! ## Bands -/

/-- Rows of a template that are laid out together. -/
inductive Band
  /-- Row `row` goes out where it stands at row `origin`. -/
  | deleted (row origin : Nat)
  /-- Rows `row` to `row + height` stay and stand from row `origin` on. Below them follow `copies` copies of all of them. -/
  | kept (row origin height copies : Nat)

namespace Band

/-- The first row of a band in the template. -/
def row : Band → Nat
  | .deleted row _ => row
  | .kept row _ _ _ => row

/-- Where the first row of a band stands. -/
def origin : Band → Nat
  | .deleted _ origin => origin
  | .kept _ origin _ _ => origin

/-- The row of the template below a band. -/
def nextRow : Band → Nat
  | .deleted row _ => row + 1
  | .kept row _ height _ => row + height + 1

/-- Where the row below a band stands. -/
def nextOrigin : Band → Nat
  | .deleted _ origin => origin
  | .kept _ origin height copies => origin + (copies + 1) * (height + 1)

/-- The row actions of a band. -/
def actions : Band → List RowAction
  | .deleted _ origin => [.delete origin]
  | .kept _ origin height copies => (List.range' (origin + height + 1) (copies * (height + 1))).map .add

/-- The block that the walk is in when it meets row `place` of a band that stays. -/
def blockAt (height copies : Nat) : Nat → Block
  | 0 => .idle
  | place + 1 => .running (height - place) copies (height + 1)

/-- Row `place` of a band that stays, as the walk lays it out. -/
def keptStrip (leaves : Leaves) (areas : List Area) (grid : Grid) (row origin height copies place : Nat) : Strip :=
  (expansion leaves areas grid (blockAt height copies place) (row + place)).strip (blockAt height copies place) (origin + place)

/-- The strips of a band. -/
def strips (leaves : Leaves) (areas : List Area) (grid : Grid) : Band → List Strip
  | .deleted row origin => [Strip.deleted row origin]
  | .kept row origin height copies => (List.range (height + 1)).map (keptStrip leaves areas grid row origin height copies)

end Band

/-- `Laid leaves areas grid row origin bands row' origin'`: outside of blocks the walk meets row `row` of the template, which
stands at row `origin`, goes on over `bands` and comes to row `row'`, which stands at row `origin'`. -/
inductive Laid (leaves : Leaves) (areas : List Area) (grid : Grid) : Nat → Nat → List Band → Nat → Nat → Prop
  | nil (row origin : Nat) : Laid leaves areas grid row origin [] row origin
  | deleted {row origin row' origin' : Nat} {rest : List Band} (refused : refuses leaves grid row = true)
      (one_le : 1 ≤ origin) (le_last : origin ≤ lastRow) (after : Laid leaves areas grid (row + 1) origin rest row' origin') :
      Laid leaves areas grid row origin (.deleted row origin :: rest) row' origin'
  | kept {row origin height copies row' origin' : Nat} {rest : List Band} (stays : refuses leaves grid row = false)
      (copies_eq : copies = (repetition leaves grid row).rows) (height_eq : height = ownHeight leaves areas grid row)
      (one_le : 1 ≤ origin) (le_last : origin + height + copies * (height + 1) ≤ lastRow)
      (after : Laid leaves areas grid (row + height + 1) (origin + (copies + 1) * (height + 1)) rest row' origin') :
      Laid leaves areas grid row origin (.kept row origin height copies :: rest) row' origin'

variable {row origin row' origin' : Nat} {bands : List Band}

/-! ## What bands cover -/

/-- The bands above and below a band. -/
theorem Laid.split (h : Laid leaves areas grid row origin bands row' origin') {band : Band} (hb : band ∈ bands) :
    ∃ above below, bands = above ++ band :: below ∧ Laid leaves areas grid row origin above band.row band.origin ∧
      Laid leaves areas grid band.row band.origin (band :: below) row' origin' := by
  induction h with
  | nil => cases hb
  | deleted refused one_le le_last after ih =>
    rcases List.mem_cons.1 hb with rfl | hb
    · exact ⟨[], _, rfl, .nil _ _, .deleted refused one_le le_last after⟩
    · obtain ⟨above, below, rfl, habove, hbelow⟩ := ih hb
      exact ⟨_ :: above, below, rfl, .deleted refused one_le le_last habove, hbelow⟩
  | kept stays copies_eq height_eq one_le le_last after ih =>
    rcases List.mem_cons.1 hb with rfl | hb
    · exact ⟨[], _, rfl, .nil _ _, .kept stays copies_eq height_eq one_le le_last after⟩
    · obtain ⟨above, below, rfl, habove, hbelow⟩ := ih hb
      exact ⟨_ :: above, below, rfl, .kept stays copies_eq height_eq one_le le_last habove, hbelow⟩

/-- The first band begins where the bands do. -/
theorem Laid.head {band : Band} {rest : List Band} (h : Laid leaves areas grid row origin (band :: rest) row' origin') :
    band.row = row ∧ band.origin = origin := by
  cases h <;> exact ⟨rfl, rfl⟩

/-- The bands below the first one begin where it ends. -/
theorem Laid.tail {band : Band} {rest : List Band} (h : Laid leaves areas grid row origin (band :: rest) row' origin') :
    Laid leaves areas grid band.nextRow band.nextOrigin rest row' origin' := by
  cases h with
  | deleted _ _ _ after => exact after
  | kept _ _ _ _ _ after => exact after

theorem Band.row_lt_nextRow (band : Band) : band.row < band.nextRow := by
  cases band with
  | deleted row origin => exact Nat.lt_succ_self row
  | kept row origin height copies => exact Nat.lt_succ_of_le (Nat.le_add_right row height)

theorem Band.origin_le_nextOrigin (band : Band) : band.origin ≤ band.nextOrigin := by
  cases band with
  | deleted row origin => exact Nat.le_refl origin
  | kept row origin height copies => exact Nat.le_add_right _ _

/-- Bands go down the template and down the sheet. -/
theorem Laid.le (h : Laid leaves areas grid row origin bands row' origin') : row ≤ row' ∧ origin ≤ origin' := by
  induction h with
  | nil => exact ⟨Nat.le_refl _, Nat.le_refl _⟩
  | deleted _ _ _ _ ih => exact ⟨by omega, ih.2⟩
  | kept _ _ _ _ _ _ ih => exact ⟨by omega, Nat.le_trans (Nat.le_add_right _ _) ih.2⟩

/-- Between a row and itself there is no band. -/
theorem Laid.eq_nil (h : Laid leaves areas grid row origin bands row origin') : bands = [] ∧ origin' = origin := by
  cases bands with
  | nil =>
    cases h
    exact ⟨rfl, rfl⟩
  | cons band rest =>
    have h1 := h.head.1
    have h2 := h.tail.le.1
    have h3 := band.row_lt_nextRow
    omega

/-- A band lies between the ends of the bands it is one of. -/
theorem Laid.bounds (h : Laid leaves areas grid row origin bands row' origin') {band : Band} (hb : band ∈ bands) :
    row ≤ band.row ∧ band.nextRow ≤ row' ∧ origin ≤ band.origin ∧ band.nextOrigin ≤ origin' := by
  obtain ⟨above, below, -, habove, hbelow⟩ := h.split hb
  exact ⟨habove.le.1, hbelow.tail.le.1, habove.le.2, hbelow.tail.le.2⟩

/-- Of two different bands one lies above the other, in the template and in the sheet. -/
theorem Laid.order (h : Laid leaves areas grid row origin bands row' origin') {a b : Band} (ha : a ∈ bands) (hb : b ∈ bands) :
    a = b ∨ (a.nextRow ≤ b.row ∧ a.nextOrigin ≤ b.origin) ∨ (b.nextRow ≤ a.row ∧ b.nextOrigin ≤ a.origin) := by
  obtain ⟨above, below, rfl, habove, hbelow⟩ := h.split ha
  rcases List.mem_append.1 hb with hmem | hmem
  · have hbounds := habove.bounds hmem
    exact Or.inr (Or.inr ⟨hbounds.2.1, hbounds.2.2.2⟩)
  · rcases List.mem_cons.1 hmem with rfl | hmem
    · exact Or.inl rfl
    · have hbounds := hbelow.tail.bounds hmem
      exact Or.inr (Or.inl ⟨hbounds.1, hbounds.2.2.1⟩)

/-- Bands that share a row of the sheet are the same. -/
theorem Laid.eq_of_origins (h : Laid leaves areas grid row origin bands row' origin') {a b : Band} (ha : a ∈ bands)
    (hb : b ∈ bands) {p : Nat} (hpa : a.origin ≤ p ∧ p < a.nextOrigin) (hpb : b.origin ≤ p ∧ p < b.nextOrigin) : a = b := by
  rcases h.order ha hb with hsame | hbelow | habove
  · exact hsame
  · omega
  · omega

/-- Every row of the template lies in a band. -/
theorem Laid.exists_of_row (h : Laid leaves areas grid row origin bands row' origin') {r : Nat} (hr : row ≤ r) (hr' : r < row') :
    ∃ band ∈ bands, band.row ≤ r ∧ r < band.nextRow := by
  induction h with
  | nil => omega
  | @deleted row origin row' origin' rest _ _ _ _ ih =>
    by_cases hband : r < row + 1
    · exact ⟨_, List.mem_cons_self, hr, hband⟩
    · obtain ⟨band, hmem, hlies⟩ := ih (by omega) hr'
      exact ⟨band, List.mem_cons_of_mem _ hmem, hlies⟩
  | @kept row origin height copies row' origin' rest _ _ _ _ _ _ ih =>
    by_cases hband : r < row + height + 1
    · exact ⟨_, List.mem_cons_self, hr, hband⟩
    · obtain ⟨band, hmem, hlies⟩ := ih (by omega) hr'
      exact ⟨band, List.mem_cons_of_mem _ hmem, hlies⟩

/-- Every row of the sheet that bands take lies in one of them. -/
theorem Laid.exists_of_origin (h : Laid leaves areas grid row origin bands row' origin') {p : Nat} (hp : origin ≤ p)
    (hp' : p < origin') : ∃ band ∈ bands, band.origin ≤ p ∧ p < band.nextOrigin := by
  induction h with
  | nil => omega
  | @deleted row origin row' origin' rest _ _ _ _ ih =>
    obtain ⟨band, hmem, hlies⟩ := ih hp hp'
    exact ⟨band, List.mem_cons_of_mem _ hmem, hlies⟩
  | @kept row origin height copies row' origin' rest _ _ _ _ _ _ ih =>
    by_cases hband : p < origin + (copies + 1) * (height + 1)
    · exact ⟨_, List.mem_cons_self, hp, hband⟩
    · obtain ⟨band, hmem, hlies⟩ := ih (by omega) hp'
      exact ⟨band, List.mem_cons_of_mem _ hmem, hlies⟩

/-- What holds of a band that stays. -/
theorem Laid.of_kept (h : Laid leaves areas grid row origin bands row' origin') {r o height copies : Nat}
    (hb : .kept r o height copies ∈ bands) :
    refuses leaves grid r = false ∧ copies = (repetition leaves grid r).rows ∧ height = ownHeight leaves areas grid r ∧
      1 ≤ o ∧ o + height + copies * (height + 1) ≤ lastRow := by
  obtain ⟨above, below, -, -, hbelow⟩ := h.split hb
  cases hbelow with
  | kept stays copies_eq height_eq one_le le_last after => exact ⟨stays, copies_eq, height_eq, one_le, le_last⟩

/-- What holds of a band that goes out. -/
theorem Laid.of_deleted (h : Laid leaves areas grid row origin bands row' origin') {r o : Nat} (hb : .deleted r o ∈ bands) :
    refuses leaves grid r = true ∧ 1 ≤ o ∧ o ≤ lastRow := by
  obtain ⟨above, below, -, -, hbelow⟩ := h.split hb
  cases hbelow with
  | deleted refused one_le le_last after => exact ⟨refused, one_le, le_last⟩

/-! ## The rows of the sheet in a band -/

/-- Every row of the sheet that a band takes is one of its rows or the row of a copy. -/
theorem exists_copy {o height copies p : Nat} (h1 : o ≤ p) (h2 : p < o + (copies + 1) * (height + 1)) :
    ∃ place ≤ height, ∃ copy ≤ copies, p = o + place + copy * (height + 1) := by
  have hpos : 0 < height + 1 := Nat.succ_pos height
  have hdiv := Nat.mod_add_div (p - o) (height + 1)
  have hmod := Nat.mod_lt (p - o) hpos
  have hcopy : (p - o) / (height + 1) < copies + 1 := (Nat.div_lt_iff_lt_mul hpos).2 (by omega)
  refine ⟨(p - o) % (height + 1), by omega, (p - o) / (height + 1), by omega, ?_⟩
  rw [Nat.mul_comm ((p - o) / (height + 1))]
  omega

/-- A band that stays ends with the last row of its last copy. -/
theorem end_of_kept (o height copies : Nat) : o + (copies + 1) * (height + 1) = o + height + copies * (height + 1) + 1 := by
  rw [Nat.succ_mul]
  omega

/-- The rows of a band and of its copies are rows that it takes. -/
theorem copy_lt {o height copies place copy : Nat} (h1 : place ≤ height) (h2 : copy ≤ copies) :
    o + place + copy * (height + 1) < o + (copies + 1) * (height + 1) := by
  have h3 : copy * (height + 1) ≤ copies * (height + 1) := Nat.mul_le_mul_right _ h2
  rw [end_of_kept]
  omega

/-- The rows of copies stand below the rows of the band. -/
theorem lt_copy {o height place copy : Nat} (h : 1 ≤ copy) : o + height < o + place + copy * (height + 1) := by
  have hmul : 1 * (height + 1) ≤ copy * (height + 1) := Nat.mul_le_mul_right _ h
  omega

/-- The rows of a band are rows that it takes. -/
theorem place_lt {o height copies place : Nat} (h : place ≤ height) : o + place < o + (copies + 1) * (height + 1) := by
  have : o + place + 0 * (height + 1) < o + (copies + 1) * (height + 1) := copy_lt h (Nat.zero_le copies)
  omega

/-- Copies of different rows of a band, and different copies of a row, stand in different rows. -/
theorem copy_inj {o height place place' copy copy' : Nat} (h1 : place ≤ height) (h2 : place' ≤ height)
    (h : o + place + copy * (height + 1) = o + place' + copy' * (height + 1)) : place = place' ∧ copy = copy' := by
  have hmod : ∀ a k : Nat, a ≤ height → (a + k * (height + 1)) % (height + 1) = a := by
    intro a k ha
    rw [Nat.add_mul_mod_self_right, Nat.mod_eq_of_lt (by omega)]
  have hplace : place = place' := by
    have := hmod place copy h1
    rw [show place + copy * (height + 1) = place' + copy' * (height + 1) by omega, hmod place' copy' h2] at this
    exact this.symm
  have hmul : copy * (height + 1) = copy' * (height + 1) := by omega
  exact ⟨hplace, Nat.eq_of_mul_eq_mul_right (Nat.succ_pos height) hmul⟩

/-! ## The strips of bands -/

theorem mem_strips_kept {r o height copies : Nat} {strip : Strip} :
    strip ∈ Band.strips leaves areas grid (.kept r o height copies) ↔
      ∃ place ≤ height, Band.keptStrip leaves areas grid r o height copies place = strip := by
  simp only [Band.strips, List.mem_map, List.mem_range, Nat.lt_succ_iff]

/-- The copies of a row of a band and their distance. -/
theorem keptStrip_fate {r o height copies : Nat} (place : Nat) (hc : copies = (repetition leaves grid r).rows)
    (hh : height = ownHeight leaves areas grid r) :
    (Band.keptStrip leaves areas grid r o height copies place).fate = .placed (o + place) copies (height + 1) := by
  cases place with
  | zero =>
    subst hc hh
    rfl
  | succ place => rfl

/-- The row actions of a band come from the row that begins it. -/
theorem keptStrip_actions {r o height copies : Nat} (place : Nat) (hc : copies = (repetition leaves grid r).rows)
    (hh : height = ownHeight leaves areas grid r) :
    (Band.keptStrip leaves areas grid r o height copies place).actions =
      if place = 0 then Band.actions (.kept r o height copies) else [] := by
  cases place with
  | zero =>
    subst hc hh
    rfl
  | succ place => rfl

/-- The strips of a band have its actions. -/
theorem Laid.actions_eq (h : Laid leaves areas grid row origin bands row' origin') :
    (bands.flatMap (Band.strips leaves areas grid)).flatMap (·.actions) = bands.flatMap Band.actions := by
  induction h with
  | nil => rfl
  | deleted _ _ _ _ ih =>
    rw [List.flatMap_cons, List.flatMap_append, ih]
    rfl
  | @kept r o height copies _ _ _ _ hc hh _ _ _ ih =>
    rw [List.flatMap_cons, List.flatMap_append, ih, List.flatMap_cons]
    congr 1
    rw [Band.strips, List.range_succ_eq_map, List.map_cons, List.flatMap_cons, keptStrip_actions 0 hc hh, if_pos rfl]
    rw [List.append_right_eq_self, List.flatMap_eq_nil_iff]
    intro strip hstrip
    simp only [List.map_map, List.mem_map, Function.comp_apply] at hstrip
    obtain ⟨place, -, rfl⟩ := hstrip
    rw [keptStrip_actions _ hc hh, if_neg (Nat.succ_ne_zero place)]

/-- The row actions of a layout are those of its bands. -/
theorem Laid.scaffold_rows {layout : Layout} (h : Laid leaves areas grid row origin bands row' origin')
    (hs : layout.strips = bands.flatMap (Band.strips leaves areas grid)) :
    (layout.scaffold areas).rows = bands.flatMap Band.actions := by
  rw [scaffold, hs, h.actions_eq]

/-- The strips of bands are those of the rows of the template in order. -/
theorem Laid.rows_eq (h : Laid leaves areas grid row origin bands row' origin') :
    (bands.flatMap (Band.strips leaves areas grid)).map (·.row) = List.range' row (row' - row) := by
  induction h with
  | nil => simp
  | deleted _ _ _ after ih =>
    have := after.le.1
    rw [List.flatMap_cons, List.map_append, ih]
    have e : ∀ a b : Nat, a + 1 ≤ b → b - a = b - (a + 1) + 1 := by omega
    rw [e _ _ this, List.range'_succ]
    rfl
  | @kept r o height copies b _ _ _ _ _ _ _ after ih =>
    have := after.le.1
    rw [List.flatMap_cons, List.map_append, ih, Band.strips, List.map_map]
    have e1 : (List.range (height + 1)).map ((·.row) ∘ Band.keptStrip leaves areas grid r o height copies) =
        List.range' r (height + 1) := by
      rw [List.range'_eq_map_range]
      rfl
    have e2 : b - r = (height + 1) + (b - (r + height + 1)) := by omega
    rw [e1, e2]
    exact List.range'_append_1

/-- Every row has a strip of its own. -/
theorem Laid.rows_nodup (h : Laid leaves areas grid row origin bands row' origin') :
    ((bands.flatMap (Band.strips leaves areas grid)).map (·.row)).Nodup := by
  rw [h.rows_eq]
  exact List.nodup_range'

/-! ## What becomes of a row -/

/-- What becomes of a row is the fate of the one strip with that row. -/
theorem Laid.fate?_iff {layout : Layout} (h : Laid leaves areas grid row origin bands row' origin')
    (hs : layout.strips = bands.flatMap (Band.strips leaves areas grid)) {r : Nat} {fate : Fate} :
    layout.fate? r = some fate ↔ ∃ strip ∈ layout.strips, strip.row = r ∧ strip.fate = fate := by
  have hnodup : (layout.strips.map (·.row)).Nodup := hs ▸ h.rows_nodup
  unfold fate?
  rw [Option.map_eq_some_iff]
  constructor
  · rintro ⟨strip, hfind, rfl⟩
    exact ⟨strip, List.mem_of_find?_eq_some hfind, by simpa using List.find?_some hfind, rfl⟩
  · rintro ⟨strip, hmem, hrow, hfate⟩
    cases hfind : layout.strips.find? fun strip => strip.row = r with
    | none =>
      have := List.find?_eq_none.1 hfind strip hmem
      simp [hrow] at this
    | some found =>
      have hfound : found.row = r := by simpa using List.find?_some hfind
      have := List.inj_on_of_nodup_map hnodup (List.mem_of_find?_eq_some hfind) hmem (hfound.trans hrow.symm)
      exact ⟨found, rfl, by rw [this, hfate]⟩

/-- The rows that stay are those of the bands that stay. -/
theorem Laid.placed_iff {layout : Layout} (h : Laid leaves areas grid row origin bands row' origin')
    (hs : layout.strips = bands.flatMap (Band.strips leaves areas grid)) {r stood copies stride : Nat} :
    layout.fate? r = some (.placed stood copies stride) ↔
      ∃ top o height place, .kept top o height copies ∈ bands ∧ place ≤ height ∧ r = top + place ∧ stood = o + place ∧
        stride = height + 1 := by
  rw [h.fate?_iff hs, hs]
  constructor
  · rintro ⟨strip, hmem, hrow, hfate⟩
    obtain ⟨band, hband, hstrip⟩ := List.mem_flatMap.1 hmem
    cases band with
    | deleted top o =>
      obtain rfl := List.mem_singleton.1 hstrip
      cases hfate
    | kept top o height n =>
      obtain ⟨-, hc, hh, -⟩ := h.of_kept hband
      obtain ⟨place, hplace, rfl⟩ := mem_strips_kept.1 hstrip
      rw [keptStrip_fate place hc hh] at hfate
      cases hfate
      exact ⟨top, o, height, place, hband, hplace, hrow.symm, rfl, rfl⟩
  · rintro ⟨top, o, height, place, hband, hplace, rfl, rfl, rfl⟩
    obtain ⟨-, hc, hh, -⟩ := h.of_kept hband
    exact ⟨_, List.mem_flatMap.2 ⟨_, hband, mem_strips_kept.2 ⟨place, hplace, rfl⟩⟩, rfl, keptStrip_fate place hc hh⟩

/-- Where a row of a band that stays stands. -/
theorem Laid.fate_kept {layout : Layout} (h : Laid leaves areas grid row origin bands row' origin')
    (hs : layout.strips = bands.flatMap (Band.strips leaves areas grid)) {top o height copies place : Nat}
    (hb : .kept top o height copies ∈ bands) (hplace : place ≤ height) :
    layout.fate? (top + place) = some (.placed (o + place) copies (height + 1)) :=
  (h.placed_iff hs).2 ⟨top, o, height, place, hb, hplace, rfl, rfl, rfl⟩

/-- The rows that go out are bands by themselves. -/
theorem Laid.deleted_iff {layout : Layout} (h : Laid leaves areas grid row origin bands row' origin')
    (hs : layout.strips = bands.flatMap (Band.strips leaves areas grid)) {r stood : Nat} :
    layout.fate? r = some (.deleted stood) ↔ .deleted r stood ∈ bands := by
  rw [h.fate?_iff hs, hs]
  constructor
  · rintro ⟨strip, hmem, hrow, hfate⟩
    obtain ⟨band, hband, hstrip⟩ := List.mem_flatMap.1 hmem
    cases band with
    | deleted top o =>
      obtain rfl := List.mem_singleton.1 hstrip
      cases hfate
      subst hrow
      exact hband
    | kept top o height n =>
      obtain ⟨-, hc, hh, -⟩ := h.of_kept hband
      obtain ⟨place, -, rfl⟩ := mem_strips_kept.1 hstrip
      rw [keptStrip_fate place hc hh] at hfate
      cases hfate
  · intro hband
    exact ⟨Strip.deleted r stood, List.mem_flatMap.2 ⟨_, hband, List.mem_singleton.2 rfl⟩, rfl, rfl⟩

end Layout
end SheetTemplate

import SheetTemplate.Address

/-!
# Blocks of merged rows

A repeated row that begins a merge of several rows repeats together with the rows below it: one copy of all of them follows
another. The rows of such a block are met one after the other in the template, and all but the first take over the number of
copies and their distance. The rows that the copies add are counted once, behind the last row of the block.
-/

namespace SheetTemplate

/-- Whether a walk over the rows of a template is inside a block. -/
inductive Block
  | idle
  /-- Of the block `remaining` rows are still to come. Each of its rows has `copies` copies, `stride` rows apart. -/
  | running (remaining copies stride : Nat)
  deriving DecidableEq

namespace Block

/-- The copies and their distance that the next row takes over. -/
def inherited? : Block → Option (Nat × Nat)
  | .idle => none
  | .running _ copies stride => some (copies, stride)

/-- The number of copies of a row that would have `own` copies by itself. -/
def copies (own : Nat) (block : Block) : Nat := block.inherited?.elim own (·.1)

/-- The distance of the copies of a row that would have them `own` rows apart by itself. -/
def stride (own : Nat) (block : Block) : Nat := block.inherited?.elim own (·.2)

/-- A number of rows, or the last row where it passes that. -/
def capped (n : Nat) : Nat := min n lastRow

theorem capped_of_le {n : Nat} (h : n ≤ lastRow) : capped n = n := Nat.min_eq_left h

/-- Meets a row with `copies` copies and a merge that reaches `height` rows below it. Returns by how many rows the rest of the
template moves down here, and the block in which it goes on. Inside a block the row's own numbers do not matter. -/
def advance (copies height : Nat) : Block → Nat × Block
  | .idle =>
    if 0 < copies ∧ 0 < height then
      (0, .running height copies (capped (height + 1)))
    else
      (copies, .idle)
  | .running remaining copies stride =>
    if 1 < remaining then
      (0, .running (remaining - 1) copies stride)
    else
      (capped (copies * stride), .idle)

/-- Meets the end of the template. Returns by how many rows a block that is still running has moved the rest down. -/
def finish : Block → Nat
  | .idle => 0
  | .running _ copies stride => capped (copies * stride)

end Block
end SheetTemplate

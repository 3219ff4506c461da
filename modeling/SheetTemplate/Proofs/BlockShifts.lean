import Mathlib.Algebra.GroupWithZero.Nat
import SheetTemplate.Block

/-!
# Every block is counted once

What the walk over a template asks of the machine, for any rows with any copies and merges. The rows can be read without the machine: from
left to right a row with copies and merges begins a block, which takes in as many of the next rows as its merges reach down, whatever these
rows have themselves, and any other row is by itself (`groups`). `every_block_counts_once` says that the machine does the same: a row by
itself moves the rest by its copies, a block by the rows of all its copies, behind its last row or, if the rows end before, at the end.

What the steps keep is `Fitting`; what they return is followed through one block by `advanceAll_running`.
-/

namespace SheetTemplate
namespace Block

/-- A row as a walk meets it: its copies, and how far its merges reach below it. -/
structure Met where
  copies : Nat
  height : Nat
  deriving DecidableEq

namespace Met

/-- Whether the row begins a block when it is met outside of one. -/
def Opens (row : Met) : Prop := 0 < row.copies ∧ 0 < row.height

instance (row : Met) : Decidable row.Opens := inferInstanceAs (Decidable (_ ∧ _))

/-- The number of rows that copies of a block with this row at its top take. -/
def added (row : Met) : Nat := row.copies * (row.height + 1)

end Met

/-- Meets rows one after the other. Returns by how many rows the rest of the template moves down at each of them, and the block in which it
goes on. -/
def advanceAll (block : Block) : List Met → List Nat × Block
  | [] => ([], block)
  | row :: rest =>
    let (moved, block) := block.advance row.copies row.height
    let (moves, block) := block.advanceAll rest
    (moved :: moves, block)

/-! ## Reading rows -/

/-- Rows that belong together. -/
inductive Group
  /-- A row that begins no block. -/
  | alone (row : Met)
  /-- A row that begins a block, with the rows that the block takes in. -/
  | block (opener : Met) (inside : List Met)

/-- Rows read from left to right. A block takes in the next rows whatever they are, fewer if there are not so many. -/
def groups : List Met → List Group
  | [] => []
  | row :: rest =>
    if row.Opens then
      .block row (rest.take row.height) :: groups (rest.drop row.height)
    else
      .alone row :: groups rest
  termination_by rows => rows.length

namespace Group

/-- The rows of a group. -/
def rows : Group → List Met
  | .alone row => [row]
  | .block opener inside => opener :: inside

/-- The row of a group that begins no block. -/
def alone? : Group → Option Met
  | .alone row => some row
  | .block _ _ => none

/-- The row that begins the block of a group. -/
def opener? : Group → Option Met
  | .alone _ => none
  | .block opener _ => some opener

/-- By how many rows the rest moves at each row of a group. A block moves it at its last row, and not at all where it is cut short. -/
def moves : Group → List Nat
  | .alone row => [row.copies]
  | .block opener inside => List.replicate inside.length 0 ++ [if inside.length < opener.height then 0 else opener.added]

/-- By how many rows the end of all rows moves the rest for the sake of a group: not at all unless it is a block that is cut short. -/
def pending : Group → Nat
  | .alone _ => 0
  | .block opener inside => if inside.length < opener.height then opener.added else 0

end Group

/-- The rows that begin a block. -/
def openers (rows : List Met) : List Met := (groups rows).filterMap Group.opener?

/-- The rows outside of blocks that begin none. -/
def alone (rows : List Met) : List Met := (groups rows).filterMap Group.alone?

/-- Only a block that is cut short moves the rest at the end. -/
theorem pending_of_whole {row : Met} {inside : List Met} (h : row.height ≤ inside.length) : (Group.block row inside).pending = 0 :=
  if_neg (Nat.not_lt.2 h)

/-- At the end the first group counts only if it is the last one. -/
theorem getLast?_cons_pending {first : Group} {rest : List Group} (h : first.pending = 0) :
    (first :: rest).getLast?.elim 0 Group.pending = rest.getLast?.elim 0 Group.pending := by
  cases rest with
  | nil => exact h
  | cons next rest => rw [List.getLast?_cons_cons]

/-- A block that is cut short takes in all rows below its first one. -/
theorem block_of_cut {row : Met} {rest : List Met} (hcut : rest.length < row.height) :
    Group.block row (rest.take row.height) :: groups (rest.drop row.height) = [.block row rest] := by
  rw [List.take_of_length_le (Nat.le_of_lt hcut), List.drop_eq_nil_of_le (Nat.le_of_lt hcut), groups]

/-- Every row belongs to one group. -/
theorem flatMap_rows_groups (rows : List Met) : (groups rows).flatMap Group.rows = rows := by
  fun_induction groups rows with
  | case1 => rfl
  | case2 row rest hopens ih => rw [List.flatMap_cons, ih, Group.rows, List.cons_append, List.take_append_drop]
  | case3 row rest halone ih => rw [List.flatMap_cons, ih, Group.rows, List.singleton_append]

/-- All that the groups move is the rows added by the blocks and the copies of the other rows outside of them. -/
theorem sum_moves (rows : List Met) :
    ((groups rows).flatMap Group.moves).sum + (groups rows).getLast?.elim 0 Group.pending =
      ((openers rows).map Met.added).sum + ((alone rows).map Met.copies).sum := by
  unfold openers alone
  fun_induction groups rows with
  | case1 => rfl
  | case2 row rest hopens ih =>
    by_cases hcut : rest.length < row.height
    · rw [block_of_cut hcut]
      simp [Group.moves, Group.pending, List.filterMap_cons, Group.opener?, Group.alone?, hcut]
    · have hlength : (rest.take row.height).length = row.height := List.length_take_of_le (Nat.le_of_not_lt hcut)
      rw [getLast?_cons_pending (pending_of_whole (Nat.le_of_eq hlength.symm))]
      simp only [List.flatMap_cons, List.sum_append, Group.moves, List.filterMap_cons, Group.opener?, Group.alone?, hlength,
        Nat.lt_irrefl, if_false, List.sum_replicate_nat, List.map_cons, List.sum_cons, List.sum_nil]
      omega
  | case3 row rest halone ih =>
    rw [getLast?_cons_pending rfl]
    simp only [List.flatMap_cons, List.sum_append, Group.moves, List.filterMap_cons, Group.opener?, Group.alone?, List.map_cons,
      List.sum_cons, List.sum_nil]
    omega

/-! ## What steps keep -/

/-- The numbers of a running block fit each other: rows are still to come, but not its first one, and there are copies. -/
def Fitting : Block → Prop
  | .idle => True
  | .running remaining copies stride => 1 ≤ remaining ∧ remaining ≤ stride - 1 ∧ 1 ≤ copies

theorem fitting_advance {block : Block} {copies height : Nat} (h : block.Fitting) (hrows : copies * (height + 1) ≤ lastRow) :
    (block.advance copies height).2.Fitting := by
  cases block with
  | idle =>
    rw [advance]
    split
    · next hopens =>
      have hstride : height + 1 ≤ lastRow := Nat.le_trans (Nat.le_mul_of_pos_left _ hopens.1) hrows
      rw [capped_of_le hstride]
      exact ⟨hopens.2, Nat.le_refl _, hopens.1⟩
    · trivial
  | running remaining copies stride =>
    obtain ⟨hone, hlast, hcopies⟩ := h
    rw [advance]
    split
    · exact ⟨by omega, by omega, hcopies⟩
    · trivial

theorem fitting_advanceAll {block : Block} {rows : List Met} (h : block.Fitting) (hrows : ∀ row ∈ rows, row.added ≤ lastRow) :
    (block.advanceAll rows).2.Fitting := by
  induction rows generalizing block with
  | nil => exact h
  | cons row rest ih =>
    obtain ⟨hrow, hrest⟩ := List.forall_mem_cons.1 hrows
    exact ih (fitting_advance h hrow) hrest

/-! ## What a run returns -/

/-- A running block takes in the rows that are still to come, and then the walk is outside of blocks again. -/
theorem advanceAll_running {remaining copies stride : Nat} (rows : List Met) (h : 1 ≤ remaining) :
    (running remaining copies stride).advanceAll rows =
      if rows.length < remaining then (List.replicate rows.length 0, running (remaining - rows.length) copies stride)
      else (List.replicate (remaining - 1) 0 ++ capped (copies * stride) :: (idle.advanceAll (rows.drop remaining)).1,
        (idle.advanceAll (rows.drop remaining)).2) := by
  induction rows generalizing remaining with
  | nil =>
    rw [if_pos (show [].length < remaining from h)]
    rfl
  | cons row rest ih =>
    rw [advanceAll, advance]
    by_cases hmore : 1 < remaining
    · obtain ⟨before, rfl⟩ := Nat.exists_eq_add_of_le' h
      have hbefore : 1 ≤ before := by omega
      simp only [if_pos hmore, Nat.add_sub_cancel, ih hbefore, List.length_cons, Nat.add_lt_add_iff_right]
      split
      · rw [List.replicate_succ, Nat.add_sub_add_right]
      · rw [List.drop_succ_cons, ← List.cons_append, ← List.replicate_succ, Nat.sub_add_cancel hbefore]
    · obtain rfl : remaining = 1 := by omega
      simp

theorem advance_opens {row : Met} (h : row.Opens) :
    idle.advance row.copies row.height = (0, running row.height row.copies (capped (row.height + 1))) :=
  if_pos h

theorem advance_alone {row : Met} (h : ¬row.Opens) : idle.advance row.copies row.height = (row.copies, idle) := if_neg h

/-- A block from its first row on. -/
theorem advanceAll_opens {row : Met} {rest : List Met} (hopens : row.Opens) (hrow : row.added ≤ lastRow) :
    idle.advanceAll (row :: rest) =
      if rest.length < row.height then
        (List.replicate (rest.length + 1) 0, running (row.height - rest.length) row.copies (row.height + 1))
      else
        (List.replicate row.height 0 ++ row.added :: (idle.advanceAll (rest.drop row.height)).1,
          (idle.advanceAll (rest.drop row.height)).2) := by
  have hstride : capped (row.height + 1) = row.height + 1 :=
    capped_of_le (Nat.le_trans (Nat.le_mul_of_pos_left _ hopens.1) hrow)
  have hlast : capped (row.copies * (row.height + 1)) = row.added := capped_of_le hrow
  rw [advanceAll, advance_opens hopens]
  simp only [hstride, advanceAll_running rest hopens.2, hlast]
  split
  · rw [List.replicate_succ]
  · rw [← List.cons_append, ← List.replicate_succ, Nat.sub_add_cancel hopens.2]

/-- A row by itself moves the rest at once. -/
theorem advanceAll_alone {row : Met} {rest : List Met} (halone : ¬row.Opens) :
    idle.advanceAll (row :: rest) = (row.copies :: (idle.advanceAll rest).1, (idle.advanceAll rest).2) := by
  rw [advanceAll, advance_alone halone]

/-- The machine moves the rest at the rows at which the groups that are read do, and the last one of them at the end. -/
theorem advanceAll_eq {rows : List Met} (hrows : ∀ row ∈ rows, row.added ≤ lastRow) :
    (idle.advanceAll rows).1 = (groups rows).flatMap Group.moves ∧
      (idle.advanceAll rows).2.finish = (groups rows).getLast?.elim 0 Group.pending := by
  fun_induction groups rows with
  | case1 => exact ⟨rfl, rfl⟩
  | case2 row rest hopens ih =>
    obtain ⟨hrow, hrest⟩ := List.forall_mem_cons.1 hrows
    obtain ⟨hmoves, hfinish⟩ := ih fun other hother => hrest other (List.mem_of_mem_drop hother)
    rw [advanceAll_opens hopens hrow]
    by_cases hcut : rest.length < row.height
    · have hpending : capped (row.copies * (row.height + 1)) = row.added := capped_of_le hrow
      rw [if_pos hcut, block_of_cut hcut]
      simp [Group.moves, Group.pending, finish, hcut, hpending, List.replicate_succ']
    · have hlength : (rest.take row.height).length = row.height := List.length_take_of_le (Nat.le_of_not_lt hcut)
      rw [if_neg hcut, getLast?_cons_pending (pending_of_whole (Nat.le_of_eq hlength.symm))]
      refine ⟨?_, hfinish⟩
      simp only [List.flatMap_cons, Group.moves, hlength, Nat.lt_irrefl, if_false, hmoves, List.append_assoc, List.singleton_append]
  | case3 row rest halone ih =>
    obtain ⟨hmoves, hfinish⟩ := ih (List.forall_mem_cons.1 hrows).2
    rw [advanceAll_alone halone, getLast?_cons_pending rfl, List.flatMap_cons, ← hmoves]
    exact ⟨rfl, hfinish⟩

/-- The machine that keeps blocks and repeated rows in step counts every block once. Rows are read from left to right as `groups`, which are
all the rows in order, and as long as every row would add a number of rows that a sheet has, a walk over them from outside of blocks

* moves the rest at a row by itself by the copies of the row, and at the last row of a block by the rows of all its copies, and at no other;
* moves the rest at the end by what a block that is cut short has not moved it yet, and otherwise not;
* moves it all in all by the rows that the blocks add and the copies of the other rows outside of blocks;
* and in every block on the way has rows still to come, fewer than the block is high, and copies. -/
theorem every_block_counts_once {rows : List Met} (hrows : ∀ row ∈ rows, row.copies * (row.height + 1) ≤ lastRow) :
    (groups rows).flatMap Group.rows = rows ∧
    (idle.advanceAll rows).1 = (groups rows).flatMap Group.moves ∧
    (idle.advanceAll rows).2.finish = (groups rows).getLast?.elim 0 Group.pending ∧
    (idle.advanceAll rows).1.sum + (idle.advanceAll rows).2.finish =
      ((openers rows).map fun row => row.copies * (row.height + 1)).sum + ((alone rows).map (·.copies)).sum ∧
    ∀ met, met <+: rows → ∀ remaining copies stride, (idle.advanceAll met).2 = .running remaining copies stride →
      1 ≤ remaining ∧ remaining ≤ stride - 1 ∧ 1 ≤ copies := by
  obtain ⟨hmoves, hfinish⟩ := advanceAll_eq hrows
  refine ⟨flatMap_rows_groups rows, hmoves, hfinish, ?_, ?_⟩
  · rw [hmoves, hfinish]
    exact sum_moves rows
  · intro met hmet remaining copies stride hrunning
    have hfitting : (idle.advanceAll met).2.Fitting := fitting_advanceAll trivial fun row hrow => hrows row (hmet.subset hrow)
    rw [hrunning] at hfitting
    exact hfitting

/-- A block of three rows whose lower rows ask for blocks of their own, a row without copies, a row with three, and a block of four rows that
ends after two. -/
def Sample.rows : List Met := [⟨2, 2⟩, ⟨9, 9⟩, ⟨1, 5⟩, ⟨0, 2⟩, ⟨3, 0⟩, ⟨4, 3⟩, ⟨7, 1⟩]

/-- Behind the first block of the sample the rest moves by six rows, behind the row with three copies by three, and by sixteen at the end, where
two rows of the second block are still to come. -/
theorem cut_block_counts_once :
    (∀ row ∈ Sample.rows, row.copies * (row.height + 1) ≤ lastRow) ∧
    (idle.advanceAll Sample.rows).1 = [0, 0, 6, 0, 3, 0, 0] ∧ (idle.advanceAll Sample.rows).2.finish = 16 ∧
    (idle.advanceAll Sample.rows).1.sum + (idle.advanceAll Sample.rows).2.finish = (2 * 3 + 4 * 4) + (0 + 3) ∧
    (idle.advanceAll Sample.rows).2 = running 2 4 4 ∧ 1 ≤ 2 ∧ 2 ≤ 4 - 1 ∧ 1 ≤ 4 := by
  have hgroups : groups Sample.rows =
      [.block ⟨2, 2⟩ [⟨9, 9⟩, ⟨1, 5⟩], .alone ⟨0, 2⟩, .alone ⟨3, 0⟩, .block ⟨4, 3⟩ [⟨7, 1⟩]] := by
    simp [groups, Sample.rows, Met.Opens]
  have hrows : ∀ row ∈ Sample.rows, row.copies * (row.height + 1) ≤ lastRow := by decide
  obtain ⟨-, hmoves, hfinish, hsum, hbounds⟩ := every_block_counts_once hrows
  rw [hgroups] at hmoves hfinish
  rw [openers, alone, hgroups] at hsum
  have hrunning : (idle.advanceAll Sample.rows).2 = running 2 4 4 := by decide
  exact ⟨hrows, hmoves, hfinish, hsum, hrunning, hbounds _ (List.prefix_refl _) _ _ _ hrunning⟩

end Block
end SheetTemplate

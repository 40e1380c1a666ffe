import Mathlib.Data.List.Basic

/-!
# Cursors over a block of cells

A block is a list of cells; `Block.read` and `Block.write` reach a range of it and give `none` outside. A
`Cursor β N` is a place in a block: the cells before it, a window of fewer than `N` cells ahead of it, and the cells
after the window. It moves by `advance` and `write`, which compose (`advance_advance`, `write_write`), and both
directions of the block operations at its place are moves of the cursor (`read_cells`, `write_cells`).
-/

set_option autoImplicit false

namespace Wire

variable {β : Type}

/-! ## Blocks -/

/-- The `n` cells from offset `off` on. -/
def Block.read (buf : List β) (off n : Nat) : Option (List β) :=
  if off + n ≤ buf.length then some ((buf.drop off).take n) else none

/-- The block with `xs` stored from offset `off` on. -/
def Block.write (buf : List β) (off : Nat) (xs : List β) : Option (List β) :=
  if off + xs.length ≤ buf.length then some (buf.take off ++ xs ++ buf.drop (off + xs.length)) else none

/-! ## Cursors -/

/-- A place in a block, with a window of fewer than `N` cells ahead of it. -/
@[ext] structure Cursor (β : Type) (N : Nat) where
  before : List β
  ahead : List β
  after : List β
  fits : ahead.length < N

namespace Cursor

variable {N : Nat} (c : Cursor β N)

/-- The whole block. -/
def cells : List β := c.before ++ c.ahead ++ c.after

/-- The number of cells before the cursor. -/
def pos : Nat := c.before.length

/-- The number of cells in the window. -/
def room : Nat := c.ahead.length

/-- Step over `n` cells of the window. -/
def advance (n : Nat) : Cursor β N where
  before := c.before ++ c.ahead.take n
  ahead := c.ahead.drop n
  after := c.after
  fits := by have := c.fits; simp only [List.length_drop]; omega

/-- Overwrite the front of the window with `xs` and step over it. -/
def write (xs : List β) : Cursor β N where
  before := c.before ++ xs
  ahead := c.ahead.drop xs.length
  after := c.after
  fits := by have := c.fits; simp only [List.length_drop]; omega

@[simp] theorem ahead_advance (n : Nat) : (c.advance n).ahead = c.ahead.drop n := rfl

@[simp] theorem before_advance (n : Nat) : (c.advance n).before = c.before ++ c.ahead.take n := rfl

@[simp] theorem room_advance (n : Nat) : (c.advance n).room = c.room - n := List.length_drop

@[simp] theorem ahead_write (xs : List β) : (c.write xs).ahead = c.ahead.drop xs.length := rfl

@[simp] theorem before_write (xs : List β) : (c.write xs).before = c.before ++ xs := rfl

@[simp] theorem room_write (xs : List β) : (c.write xs).room = c.room - xs.length := List.length_drop

theorem pos_advance {n : Nat} (h : n ≤ c.room) : (c.advance n).pos = c.pos + n := by
  simp only [pos, before_advance, List.length_append, List.length_take]
  unfold room at h
  omega

theorem pos_write (xs : List β) : (c.write xs).pos = c.pos + xs.length := by
  simp only [pos, before_write, List.length_append]

/-- Moving over the window does not change the block. -/
theorem cells_advance (n : Nat) : (c.advance n).cells = c.cells := by
  simp only [cells, before_advance, ahead_advance, List.append_assoc]
  rw [← List.append_assoc (c.ahead.take n), List.take_append_drop]
  rfl

theorem advance_zero : c.advance 0 = c := by
  ext1
  · simp
  · rfl
  · rfl

theorem advance_advance (m n : Nat) : (c.advance m).advance n = c.advance (m + n) := by
  ext1
  · simp only [before_advance, ahead_advance, List.append_assoc, List.take_add]
  · simp only [ahead_advance, List.drop_drop]
  · rfl

theorem write_nil : c.write [] = c := by
  ext1
  · simp
  · rfl
  · rfl

theorem write_write (xs ys : List β) : (c.write xs).write ys = c.write (xs ++ ys) := by
  ext1
  · simp only [before_write, List.append_assoc]
  · simp only [ahead_write, List.drop_drop, List.length_append]
  · rfl

/-! ## The block operations at a cursor -/

theorem read_cells {n : Nat} (h : n ≤ c.room) : Block.read c.cells c.pos n = some (c.ahead.take n) := by
  unfold room at h
  have hb : c.pos + n ≤ c.cells.length := by simp only [cells, pos, List.length_append]; omega
  unfold Block.read
  rw [if_pos hb, cells, List.append_assoc, pos, List.drop_left, List.take_append_of_le_length h]

theorem write_cells {xs : List β} (h : xs.length ≤ c.room) :
    Block.write c.cells c.pos xs = some (c.write xs).cells := by
  unfold room at h
  have hb : c.pos + xs.length ≤ c.cells.length := by simp only [cells, pos, List.length_append]; omega
  have ht : c.cells.take c.pos = c.before := by rw [cells, List.append_assoc, pos, List.take_left]
  have hd : c.cells.drop (c.pos + xs.length) = c.ahead.drop xs.length ++ c.after := by
    rw [← List.drop_drop, cells, List.append_assoc, pos, List.drop_left, List.drop_append_of_le_length h]
  unfold Block.write
  rw [if_pos hb, ht, hd]
  simp only [cells, before_write, ahead_write, List.append_assoc]
  rfl

end Cursor

end Wire

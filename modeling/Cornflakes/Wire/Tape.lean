import Mathlib.Data.List.Basic

/-!
# Tapes that come in blocks

A `Tape` is what a reader has ahead that gets its input in blocks of `n` cells: what is left of the block it is in, and
the blocks to come, as far as there are any. `Tape.reach` is what is left of a block some cells further on. A chain of
fragments on a tape is a header, which is taken from what is left of its block, and then the cells that it counts; it
`Ends` where the tape does, or at a header that nothing follows. On a tape that repeats one block a chain of whole blocks
goes on for ever (`not_ends_repeat`).
-/

set_option autoImplicit false

namespace Wire

variable {β δ : Type}

structure Tape (β : Type) where
  window : List β
  block : Nat → Option (List β)

namespace Tape

variable (n : Nat) (t : Tape β)

/-- The cells that are left of a block, `f` cells further on, and the tape behind them. -/
def reach (f : Nat) : Option (List β × Tape β) :=
  if f < t.window.length then some (t.window.drop f, ⟨[], t.block⟩)
  else
    let k := f - t.window.length
    (t.block (k / n)).map fun b => (b.drop (k % n), ⟨[], fun i => t.block (k / n + 1 + i)⟩)

/-- The tape with its first block in the window. -/
def load (b : List β) : Tape β := ⟨b, fun i => t.block (i + 1)⟩

/-- Behind its end there are no more blocks. -/
def Sound : Prop := ∀ i, t.block i = none → t.block (i + 1) = none

variable {n t}

theorem reach_window {f : Nat} (h : f < t.window.length) : t.reach n f = some (t.window.drop f, ⟨[], t.block⟩) := if_pos h

theorem reach_nil (hw : t.window = []) (f : Nat) :
    t.reach n f = (t.block (f / n)).map fun b => (b.drop (f % n), ⟨[], fun i => t.block (f / n + 1 + i)⟩) := by
  unfold reach
  rw [hw, List.length_nil, if_neg (Nat.not_lt_zero f), Nat.sub_zero]

theorem reach_past {f : Nat} (h : t.window.length ≤ f) :
    t.reach n f = (⟨[], t.block⟩ : Tape β).reach n (f - t.window.length) := by
  have hr : (⟨[], t.block⟩ : Tape β).reach n (f - t.window.length) = _ := reach_nil rfl _
  rw [hr]
  exact if_neg (Nat.not_lt.mpr h)

/-- Loading the first block moves nothing. -/
theorem reach_load {b : List β} (hn : 0 < n) (hw : t.window = []) (hb : t.block 0 = some b) (hl : b.length = n) (f : Nat) :
    t.reach n f = (t.load b).reach n f := by
  rw [reach_nil hw]
  by_cases hf : f < n
  · rw [reach_window (by rwa [load, hl]), Nat.div_eq_of_lt hf, Nat.mod_eq_of_lt hf, hb]
    simp only [load, Option.map_some, Nat.zero_add, Nat.add_comm 1]
  · have hd : f / n = (f - n) / n + 1 := by
      rw [Nat.div_eq f n, if_pos ⟨hn, Nat.not_lt.mp hf⟩]
    have hm : f % n = (f - n) % n := Nat.mod_eq_sub_mod (Nat.not_lt.mp hf)
    rw [reach_past (by rw [load, hl]; exact Nat.not_lt.mp hf), reach_nil rfl]
    simp only [load, hl, hd, hm, Nat.add_right_comm]

theorem Sound.none_add {i : Nat} (h : t.Sound) (hi : t.block i = none) (j : Nat) : t.block (i + j) = none := by
  induction j with
  | zero => exact hi
  | succ j ih => exact h (i + j) ih

/-- Nothing is reached on a tape that has ended. -/
theorem reach_none (h : t.Sound) (hw : t.window = []) (h0 : t.block 0 = none) (f : Nat) : t.reach n f = none := by
  have hf : t.block (0 + f / n) = none := h.none_add h0 _
  rw [Nat.zero_add] at hf
  rw [reach_nil hw, hf, Option.map_none]

end Tape

/-! ## Chains of fragments -/

/-- The chain of fragments that starts behind the next `f` cells comes to an end. A header is read from what is left of
its block and from `junk`, and gives the cells to the next header, if there is to be one. -/
inductive Ends (n : Nat) (next : δ → List β → Option Nat) : (Nat → δ) → Tape β → Nat → Prop
  | cut {junk : Nat → δ} {t : Tape β} {f : Nat} (none : t.reach n f = none) : Ends n next junk t f
  | stop {junk : Nat → δ} {t t' : Tape β} {f : Nat} {bs : List β} (header : t.reach n f = some (bs, t'))
      (last : next (junk 0) bs = none) : Ends n next junk t f
  | more {junk : Nat → δ} {t t' : Tape β} {f len : Nat} {bs : List β} (header : t.reach n f = some (bs, t'))
      (length : next (junk 0) bs = some len) (rest : Ends n next (fun i => junk (i + 1)) t' len) : Ends n next junk t f

/-- A chain goes on behind a header that something follows. -/
theorem Ends.rest {n : Nat} {next : δ → List β → Option Nat} {junk : Nat → δ} {t t' : Tape β} {f len : Nat} {bs : List β}
    (h : Ends n next junk t f) (hr : t.reach n f = some (bs, t')) (hl : next (junk 0) bs = some len) :
    Ends n next (fun i => junk (i + 1)) t' len := by
  cases h with
  | cut none =>
    rw [none] at hr
    cases hr
  | stop header last =>
    rw [header] at hr
    cases hr
    rw [last] at hl
    cases hl
  | more header length rest =>
    rw [header] at hr
    cases hr
    rw [length] at hl
    cases hl
    exact rest

/-- On a tape that repeats a block, a chain whose headers count whole blocks does not end. -/
theorem not_ends_repeat {n : Nat} {next : δ → List β → Option Nat} {b : List β} {len : Nat} (hd : n ∣ len)
    (hb : ∀ d, next d b = some len) {junk : Nat → δ} {t : Tape β} {f : Nat} (hw : t.window = [])
    (ht : ∀ i, t.block i = some b) (hf : n ∣ f) : ¬ Ends n next junk t f := by
  intro h
  have hr {t : Tape β} {f : Nat} (hw : t.window = []) (ht : ∀ i, t.block i = some b) (hf : n ∣ f) :
      t.reach n f = some (b, ⟨[], fun i => t.block (f / n + 1 + i)⟩) := by
    rw [Tape.reach_nil hw, ht, Option.map_some, Nat.mod_eq_zero_of_dvd hf, List.drop_zero]
  induction h generalizing len with
  | cut none =>
    rw [hr hw ht hf] at none
    cases none
  | stop header last =>
    rw [hr hw ht hf] at header
    cases header
    rw [hb] at last
    cases last
  | more header length rest ih =>
    rw [hr hw ht hf] at header
    cases header
    rw [hb] at length
    cases length
    exact ih hd hb rfl (fun i => ht _) hd

end Wire

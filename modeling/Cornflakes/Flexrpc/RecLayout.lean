import Cornflakes.Flexrpc.RecInv

/-!
# The layout of a record stream

`flexxdrrec_create` cuts one block of memory into an output and an input area. They lie in the block when the size that
is asked for does not wrap in a `u_int` (`areas_within_iff`), and share the first 16 bytes of the input area in any case
(`areas_share_iff`): `out_boundary` is counted from `out_finger`, which has been moved past the header by then, and
`in_base` from `out_base`.
-/

set_option autoImplicit false

namespace Cornflakes.Flexrpc

open Wire

variable {ρ ω : Type}

/-- The size of the block that `flexxdrrec_create` asks for. -/
def blockSize (sendsize recvsize : Word) : Word := fixBufSize sendsize + fixBufSize recvsize + 4

namespace RecStrm

/-- The address lies in `[out_base, out_boundary)`. -/
def OutArea (s : RecStrm ρ ω) (x : Int) : Prop := s.outBase ≤ x ∧ x < s.outBoundary

/-- The address lies in `[in_base, in_base + in_size)`. -/
def InArea (s : RecStrm ρ ω) (x : Int) : Prop := s.inBase ≤ x ∧ x < s.inBase + s.inSize

/-- Both areas lie in the block of `size` bytes at `buf`. -/
structure Contained (s : RecStrm ρ ω) (buf : Int) (size : Nat) : Prop where
  out : ∀ x, s.OutArea x → Heap.Within x buf size
  input : ∀ x, s.InArea x → Heap.Within x buf size

/-- The areas lie in the block, and apart. -/
structure LaidOut (s : RecStrm ρ ω) (buf : Int) (size : Nat) : Prop where
  contained : s.Contained buf size
  apart : ∀ x, ¬ (s.OutArea x ∧ s.InArea x)

end RecStrm

section Create

variable (sendsize recvsize : Word) (buf : Int) (mem : Heap Byte) (reader : ρ) (writer : ω) (locals : Nat → Word)

/-- The block is used from the first address in it that is a multiple of four. -/
theorem create_outBase : ∃ k : Nat, k < 4 ∧
    (flexxdrrecCreate sendsize recvsize buf mem reader writer locals).outBase = buf + k := by
  unfold flexxdrrecCreate
  dsimp only
  split
  next h => exact ⟨(4 - buf % 4).toNat, by omega, by omega⟩
  next => exact ⟨0, by omega, by omega⟩

theorem create_outBoundary : (flexxdrrecCreate sendsize recvsize buf mem reader writer locals).outBoundary =
    (flexxdrrecCreate sendsize recvsize buf mem reader writer locals).outBase + 16 + (fixBufSize sendsize).toNat := rfl

theorem create_inBase : (flexxdrrecCreate sendsize recvsize buf mem reader writer locals).inBase =
    (flexxdrrecCreate sendsize recvsize buf mem reader writer locals).outBase + (fixBufSize sendsize).toNat := rfl

theorem create_inSize : (flexxdrrecCreate sendsize recvsize buf mem reader writer locals).inSize =
    (fixBufSize recvsize).toNat := rfl

/-- What the areas share. -/
theorem areas_share_iff (x : Int) :
    (flexxdrrecCreate sendsize recvsize buf mem reader writer locals).OutArea x ∧
        (flexxdrrecCreate sendsize recvsize buf mem reader writer locals).InArea x ↔
      Heap.Within x (flexxdrrecCreate sendsize recvsize buf mem reader writer locals).inBase 16 := by
  have hr := RecInv.fixBufSize_ge recvsize
  have hb := create_outBoundary sendsize recvsize buf mem reader writer locals
  have hi := create_inBase sendsize recvsize buf mem reader writer locals
  have hs := create_inSize sendsize recvsize buf mem reader writer locals
  unfold RecStrm.OutArea RecStrm.InArea Heap.Within
  omega

theorem blockSize_toNat : (blockSize sendsize recvsize).toNat =
    ((fixBufSize sendsize).toNat + (fixBufSize recvsize).toNat + 4) % 2 ^ 32 := by
  rw [blockSize, BitVec.toNat_add, BitVec.toNat_add, Nat.mod_add_mod]
  rfl

/-- The block is large enough unless its size wraps. -/
theorem areas_within_iff :
    (flexxdrrecCreate sendsize recvsize buf mem reader writer locals).Contained buf
        (blockSize sendsize recvsize).toNat ↔
      (fixBufSize sendsize).toNat + (fixBufSize recvsize).toNat + 4 < 2 ^ 32 := by
  have hr := RecInv.fixBufSize_ge recvsize
  have hn := blockSize_toNat sendsize recvsize
  have hb := create_outBoundary sendsize recvsize buf mem reader writer locals
  have hi := create_inBase sendsize recvsize buf mem reader writer locals
  have hs := create_inSize sendsize recvsize buf mem reader writer locals
  obtain ⟨k, hk, ho⟩ := create_outBase sendsize recvsize buf mem reader writer locals
  constructor
  · intro h
    -- The last byte of the input area.
    have hx := (h.input (buf + k + (fixBufSize sendsize).toNat + (fixBufSize recvsize).toNat - 1) ⟨by omega, by omega⟩).2
    omega
  · intro hlt
    refine ⟨fun x hx => ?_, fun x hx => ?_⟩
    · obtain ⟨h₁, h₂⟩ := hx
      exact ⟨by omega, by omega⟩
    · obtain ⟨h₁, h₂⟩ := hx
      exact ⟨by omega, by omega⟩

/-- The areas are never apart. -/
theorem not_laidOut : ¬ (flexxdrrecCreate sendsize recvsize buf mem reader writer locals).LaidOut buf
    (blockSize sendsize recvsize).toNat := by
  intro h
  have hx := areas_share_iff sendsize recvsize buf mem reader writer locals
    (flexxdrrecCreate sendsize recvsize buf mem reader writer locals).inBase
  exact h.apart _ (hx.mpr ⟨Int.le_refl _, by omega⟩)

end Create

/-- With the default sizes the byte 3992 of the block is in both areas. -/
theorem default_shares :
    ¬ (flexxdrrecCreate 0 0 0 (fun _ => 0) () () fun _ => 0).LaidOut 0 (blockSize 0 0).toNat := by
  intro h
  exact h.apart 3992 ((areas_share_iff 0 0 0 (fun _ => 0) () () (fun _ => 0) 3992).mpr (by decide))

end Cornflakes.Flexrpc

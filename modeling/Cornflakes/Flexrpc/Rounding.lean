import Mathlib.Algebra.Order.Floor.Div
import Mathlib.Order.Bounds.Basic
import Cornflakes.Flexrpc.Rec

/-!
# Buffer sizes (`RNDUP`, `fix_buf_size`)

`flexxdr.h` has two macros for rounding a size up to whole units. The one by division gives the least multiple of four
from the size on (`rndupByDivision_isLeast`). The one by a mask, which is selected, subtracts a unit where it should add
one, and gives eight less (`rndup_eq_sub`): the sizes are multiples of four, but they are rounded down
(`not_roundsUp`).
-/

set_option autoImplicit false

namespace Cornflakes.Flexrpc

open Wire

/-- `RNDUP`, as the branch of the header has it that is not selected. -/
def rndupByDivision (x : Word) : Word := (x + 4 - 1) / 4 * 4

/-- Both macros give the least multiple of four that is not below `x`. -/
structure RoundsUp (x : Word) : Prop where
  same : flexxdrRndup x = rndupByDivision x
  least : IsLeast {m : Nat | 4 ∣ m ∧ x.toNat ≤ m} (flexxdrRndup x).toNat

/-- The size of a buffer is a multiple of four, and no less than what was asked for or the default. -/
structure SizeFits (s : Word) : Prop where
  multiple : 4 ∣ (fixBufSize s).toNat
  asked : 100 ≤ s → s ≤ fixBufSize s
  default : s < 100 → 4000 ≤ fixBufSize s

/-! ## The two macros -/

/-- What the division gives, in the wrap-around of `u_int`. -/
theorem toNat_rndupByDivision (x : Word) : (rndupByDivision x).toNat = 4 * ((x.toNat + 3) % 2 ^ 32 / 4) := by
  have hs : (x + 4 - 1).toNat = (x.toNat + 3) % 2 ^ 32 := by
    rw [BitVec.toNat_sub, BitVec.toNat_add, show (1 : Word).toNat = 1 from rfl, show (4 : Word).toNat = 4 from rfl]
    omega
  rw [rndupByDivision, BitVec.toNat_mul, BitVec.toNat_udiv, hs, show (4 : Word).toNat = 4 from rfl]
  omega

/-- Without wrap-around the division is one of integers, rounded up. -/
theorem rndupByDivision_isLeast {x : Word} (h : x.toNat + 3 < 2 ^ 32) :
    IsLeast {m : Nat | 4 ∣ m ∧ x.toNat ≤ m} (rndupByDivision x).toNat := by
  have hd : (rndupByDivision x).toNat = 4 * (x.toNat ⌈/⌉ 4) := by
    rw [toNat_rndupByDivision, Nat.mod_eq_of_lt h, Nat.ceilDiv_eq_add_pred_div]
    rfl
  rw [hd]
  have h4 : 0 < 4 := Nat.succ_pos 3
  refine ⟨⟨Nat.dvd_mul_right 4 _, le_smul_ceilDiv h4⟩, ?_⟩
  rintro m ⟨⟨k, rfl⟩, hm⟩
  exact Nat.mul_le_mul_left 4 ((ceilDiv_le_iff_le_mul h4).mpr hm)

/-- What the mask gives, in the wrap-around of `u_int`. -/
theorem toNat_flexxdrRndup (x : Word) : (flexxdrRndup x).toNat = 4 * ((x.toNat + 2 ^ 32 - 5) % 2 ^ 32 / 4) := by
  have hs : (x - 4 - 1).toNat = (x.toNat + 2 ^ 32 - 5) % 2 ^ 32 := by
    rw [BitVec.toNat_sub, BitVec.toNat_sub, show (1 : Word).toNat = 1 from rfl, show (4 : Word).toNat = 4 from rfl]
    omega
  rw [flexxdrRndup, toNat_and_not_three, hs]

/-- The mask gives two units less than the division. -/
theorem rndup_eq_sub (x : Word) : flexxdrRndup x = rndupByDivision x - 8 := by
  apply BitVec.eq_of_toNat_eq
  rw [toNat_flexxdrRndup, BitVec.toNat_sub, toNat_rndupByDivision, show (8 : Word).toNat = 8 from rfl]
  omega

/-- From five on the mask rounds down. -/
theorem rndup_lt {x : Word} (h : 5 ≤ x.toNat) : (flexxdrRndup x).toNat < x.toNat := by
  have hlt := x.isLt
  rw [toNat_flexxdrRndup]
  omega

/-! ## Sizes -/

theorem fixBufSize_dvd (s : Word) : 4 ∣ (fixBufSize s).toNat := by
  unfold fixBufSize
  rw [toNat_flexxdrRndup]
  exact Nat.dvd_mul_right 4 _

/-- From 100 on the size is below what was asked for. -/
theorem fixBufSize_lt {s : Word} (h : ¬ s < 100) : (fixBufSize s).toNat < s.toNat := by
  have hs : 100 ≤ s.toNat := Nat.not_lt.mp fun hlt => h (BitVec.lt_def.mpr hlt)
  rw [fixBufSize, if_neg h]
  exact rndup_lt (by omega)

/-- The default is cut as well. -/
theorem fixBufSize_default {s : Word} (h : s < 100) : fixBufSize s = 3992 := by
  rw [fixBufSize, if_pos h]
  rfl

/-- **No size is rounded up.** -/
theorem not_roundsUp (x s : Word) : ¬ RoundsUp x ∧ ¬ SizeFits s := by
  constructor
  · intro h
    have he := congrArg BitVec.toNat ((rndup_eq_sub x).symm.trans h.same)
    rw [BitVec.toNat_sub, show (8 : Word).toNat = 8 from rfl] at he
    omega
  · intro h
    by_cases hs : s < 100
    · have hd := h.default hs
      rw [fixBufSize_default hs] at hd
      exact absurd hd (by decide)
    · exact absurd (BitVec.le_def.mp (h.asked (BitVec.not_lt.mp hs))) (Nat.not_le.mpr (fixBufSize_lt hs))

/-- The default size is a multiple of four, and is rounded to 3992. -/
theorem default_rounded_down : rndupByDivision 4000 = 4000 ∧ ¬ RoundsUp 4000 ∧ ¬ SizeFits 0 := by
  refine ⟨by decide, fun h => ?_, fun h => ?_⟩
  · exact absurd h.same (by decide)
  · exact absurd (h.default (by decide)) (by decide)

end Cornflakes.Flexrpc

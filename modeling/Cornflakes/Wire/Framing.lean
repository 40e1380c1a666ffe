import Mathlib.Data.Nat.Bitwise
import Cornflakes.Wire.BigEndian

/-!
# Record marking

A record is sent as a sequence of fragments. A fragment is a header word and a payload; the top bit of the header
is set on the last fragment of the record, and the other 31 bits are the length of the payload. `record` puts one
record on the wire and `Marks` says that a byte string is a sequence of records. The two parts of a header are read
back by masks (`header_low`, `header_top`).
-/

set_option autoImplicit false

namespace Wire

/-- The bit of a header that marks the last fragment. -/
def topBit : Word := 1 <<< 31

/-- The header of a fragment of `n` bytes. -/
def header (last : Bool) (n : Nat) : Word := .ofNat 32 (if last then 2 ^ 31 + n else n)

/-- A fragment on the wire. -/
def fragment (last : Bool) (payload : List Byte) : List Byte := toBytes (header last payload.length) ++ payload

/-- A record on the wire, cut into the given fragments. -/
def record : List (List Byte) → List Byte
  | [] => []
  | [p] => fragment true p
  | p :: ps => fragment false p ++ record ps

/-- The bytes are the given records, each in one or more fragments. -/
def Marks (payloads : List (List Byte)) (bytes : List Byte) : Prop :=
  ∃ cuts : List (List (List Byte)), bytes = cuts.flatMap record ∧ cuts.map List.flatten = payloads ∧
    ∀ ps ∈ cuts, ps ≠ [] ∧ ∀ p ∈ ps, p.length < 2 ^ 31

/-- Fragments that a receiver can tell apart: each length has its 31 bits, and only the last may be empty. -/
structure Sendable (ps : List (List Byte)) : Prop where
  short : ∀ p ∈ ps, p.length < 2 ^ 31
  filled : ∀ p ∈ ps.dropLast, p ≠ []

theorem record_cons (p : List Byte) (ps : List (List Byte)) : record (p :: ps) = fragment ps.isEmpty p ++ record ps := by
  cases ps with
  | nil => exact (List.append_nil _).symm
  | cons q qs => rfl

namespace Sendable

variable {p : List Byte} {ps : List (List Byte)}

theorem tail (h : Sendable (p :: ps)) : Sendable ps := by
  refine ⟨fun q hq => h.short q (List.mem_cons_of_mem p hq), fun q hq => h.filled q ?_⟩
  cases ps with
  | nil => cases hq
  | cons q₁ qs => exact List.mem_cons_of_mem p hq

theorem suffix {qs : List (List Byte)} (h : Sendable ps) (hq : qs <:+ ps) : Sendable qs := by
  obtain ⟨rs, rfl⟩ := hq
  induction rs with
  | nil => exact h
  | cons r rs ih => exact ih h.tail

theorem head (h : Sendable (p :: ps)) : p.length < 2 ^ 31 := h.short p List.mem_cons_self

theorem head_ne_nil (h : Sendable (p :: ps)) (hps : ps ≠ []) : p ≠ [] := by
  apply h.filled p
  cases ps with
  | nil => exact absurd rfl hps
  | cons q qs => exact List.mem_cons_self

end Sendable

/-! ## The parts of a header -/

theorem toNat_and_topBit (w : Word) : (w &&& topBit).toNat = 2 ^ 31 * (w.toNat / 2 ^ 31) := by
  have hlt : w.toNat / 2 ^ 31 < 2 := by
    have h := w.isLt
    omega
  rw [BitVec.toNat_and, show topBit.toNat = 2 ^ 31 from rfl, Nat.and_two_pow, Nat.testBit_eq_decide_div_mod_eq]
  generalize w.toNat / 2 ^ 31 = k at hlt ⊢
  match k with
  | 0 => rfl
  | 1 => rfl

theorem toNat_and_not_topBit (w : Word) : (w &&& ~~~topBit).toNat = w.toNat % 2 ^ 31 := by
  rw [BitVec.toNat_and, show (~~~topBit).toNat = 2 ^ 31 - 1 from rfl, Nat.and_two_pow_sub_one_eq_mod]

theorem and_topBit_eq_zero_iff (w : Word) : w &&& topBit = 0 ↔ w.toNat < 2 ^ 31 := by
  rw [← BitVec.toNat_inj, toNat_and_topBit, show (0 : Word).toNat = 0 from rfl]
  omega

/-- A header that is not zero has a length or is the last one. -/
theorem and_topBit_ne_zero {w : Word} (hz : w ≠ 0) (hl : w.toNat % 2 ^ 31 = 0) : ¬ w &&& topBit = 0 := by
  intro ht
  have hlt := (and_topBit_eq_zero_iff w).mp ht
  exact hz (BitVec.eq_of_toNat_eq (show w.toNat = 0 by omega))

theorem toNat_header (last : Bool) {n : Nat} (h : n < 2 ^ 31) :
    (header last n).toNat = if last then 2 ^ 31 + n else n := by
  rw [header, BitVec.toNat_ofNat, Nat.mod_eq_of_lt]
  split <;> omega

theorem header_low (last : Bool) {n : Nat} (h : n < 2 ^ 31) : (header last n &&& ~~~topBit).toNat = n := by
  rw [toNat_and_not_topBit, toNat_header last h]
  split <;> omega

theorem header_top (last : Bool) {n : Nat} (h : n < 2 ^ 31) : header last n &&& topBit = 0 ↔ last = false := by
  rw [and_topBit_eq_zero_iff, toNat_header last h]
  cases last with
  | true => exact iff_of_false (by rw [if_pos rfl]; omega) (by intro hl; cases hl)
  | false => exact iff_of_true (by rw [if_neg (by intro hl; cases hl)]; exact h) rfl

/-- Only an empty fragment that is not the last has a header of zero. -/
theorem header_eq_zero_iff (last : Bool) {n : Nat} (h : n < 2 ^ 31) : header last n = 0 ↔ last = false ∧ n = 0 := by
  rw [← BitVec.toNat_inj, toNat_header last h, show (0 : Word).toNat = 0 from rfl]
  cases last with
  | true => exact iff_of_false (by rw [if_pos rfl]; omega) (by rintro ⟨hl, -⟩; cases hl)
  | false =>
    rw [if_neg (by intro hl; cases hl)]
    exact ⟨fun hn => ⟨rfl, hn⟩, fun hn => hn.2⟩

end Wire

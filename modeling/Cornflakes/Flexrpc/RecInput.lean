import Cornflakes.Wire.Run
import Cornflakes.Flexrpc.Rec

/-!
# Consuming input

`skip_input_bytes` moves over the window by whole runs of bytes. In any state of a stream this comes to the same as
calling `get_input_bytes` for one byte after another (`skip_eq_calls`).
-/

set_option autoImplicit false

namespace Cornflakes.Flexrpc

open Wire

variable {ρ ω : Type}

/-- A peer that sends zeros without end. -/
def zeros : Transport Unit Unit where
  readit _ n := (List.replicate n 0, n, ())
  length_readit _ n := by rw [List.length_replicate]
  writeit _ _ := (0, ())

/-- A stream with eight bytes left, in the window as in the fragment. -/
def eightLeft : RecStrm Unit Unit :=
  { flexxdrrecCreate 0 0 0 (fun _ => 0) () () (fun _ => 0) with inFinger := 3992, inBoundary := 4000, fbtbc := 8 }

/-- The same struct, memory and transport: all but what the model has beside the struct of the stream. -/
def RecStrm.Same (s s' : RecStrm ρ ω) : Prop := ∃ locals trace, s' = { s with locals := locals, trace := trace }

theorem RecStrm.Same.refl (s : RecStrm ρ ω) : s.Same s := ⟨s.locals, s.trace, rfl⟩

theorem RecStrm.Same.symm {s s' : RecStrm ρ ω} (h : s.Same s') : s'.Same s := by
  obtain ⟨l, t, rfl⟩ := h
  exact ⟨s.locals, s.trace, rfl⟩

theorem RecStrm.Same.trans {s s' s'' : RecStrm ρ ω} (h : s.Same s') (h' : s'.Same s'') : s.Same s'' := by
  obtain ⟨l, t, rfl⟩ := h
  obtain ⟨l', t', rfl⟩ := h'
  exact ⟨l', t', rfl⟩

/-- The window is what the pointers leave, when they are in order and not too far apart. -/
theorem window_eq_sub {s : RecStrm ρ ω} (h : s.inFinger ≤ s.inBoundary) (hd : s.inBoundary - s.inFinger < 2 ^ 31) :
    s.window = s.inBoundary - s.inFinger := by
  unfold RecStrm.window toInt
  omega

/-- A refill leaves a window that is not empty. -/
theorem window_fill_pos {T : Transport ρ ω} {s s' : RecStrm ρ ω} (h : fillInputBuf T s = (true, s')) :
    0 < s'.window := by
  rw [window_fill T h]
  exact Int.succ_ofNat_pos 3

namespace RecStrm.Same

variable {T : Transport ρ ω} {s s' : RecStrm ρ ω}

theorem window (h : s.Same s') : s'.window = s.window := by
  obtain ⟨l, t, rfl⟩ := h
  rfl

theorem take (h : s.Same s') (n : Int) : (s.take n).Same (s'.take n) := by
  obtain ⟨l, t, rfl⟩ := h
  exact ⟨l, _, rfl⟩

theorem take_zero (s : RecStrm ρ ω) : (s.take 0).Same s :=
  ⟨s.locals, s.trace, by simp only [RecStrm.take, Int.add_zero]⟩

theorem take_take (s : RecStrm ρ ω) (m n : Int) : ((s.take m).take n).Same (s.take (m + n)) :=
  ⟨s.locals, (s.take (m + n)).trace, by simp only [RecStrm.take, Int.add_assoc]⟩

/-- What is refilled depends on the struct, the memory and the transport alone. -/
theorem fill (h : s.Same s') : Agree RecStrm.Same (fillInputBuf T s) (fillInputBuf T s') := by
  obtain ⟨l, t, rfl⟩ := h
  unfold fillInputBuf
  dsimp only
  split
  · exact ⟨rfl, l, _, rfl⟩
  · exact ⟨rfl, l, _, rfl⟩

end RecStrm.Same

section Skip

variable (T : Transport ρ ω) {s s' : RecStrm ρ ω}

/-- `get_input_bytes` for one byte. -/
def getInputByte (s : RecStrm ρ ω) : Bool × RecStrm ρ ω :=
  let (ok, _, s) := getInputBytes T s 1
  (ok, s)

/-! ## One byte -/

theorem getInputByte_refused (hw : s.window = 0) (hf : fillInputBuf T s = (false, s')) :
    getInputByte T s = (false, s') := by
  unfold getInputByte getInputBytes
  simp [hw, hf]

/-- After a refill the byte is taken from the new window. -/
theorem getInputByte_refill (hw : s.window = 0) (hf : fillInputBuf T s = (true, s')) :
    getInputByte T s = getInputByte T s' := by
  have hw' : s'.window ≠ 0 := Int.ne_of_gt (window_fill_pos hf)
  unfold getInputByte getInputBytes
  simp [hw, hf, hw']

theorem getInputByte_next (hw : s.window ≠ 0) :
    getInputByte T s = (true, s.take (if 1 < s.window then 1 else s.window)) := by
  unfold getInputByte getInputBytes inputCopy
  simp [hw]

theorem getInputByte_take (hw : 0 < s.window) : getInputByte T s = (true, s.take 1) := by
  have hc : (if 1 < s.window then 1 else s.window) = 1 := by
    split <;> omega
  rw [getInputByte_next T (by omega), hc]

theorem getInputByte_same (h : s.Same s') : Agree RecStrm.Same (getInputByte T s) (getInputByte T s') := by
  by_cases hw : s.window = 0
  · have hf := h.fill (T := T)
    rcases hs : fillInputBuf T s with ⟨ok, s₁⟩
    rcases hs' : fillInputBuf T s' with ⟨ok', s₁'⟩
    rw [hs, hs'] at hf
    obtain ⟨hok, h₁⟩ := hf
    obtain rfl : ok = ok' := hok
    cases ok with
    | false =>
      rw [getInputByte_refused T hw hs, getInputByte_refused T (h.window.trans hw) hs']
      exact ⟨rfl, h₁⟩
    | true =>
      have hw₁ : s₁.window ≠ 0 := Int.ne_of_gt (window_fill_pos hs)
      rw [getInputByte_refill T hw hs, getInputByte_refill T (h.window.trans hw) hs', getInputByte_next T hw₁,
        getInputByte_next T (by rwa [h₁.window]), h₁.window]
      exact ⟨rfl, h₁.take _⟩
  · rw [getInputByte_next T hw, getInputByte_next T (by rwa [h.window]), h.window]
    exact ⟨rfl, h.take _⟩

/-- The bytes of the window are taken one by one as they are taken together. -/
theorem calls_take (j k : Nat) (hj : j ≤ s.window) :
    Agree RecStrm.Same (calls (getInputByte T) k (s.take j)) (calls (getInputByte T) (j + k) s) := by
  induction j generalizing s with
  | zero =>
    rw [Nat.zero_add]
    exact Agree.calls (fun _ _ => getInputByte_same T) k (.take_zero s)
  | succ j ih =>
    have hw : (s.take 1).window = s.window - 1 := window_take s (by omega) (by omega)
    have hs : ((s.take 1).take j).Same (s.take (j + 1 : Nat)) := by
      have := RecStrm.Same.take_take s 1 j
      rwa [Int.add_comm] at this
    rw [Nat.succ_add, calls, getInputByte_take T (by omega), andNext_true]
    exact (Agree.calls (fun _ _ => getInputByte_same T) k hs.symm).trans (fun _ _ _ => .trans) (ih (by omega))

/-! ## Any number of bytes -/

/-- Skipping, from a state whose pointers are not crossed. -/
theorem skip_agrees (cnt : Int) (hw : 0 ≤ s.window) :
    Agree RecStrm.Same (skipInputBytes T s cnt) (calls (getInputByte T) cnt.toNat s) := by
  induction s, cnt using skipInputBytes.induct T with
  | case1 s cnt hc h0 s' hf =>
    obtain ⟨n, hn⟩ := Nat.exists_eq_succ_of_ne_zero (show cnt.toNat ≠ 0 by omega)
    rw [skipInput_refused hc h0 hf, hn, calls, getInputByte_refused T h0 hf]
    exact ⟨rfl, .refl s'⟩
  | case2 s cnt hc h0 s' hf ih =>
    obtain ⟨n, hn⟩ := Nat.exists_eq_succ_of_ne_zero (show cnt.toNat ≠ 0 by omega)
    have hcalls : calls (getInputByte T) cnt.toNat s = calls (getInputByte T) cnt.toNat s' := by
      rw [hn, calls, calls, getInputByte_refill T h0 hf]
    rw [skipInput_refill hc h0 hf, hcalls]
    exact ih (Int.le_of_lt (window_fill_pos hf))
  | case3 s cnt hc h0 s' cnt' hn ih =>
    obtain ⟨rfl, rfl⟩ := Prod.mk.inj hn
    generalize hcur : (if cnt < s.window then cnt else s.window) = current at *
    have hpos : 0 < current ∧ current ≤ cnt ∧ current ≤ s.window := by
      split at hcur <;> omega
    have hwin : (s.take current).window = s.window - current := window_take s (by omega) (by omega)
    have hj : (current.toNat : Int) = current := by omega
    have hcalls := calls_take T current.toNat (cnt - current).toNat (hj.trans_le hpos.2.2)
    rw [hj, show current.toNat + (cnt - current).toNat = cnt.toNat by omega] at hcalls
    rw [skipInput_next hc h0 hn]
    exact (ih (by omega)).trans (fun _ _ _ => .trans) hcalls
  | case4 s cnt hc =>
    rw [skipInput_done hc, show cnt.toNat = 0 by omega, calls]
    exact ⟨rfl, .refl s⟩

theorem skip_window (cnt : Int) (hw : 0 ≤ s.window) (hs : skipInputBytes T s cnt = (true, s')) : 0 ≤ s'.window := by
  induction s, cnt using skipInputBytes.induct T with
  | case1 s cnt hc h0 s₁ hf =>
    rw [skipInput_refused hc h0 hf] at hs
    cases hs
  | case2 s cnt hc h0 s₁ hf ih =>
    rw [skipInput_refill hc h0 hf] at hs
    exact ih (Int.le_of_lt (window_fill_pos hf)) hs
  | case3 s cnt hc h0 s₁ cnt' hn ih =>
    rw [skipInput_next hc h0 hn] at hs
    obtain ⟨rfl, rfl⟩ := Prod.mk.inj hn
    refine ih ?_ hs
    rw [window_take s]
    · split <;> omega
    · split <;> omega
    · split <;> omega
  | case4 s cnt hc =>
    rw [skipInput_done hc] at hs
    cases hs
    exact hw

/-- **Skipping bytes is reading them one after another**, up to the first failure; so bytes are skipped in any parts. -/
theorem skip_eq_calls (h : s.inFinger ≤ s.inBoundary) (hd : s.inBoundary - s.inFinger < 2 ^ 31) :
    (∀ cnt : Int, Agree RecStrm.Same (skipInputBytes T s cnt) (calls (getInputByte T) cnt.toNat s)) ∧
      ∀ m n : Nat, Agree RecStrm.Same (skipInputBytes T s (m + n : Nat))
        (andNext (skipInputBytes T s m) fun s => skipInputBytes T s n) := by
  have hw : 0 ≤ s.window := by
    rw [window_eq_sub h hd]
    omega
  refine ⟨fun cnt => skip_agrees T cnt hw, fun m n => ?_⟩
  have hm := skip_agrees T m hw
  have hmn := skip_agrees T (m + n : Nat) hw
  rw [Int.toNat_natCast] at hm
  rw [Int.toNat_natCast, calls_add] at hmn
  -- After `m` bytes were skipped with TRUE the pointers are still not crossed.
  have hparts := hm.andNext fun s₁ s₁' hs h₁ =>
    (skip_agrees T n (skip_window T m hw hs)).trans (fun _ _ _ => .trans)
      (Agree.calls (fun _ _ => getInputByte_same T) n h₁)
  exact hmn.trans (fun _ _ _ => .trans) (hparts.symm fun _ _ => .symm)

end Skip

theorem skip_eq_calls_eight :
    (∀ cnt : Int, Agree RecStrm.Same (skipInputBytes zeros eightLeft cnt)
        (calls (getInputByte zeros) cnt.toNat eightLeft)) ∧
      ∀ m n : Nat, Agree RecStrm.Same (skipInputBytes zeros eightLeft (m + n : Nat))
        (andNext (skipInputBytes zeros eightLeft m) fun s => skipInputBytes zeros s n) :=
  skip_eq_calls zeros (by decide) (by decide)

end Cornflakes.Flexrpc

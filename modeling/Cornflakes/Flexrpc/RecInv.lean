import Cornflakes.Wire.Run
import Cornflakes.Flexrpc.Rec

/-!
# The representation invariant of record streams

A `RecOp` is one call on a record stream. Whatever the calls are and whatever `readit` and `writeit` do, the pointers
stay in order (`Places.Sound`), what is stored as output stays in the output area, and what is consumed as input lies in
the input area (`recStream_sound`). Each function of the source keeps the invariant because its pieces do: storing output
in the area (`RecInv.put`), moving within the window (`RecInv.take`), refilling it (`RecInv.fill`). For the receiving
functions this is said once, of any property that the pieces keep (`TakeInv`).
-/

set_option autoImplicit false

namespace Cornflakes.Flexrpc

open Wire

variable {ρ ω : Type}

/-! ## Calls -/

/-- A call with its arguments; lengths are `u_int`. -/
inductive RecOp
  | getlong
  | putlong (lp : ULong)
  | getbytes (len : Word)
  | putbytes (addr : List Byte) (h : addr.length < 2 ^ 32)
  | endofrecord (sendnow : Bool)
  | skiprecord

/-- A call that receives. -/
inductive TakeOp
  | getlong
  | getbytes (len : Word)
  | skiprecord

def TakeOp.op : TakeOp → RecOp
  | getlong => .getlong
  | getbytes len => .getbytes len
  | skiprecord => .skiprecord

/-- What a call gives its caller. -/
inductive RecResult
  | long (lp : Option ULong)
  | bytes (ok : Bool) (cells : List (Option Byte))
  | bool (ok : Bool)
deriving DecidableEq

/-- The call, where `flexxdrrec_skiprecord` may go `fuel` rounds; `none` when it does not return. -/
def RecOp.call (fuel : Nat) (T : Transport ρ ω) (s : RecStrm ρ ω) : RecOp → Option (RecResult × RecStrm ρ ω)
  | getlong => let (lp, s) := flexxdrrecGetlong T s; some (.long lp, s)
  | putlong lp => let (ok, s) := flexxdrrecPutlong T s lp; some (.bool ok, s)
  | getbytes len => let (ok, cells, s) := flexxdrrecGetbytes T s len.toNat; some (.bytes ok cells, s)
  | putbytes addr _ => (flexxdrrecPutbytes T s addr).map fun r => (.bool r.1, r.2)
  | endofrecord sendnow => let (ok, s) := flexxdrrecEndofrecord T s sendnow; some (.bool ok, s)
  | skiprecord => (flexxdrrecSkiprecord T s fuel).map fun r => (.bool r.1, r.2)

/-- The stream after a call. -/
def recStep (fuel : Nat) (T : Transport ρ ω) (s : RecStrm ρ ω) (o : RecOp) : Option (RecStrm ρ ω) :=
  (o.call fuel T s).map Prod.snd

/-! ## The invariant -/

/-- The pointers and counts of a stream. -/
structure Places where
  outBase : Int
  outFinger : Int
  outBoundary : Int
  fragHeader : Int
  inSize : Int
  inBase : Int
  inFinger : Int
  inBoundary : Int
  fbtbc : Int

/-- They are in order. The window is never larger than what `fill_input_buf` asks for. -/
structure Places.Sound (p : Places) : Prop where
  header : p.outBase ≤ p.fragHeader
  finger : p.fragHeader + 4 ≤ p.outFinger
  room : p.outFinger ≤ p.outBoundary
  outSize : p.outBoundary - p.outFinger < 2 ^ 32
  inSize : 4 ≤ p.inSize
  base : p.inBase ≤ p.inFinger
  window : p.inFinger ≤ p.inBoundary
  ahead : p.inBoundary ≤ p.inFinger + 4
  inEnd : p.inBoundary ≤ p.inBase + p.inSize
  fbtbc_nonneg : 0 ≤ p.fbtbc
  fbtbc_lt : p.fbtbc < 2 ^ 31

/-- The access stays in its area. -/
def Places.Allows (p : Places) : Access → Prop
  | .put addr n => p.outBase ≤ addr ∧ addr + n ≤ p.outBoundary
  | .fill addr n => p.inBase ≤ addr ∧ addr + n ≤ p.inBase + p.inSize
  | .take addr n => p.inBase ≤ addr ∧ addr + n ≤ p.inBase + p.inSize

def RecStrm.places (s : RecStrm ρ ω) : Places :=
  ⟨s.outBase, s.outFinger, s.outBoundary, s.fragHeader, s.inSize, s.inBase, s.inFinger, s.inBoundary, s.fbtbc⟩

def RecInv (s : RecStrm ρ ω) : Prop := s.places.Sound ∧ ∀ a ∈ s.trace, s.places.Allows a

/-- One more access that stays in its area. -/
theorem allows_append {p : Places} {as : List Access} {a : Access} (h : ∀ b ∈ as, p.Allows b) (ha : p.Allows a) :
    ∀ b ∈ as ++ [a], p.Allows b := by
  intro b hb
  rcases List.mem_append.mp hb with hb | hb
  · exact h b hb
  · rw [List.mem_singleton.mp hb]
    exact ha

namespace RecInv

variable {s s' : RecStrm ρ ω} (T : Transport ρ ω)

theorem put (h : RecInv s) (addr : Int) (bs : List Byte) (h₁ : s.outBase ≤ addr)
    (h₂ : addr + bs.length ≤ s.outBoundary) : RecInv (s.put addr bs) :=
  ⟨h.1, allows_append h.2 ⟨h₁, h₂⟩⟩

/-- The window does not wrap in the cast to `int`. -/
theorem window_eq (h : RecInv s) : s.window = s.inBoundary - s.inFinger := by
  have hw : s.inFinger ≤ s.inBoundary := h.1.window
  have ha : s.inBoundary ≤ s.inFinger + 4 := h.1.ahead
  unfold RecStrm.window toInt
  omega

theorem take (h : RecInv s) {n : Int} (h₀ : 0 ≤ n) (h₁ : n ≤ s.window) : RecInv (s.take n) := by
  rw [h.window_eq] at h₁
  have hb : s.inBase ≤ s.inFinger := h.1.base
  have hw : s.inFinger ≤ s.inBoundary := h.1.window
  have ha : s.inBoundary ≤ s.inFinger + 4 := h.1.ahead
  have he : s.inBoundary ≤ s.inBase + s.inSize := h.1.inEnd
  have hn : (toSize n : Int) = n := by
    unfold toSize
    omega
  have hb' : s.inBase ≤ s.inFinger + n := by omega
  have hw' : s.inFinger + n ≤ s.inBoundary := by omega
  have ha' : s.inBoundary ≤ s.inFinger + n + 4 := by omega
  have ht : s.inFinger + (toSize n : Int) ≤ s.inBase + s.inSize := by omega
  exact ⟨{ h.1 with base := hb', window := hw', ahead := ha' }, allows_append h.2 ⟨hb, ht⟩⟩

theorem fill (h : RecInv s) {ok : Bool} (hf : fillInputBuf T s = (ok, s')) : RecInv s' := by
  have hi : 4 ≤ s.inSize := h.1.inSize
  have hl := T.length_readit s.reader 4
  unfold fillInputBuf at hf
  rcases hr : T.readit s.reader 4 with ⟨bs, len, r⟩
  simp only [hr] at hf hl
  have hb : s.inBase + (bs.length : Int) ≤ s.inBase + s.inSize := by omega
  have ha : s.places.Allows (.fill s.inBase bs.length) := ⟨Int.le_refl _, hb⟩
  split at hf
  next =>
    cases hf
    exact ⟨h.1, allows_append h.2 ha⟩
  next =>
    cases hf
    have hw : s.inBase ≤ s.inBase + 4 := by omega
    have he : s.inBase + 4 ≤ s.inBase + s.inSize := by omega
    exact ⟨{ h.1 with base := Int.le_refl _, window := hw, ahead := Int.le_refl _, inEnd := he },
      allows_append h.2 ha⟩

theorem setFbtbc (h : RecInv s) {n : Int} (h₀ : 0 ≤ n) (h₁ : n < 2 ^ 31) : RecInv { s with fbtbc := n } :=
  ⟨{ h.1 with fbtbc_nonneg := h₀, fbtbc_lt := h₁ }, h.2⟩

end RecInv

/-! ## Receiving -/

/-- A property that the pieces of the receiving functions keep. -/
structure TakeInv (T : Transport ρ ω) (Inv : RecStrm ρ ω → Prop) : Prop where
  sound : ∀ {s}, Inv s → RecInv s
  fill : ∀ {s s' ok}, Inv s → fillInputBuf T s = (ok, s') → Inv s'
  take : ∀ {s} {n : Int}, Inv s → 0 ≤ n → n ≤ s.window → Inv (s.take n)
  setFbtbc : ∀ {s} {n : Int}, Inv s → 0 ≤ n → n < 2 ^ 31 → Inv { s with fbtbc := n }
  setLastFrag : ∀ {s} (b : Bool), Inv s → Inv { s with lastFrag := b }
  enter : ∀ {s : RecStrm ρ ω}, Inv s → Inv s.enter

theorem RecInv.takeInv (T : Transport ρ ω) : TakeInv T RecInv where
  sound h := h
  fill h hf := h.fill T hf
  take h h₀ h₁ := h.take h₀ h₁
  setFbtbc h h₀ h₁ := h.setFbtbc h₀ h₁
  setLastFrag _ h := h
  enter h := h

theorem getInputBytes_fbtbc {T : Transport ρ ω} {s s' : RecStrm ρ ω} {ok : Bool} {bs : List Byte} {len : Int}
    (hg : getInputBytes T s len = (ok, bs, s')) : s'.fbtbc = s.fbtbc := by
  have hfill {s₁ : RecStrm ρ ω} {ok₁ : Bool} (hf : fillInputBuf T s = (ok₁, s₁)) : s₁.fbtbc = s.fbtbc := by
    unfold fillInputBuf at hf
    simp only at hf
    split at hf
    · cases hf
      rfl
    · cases hf
      rfl
  unfold getInputBytes at hg
  split at hg
  · split at hg
    · rcases hf : fillInputBuf T s with ⟨ok₁, s₁⟩
      have h₁ := hfill hf
      simp only [hf] at hg
      cases ok₁ with
      | false =>
        cases hg
        exact h₁
      | true =>
        cases hg
        exact h₁
    · cases hg
      rfl
  · cases hg
    rfl

/-! The receiving functions keep what their pieces keep. -/

namespace TakeInv

variable {T : Transport ρ ω} {Inv : RecStrm ρ ω → Prop} {s s' : RecStrm ρ ω} {ok : Bool}

theorem copy (K : TakeInv T Inv) (h : Inv s) {bs : List Byte} {len : Int} (hl : len > 0)
    (hc : inputCopy s len = (ok, bs, s')) : Inv s' := by
  have hw : s.inFinger ≤ s.inBoundary := (K.sound h).1.window
  have hwin := (K.sound h).window_eq
  cases hc
  apply K.take h
  · split <;> omega
  · split <;> omega

theorem getInputBytes (K : TakeInv T Inv) (h : Inv s) {bs : List Byte} {len : Int}
    (hg : getInputBytes T s len = (ok, bs, s')) : Inv s' := by
  unfold Flexrpc.getInputBytes at hg
  split at hg
  next hl =>
    split at hg
    next =>
      rcases hf : fillInputBuf T s with ⟨ok₁, s₁⟩
      have h₁ := K.fill h hf
      simp only [hf] at hg
      cases ok₁ with
      | false =>
        cases hg
        exact h₁
      | true => exact K.copy h₁ hl hg
    next => exact K.copy h hl hg
  next =>
    cases hg
    exact h

theorem setInputFragment (K : TakeInv T Inv) (h : Inv s) (hg : setInputFragment T s = (ok, s')) : Inv s' := by
  unfold Flexrpc.setInputFragment at hg
  rcases hi : Flexrpc.getInputBytes T s.enter 4 with ⟨ok₁, bs, s₁⟩
  have h₁ := K.getInputBytes (K.enter h) hi
  simp only [hi] at hg
  cases ok₁ with
  | false =>
    cases hg
    exact h₁
  | true =>
    simp only [Bool.not_true, Bool.false_eq_true, if_false] at hg
    generalize overlay (bs.map some) (s.locals 0) = header at hg
    have h₂ := K.setLastFrag (if header &&& lastFragBit = 0 then false else true) h₁
    split at hg
    next =>
      cases hg
      exact h₂
    next =>
      cases hg
      have hlow : (header &&& ~~~lastFragBit).toNat = header.toNat % 2 ^ 31 := toNat_and_not_topBit header
      exact K.setFbtbc h₂ (Int.natCast_nonneg _) (by omega)

theorem getbytesCopy (K : TakeInv T Inv) (h : Inv s) {cells : List (Option Byte)} {len len' : Nat}
    (hg : getbytesCopy T s len = (ok, cells, len', s')) : Inv s' := by
  have h₀ : 0 ≤ s.fbtbc := (K.sound h).1.fbtbc_nonneg
  have h₁ : s.fbtbc < 2 ^ 31 := (K.sound h).1.fbtbc_lt
  have hu : (toUInt s.fbtbc : Int) = s.fbtbc := by
    unfold toUInt
    omega
  unfold Flexrpc.getbytesCopy at hg
  generalize hn : (if len < toUInt s.fbtbc then len else toUInt s.fbtbc) = current at hg
  rcases hi : Flexrpc.getInputBytes T s (toInt current) with ⟨ok₁, bs, s₁⟩
  have hs := K.getInputBytes h hi
  have hb := getInputBytes_fbtbc hi
  simp only [hn, hi] at hg
  cases ok₁ with
  | false =>
    cases hg
    exact hs
  | true =>
    cases hg
    apply K.setFbtbc hs
    · rw [hb]
      split at hn <;> omega
    · rw [hb]
      omega

theorem getbytes (K : TakeInv T Inv) (h : Inv s) (len : Nat) : Inv (flexxdrrecGetbytes T s len).2.2 := by
  induction s, len using flexxdrrecGetbytes.induct T with
  | case1 s len hl hc hlast =>
    rw [recGetbytes_last hl hc hlast]
    exact h
  | case2 s len hl hc hlast s' hf =>
    rw [recGetbytes_refused hl hc hlast hf]
    exact K.setInputFragment h hf
  | case3 s len hl hc hlast s' hf ih =>
    rw [recGetbytes_open hl hc hlast hf]
    exact ih (K.setInputFragment h hf)
  | case4 s len hl hc cells len' s' hf =>
    rw [recGetbytes_cut hl hc hf]
    exact K.getbytesCopy h hf
  | case5 s len hl hc cells len' s' hf _ _ _ _ ih =>
    rw [recGetbytes_next hl hc hf]
    exact ih (K.getbytesCopy h hf)
  | case6 s len hl =>
    rw [flexxdrrecGetbytes, if_neg hl]
    exact h

theorem getlong (K : TakeInv T Inv) (h : Inv s) : Inv (flexxdrrecGetlong T s).2 := by
  unfold flexxdrrecGetlong
  split
  next hg =>
    have hlt : s.fbtbc < 2 ^ 31 := (K.sound h).1.fbtbc_lt
    have hwin := (K.sound h).window_eq
    have ht : Inv (s.take 4) := K.take h (by omega) (by omega)
    exact K.setFbtbc ht (Int.sub_nonneg_of_le hg.1) (by omega)
  next =>
    have hb := K.getbytes (K.enter h) 4
    rcases hr : flexxdrrecGetbytes T s.enter 4 with ⟨ok, cells, s'⟩
    rw [hr] at hb
    simp only
    cases ok with
    | false => exact hb
    | true => exact hb

theorem skip (K : TakeInv T Inv) (h : Inv s) (cnt : Int) : Inv (skipInputBytes T s cnt).2 := by
  induction s, cnt using skipInputBytes.induct T with
  | case1 s cnt hc hw s' hf =>
    rw [skipInput_refused hc hw hf]
    exact K.fill h hf
  | case2 s cnt hc hw s' hf ih =>
    rw [skipInput_refill hc hw hf]
    exact ih (K.fill h hf)
  | case3 s cnt hc hw s' cnt' hf ih =>
    rw [skipInput_next hc hw hf]
    apply ih
    have hwin := (K.sound h).window_eq
    have hle : s.inFinger ≤ s.inBoundary := (K.sound h).1.window
    cases hf
    apply K.take h
    · split <;> omega
    · split <;> omega
  | case4 s cnt hc =>
    rw [skipInput_done hc]
    exact h

theorem skiprecord (K : TakeInv T Inv) (h : Inv s) {fuel : Nat} (hr : flexxdrrecSkiprecord T s fuel = some (ok, s')) :
    Inv s' := by
  induction fuel generalizing s with
  | zero => cases hr
  | succ fuel ih =>
    by_cases hg : s.fbtbc > 0 ∨ s.lastFrag = false
    · have h₁ := K.skip h s.fbtbc
      rcases hs : skipInputBytes T s s.fbtbc with ⟨ok₁, s₁⟩
      rw [hs] at h₁
      have h₂ : Inv { s₁ with fbtbc := 0 } := K.setFbtbc h₁ (Int.le_refl 0) (by omega)
      cases ok₁ with
      | false =>
        rw [recSkiprecord_refused hg hs] at hr
        cases hr
        exact h₁
      | true =>
        cases hl : s₁.lastFrag with
        | true =>
          rw [recSkiprecord_last hg hs hl] at hr
          exact ih h₂ hr
        | false =>
          rcases hf : Flexrpc.setInputFragment T { s₁ with fbtbc := 0 } with ⟨ok₂, s₂⟩
          have h₃ := K.setInputFragment h₂ hf
          cases ok₂ with
          | false =>
            rw [recSkiprecord_closed hg hs hl hf] at hr
            cases hr
            exact h₃
          | true =>
            rw [recSkiprecord_open hg hs hl hf] at hr
            exact ih h₃ hr
    · rw [recSkiprecord_done hg] at hr
      cases hr
      exact K.setLastFrag false h

/-- Every call that receives keeps it. -/
theorem call (K : TakeInv T Inv) (h : Inv s) {fuel : Nat} {o : TakeOp} {r : RecResult}
    (hc : o.op.call fuel T s = some (r, s')) : Inv s' := by
  cases o with
  | getlong =>
    cases hc
    exact K.getlong h
  | getbytes len =>
    cases hc
    exact K.getbytes h len.toNat
  | skiprecord =>
    obtain ⟨⟨ok, s₁⟩, hp, he⟩ := Option.map_eq_some_iff.mp hc
    cases he
    exact K.skiprecord h hp

end TakeInv

/-! ## Sending -/

namespace RecInv

variable {s s' : RecStrm ρ ω} (T : Transport ρ ω)

theorem setFragSent (h : RecInv s) (b : Bool) : RecInv { s with fragSent := b } := h

theorem flush (h : RecInv s) (eor : Bool) : RecInv (flushOut T s eor).2 := by
  have hf : s.fragHeader + 4 ≤ s.outFinger := h.1.finger
  have hr : s.outFinger ≤ s.outBoundary := h.1.room
  exact h.put s.fragHeader (toBytes _) h.1.header (by rw [length_toBytes]; omega)

theorem putlong (h : RecInv s) (lp : ULong) : RecInv (flexxdrrecPutlong T s lp).2 := by
  have hh : s.outBase ≤ s.fragHeader := h.1.header
  have hf : s.fragHeader + 4 ≤ s.outFinger := h.1.finger
  unfold flexxdrrecPutlong
  dsimp only
  split
  next hg =>
    -- `flush_out` returns FALSE, so the word is not stored.
    have hs : ({ s with outFinger := s.outFinger + 4 - 4, fragSent := true } : RecStrm ρ ω) =
        { s with fragSent := true } := by rw [Int.add_sub_cancel]
    rw [hs]
    exact flush T (h.setFragSent true) false
  next hg =>
    have hle : s.outFinger + 4 ≤ s.outBoundary := Int.not_lt.mp hg
    exact h.put s.outFinger (toBytes (lp.setWidth 32)) (by omega) hle

/-- The room for output, as `flexxdrrec_putbytes` computes it. -/
theorem toUInt_room (h : RecInv s) : (toUInt (s.outBoundary - s.outFinger) : Int) = s.outBoundary - s.outFinger := by
  have hr : s.outFinger ≤ s.outBoundary := h.1.room
  have hs : s.outBoundary - s.outFinger < 2 ^ 32 := h.1.outSize
  unfold toUInt
  omega

theorem putbytesCopy (h : RecInv s) {addr rest : List Byte} (hc : putbytesCopy s addr = (s', rest)) : RecInv s' := by
  have hh : s.outBase ≤ s.fragHeader := h.1.header
  have hf : s.fragHeader + 4 ≤ s.outFinger := h.1.finger
  have hr : s.outFinger ≤ s.outBoundary := h.1.room
  have hs : s.outBoundary - s.outFinger < 2 ^ 32 := h.1.outSize
  have hu := h.toUInt_room
  generalize hn : min addr.length (toUInt (s.outBoundary - s.outFinger)) = current
  rw [putbytesCopy_eq hn] at hc
  have hcur : (current : Int) ≤ s.outBoundary - s.outFinger := by omega
  have hp : RecInv (s.put s.outFinger (addr.take current)) := by
    refine h.put s.outFinger _ (by omega) ?_
    rw [List.length_take]
    omega
  have hf' : s.fragHeader + 4 ≤ s.outFinger + current := by omega
  have hr' : s.outFinger + current ≤ s.outBoundary := by omega
  have hs' : s.outBoundary - (s.outFinger + current) < 2 ^ 32 := by omega
  obtain ⟨rfl, -⟩ := Prod.mk.inj hc
  exact ⟨{ hp.1 with finger := hf', room := hr', outSize := hs' }, hp.2⟩

theorem putbytes (h : RecInv s) {addr : List Byte} {ok : Bool} (hp : flexxdrrecPutbytes T s addr = some (ok, s')) :
    RecInv s' := by
  induction s, addr using flexxdrrecPutbytes.induct T with
  | case1 s addr ha s₁ rest hc hb s₂ hf =>
    rw [recPutbytes_full ha hc hb] at hp
    cases hp
    have h₁ := h.putbytesCopy hc
    exact flush T (h₁.setFragSent true) false
  | case2 s addr ha s₁ rest hc hb s₂ hf ih => cases (congrArg Prod.fst hf : false = true)
  | case3 s addr ha s₁ rest hc hb hl =>
    rw [recPutbytes_next ha hc hb, if_pos hl] at hp
    cases hp
  | case4 s addr ha s₁ rest hc hb hl ih =>
    rw [recPutbytes_next ha hc hb, if_neg hl] at hp
    exact ih (h.putbytesCopy hc) hp
  | case5 s addr ha =>
    rw [recPutbytes_done ha] at hp
    cases hp
    exact h

theorem endofrecord (h : RecInv s) (sendnow : Bool) : RecInv (flexxdrrecEndofrecord T s sendnow).2 := by
  have hh : s.outBase ≤ s.fragHeader := h.1.header
  have hf : s.fragHeader + 4 ≤ s.outFinger := h.1.finger
  have hs : s.outBoundary - s.outFinger < 2 ^ 32 := h.1.outSize
  unfold flexxdrrecEndofrecord
  split
  next => exact flush T (h.setFragSent false) true
  next hg =>
    have hle : s.outFinger + 4 < s.outBoundary := by
      by_contra hle
      exact hg (Or.inr (Or.inr (by omega)))
    have hp : RecInv (s.put s.fragHeader (toBytes (BitVec.ofInt 32 (s.outFinger - s.fragHeader - 4) ||| lastFragBit))) :=
      h.put s.fragHeader _ hh (by rw [length_toBytes]; omega)
    have hh' : s.outBase ≤ s.outFinger := by omega
    have hr' : s.outFinger + 4 ≤ s.outBoundary := by omega
    have hs' : s.outBoundary - (s.outFinger + 4) < 2 ^ 32 := by omega
    exact ⟨{ hp.1 with header := hh', finger := Int.le_refl _, room := hr', outSize := hs' }, hp.2⟩

/-! ## Runs -/

/-- The least size that `fix_buf_size` gives. -/
theorem fixBufSize_ge (n : Word) : 92 ≤ (fixBufSize n).toNat := by
  have hx (x : Word) (h : 100 ≤ x.toNat) : 92 ≤ (flexxdrRndup x).toNat := by
    have hs : (x - 4 - 1).toNat = x.toNat - 5 := by
      have hlt := x.isLt
      rw [BitVec.toNat_sub, BitVec.toNat_sub, show (1 : Word).toNat = 1 from rfl, show (4 : Word).toNat = 4 from rfl]
      omega
    rw [flexxdrRndup, toNat_and_not_three, hs]
    omega
  unfold fixBufSize
  split
  next => exact hx 4000 (by decide)
  next h => exact hx n (Nat.not_lt.mp fun hlt => h (BitVec.lt_def.mpr hlt))

theorem create (sendsize recvsize : Word) (buf : Int) (mem : Heap Byte) (reader : ρ) (writer : ω)
    (locals : Nat → Word) : RecInv (flexxdrrecCreate sendsize recvsize buf mem reader writer locals) := by
  have hs := (fixBufSize sendsize).isLt
  have hr := fixBufSize_ge recvsize
  refine ⟨⟨Int.le_refl _, ?_, ?_, ?_, ?_, ?_, ?_, ?_, ?_, Int.le_refl _, ?_⟩, ?_⟩
  all_goals simp only [flexxdrrecCreate, RecStrm.places]
  all_goals try omega
  intro a ha
  cases ha

theorem call (h : RecInv s) {fuel : Nat} {o : RecOp} {r : RecResult} (hc : o.call fuel T s = some (r, s')) :
    RecInv s' := by
  cases o with
  | getlong => exact (takeInv T).call (o := .getlong) h hc
  | getbytes len => exact (takeInv T).call (o := .getbytes len) h hc
  | skiprecord => exact (takeInv T).call (o := .skiprecord) h hc
  | putlong lp =>
    cases hc
    exact h.putlong T lp
  | putbytes addr hl =>
    obtain ⟨⟨ok, s₁⟩, hp, he⟩ := Option.map_eq_some_iff.mp hc
    cases he
    exact h.putbytes T hp
  | endofrecord sendnow =>
    cases hc
    exact h.endofrecord T sendnow

theorem step (h : RecInv s) {fuel : Nat} {o : RecOp} (hc : recStep fuel T s o = some s') : RecInv s' := by
  obtain ⟨⟨r, s₁⟩, hr, rfl⟩ := Option.map_eq_some_iff.mp hc
  exact h.call T hr

end RecInv

/-- In every state that is reached from a new stream the invariant holds. -/
theorem recStream_sound (T : Transport ρ ω) (sendsize recvsize : Word) (buf : Int) (mem : Heap Byte) (reader : ρ)
    (writer : ω) (locals : Nat → Word) (fuel : Nat) (ops : List RecOp) (s : RecStrm ρ ω)
    (h : run (recStep fuel T) (flexxdrrecCreate sendsize recvsize buf mem reader writer locals) ops = some s) :
    RecInv s :=
  Keeps.run (fun _ _ _ hs hstep => RecInv.step T hs hstep)
    (RecInv.create sendsize recvsize buf mem reader writer locals) h

/-- A record is opened, a word and two bytes of it are read, and a record is written and flushed. -/
def exchange : List RecOp := [.skiprecord, .getlong, .getbytes 2, .putlong 7, .endofrecord true]

theorem recStream_sound_exchange :
    ∃ s, run (recStep 1 wordPeer) (flexxdrrecCreate 0 0 1 (fun _ => 0) [0x80000006, 0x01020304, 0x05060000] ()
        fun _ => 0) exchange = some s ∧ RecInv s :=
  ⟨_, rfl, recStream_sound wordPeer 0 0 1 (fun _ => 0) [0x80000006, 0x01020304, 0x05060000] () (fun _ => 0) 1 exchange _
    rfl⟩

end Cornflakes.Flexrpc

import Cornflakes.Flexrpc.RecInv
import Cornflakes.Flexrpc.RecSend

/-!
# The two sides of a record stream

A call that receives works on the cells of the window and leaves the sending side alone (`Beside.call`). What a call that
sends stores, and where the bytes are that it hands to `writeit`, depends on the pointers of the sending side only
(`OutSide.effect`, `send_effect`).
-/

set_option autoImplicit false

namespace Cornflakes.Flexrpc

open Wire

variable {ρ ω : Type}

/-- The pointers of the sending side. -/
structure OutSide where
  finger : Int
  boundary : Int
  header : Int
  fragSent : Bool
deriving DecidableEq

def RecStrm.outSide (s : RecStrm ρ ω) : OutSide := ⟨s.outFinger, s.outBoundary, s.fragHeader, s.fragSent⟩

/-! ## Receiving -/

/-- The sending side is the same in both states, and so is the memory beside the cells of the window. -/
structure Beside (s s' : RecStrm ρ ω) : Prop where
  outSide : s'.outSide = s.outSide
  inBase : s'.inBase = s.inBase
  sent : s'.sent = s.sent
  mem : ∀ x, ¬ Heap.Within x s.inBase 4 → s'.mem x = s.mem x

namespace Beside

variable {s s' s'' : RecStrm ρ ω} (T : Transport ρ ω)

theorem refl (s : RecStrm ρ ω) : Beside s s := ⟨rfl, rfl, rfl, fun _ _ => rfl⟩

theorem trans (h : Beside s s') (h' : Beside s' s'') : Beside s s'' := by
  refine ⟨h'.outSide.trans h.outSide, h'.inBase.trans h.inBase, h'.sent.trans h.sent, fun x hx => ?_⟩
  rw [h'.mem x (by rw [h.inBase]; exact hx), h.mem x hx]

theorem fill {ok : Bool} (h : fillInputBuf T s = (ok, s')) : Beside s s' := by
  unfold fillInputBuf at h
  have hl := T.length_readit s.reader 4
  rcases hr : T.readit s.reader 4 with ⟨bs, len, r⟩
  simp only [hr] at h hl
  have hm (x : Int) (hx : ¬ Heap.Within x s.inBase 4) : s.mem.store s.inBase bs x = s.mem x := by
    apply Heap.store_of_not_within
    intro hw
    exact hx ⟨hw.1, by have := hw.2; omega⟩
  split at h
  · cases h
    exact ⟨rfl, rfl, rfl, hm⟩
  · cases h
    exact ⟨rfl, rfl, rfl, hm⟩

/-- The pieces of the receiving functions leave the rest alone. -/
theorem takeInv (s : RecStrm ρ ω) : TakeInv T fun s' => RecInv s' ∧ Beside s s' where
  sound h := h.1
  fill h hf := ⟨h.1.fill T hf, h.2.trans (fill T hf)⟩
  take h h₀ h₁ := ⟨h.1.take h₀ h₁, h.2.trans ⟨rfl, rfl, rfl, fun _ _ => rfl⟩⟩
  setFbtbc h h₀ h₁ := ⟨h.1.setFbtbc h₀ h₁, h.2.trans ⟨rfl, rfl, rfl, fun _ _ => rfl⟩⟩
  setLastFrag _ h := ⟨h.1, h.2.trans ⟨rfl, rfl, rfl, fun _ _ => rfl⟩⟩
  enter h := ⟨h.1, h.2.trans ⟨rfl, rfl, rfl, fun _ _ => rfl⟩⟩

theorem call (h : RecInv s) {fuel : Nat} {o : TakeOp} {r : RecResult} (hc : o.op.call fuel T s = some (r, s')) :
    Beside s s' :=
  ((takeInv T s).call ⟨h, refl s⟩ hc).2

end Beside

/-! ## Sending -/

/-- The pointers and counts of the receiving side, and what it reads from besides its area. -/
def RecStrm.inSide (s : RecStrm ρ ω) : (Int × Int × Int × Int) × Int × Bool × ρ × (Nat → Word) :=
  ((s.inSize, s.inBase, s.inFinger, s.inBoundary), s.fbtbc, s.lastFrag, s.reader, s.locals)

/-- A call that sends. -/
inductive SendOp
  | put (o : PutOp)
  | endofrecord (sendnow : Bool)

def SendOp.op : SendOp → RecOp
  | put o => o.op
  | endofrecord sendnow => .endofrecord sendnow

/-- What a call that sends does: the pointers it leaves, its stores in their order, and the place of the four bytes that
it hands to `writeit`, if it does. -/
structure Effect where
  next : OutSide
  stores : List (Int × List Byte)
  block : Option Int
deriving DecidableEq

namespace OutSide

variable (p : OutSide)

/-- The header that ends a fragment, and the flush after it. -/
def flushed (stores : List (Int × List Byte)) (eor : Bool) : Effect :=
  let eormask : Word := if eor then lastFragBit else 0
  ⟨p, stores ++ [(p.header, toBytes (BitVec.ofInt 32 ((p.finger - p.header) / 4 - 4) ||| eormask))], some p.finger⟩

def effect : SendOp → Effect
  | .put (.putlong lp) =>
    if p.finger + 4 > p.boundary then { p with fragSent := true }.flushed [] false
    else ⟨p, [(p.finger, toBytes (lp.setWidth 32))], none⟩
  | .put (.putbytes addr _) =>
    if addr.length ≤ p.boundary - p.finger then ⟨{ p with finger := p.finger + addr.length }, [(p.finger, addr)], none⟩
    else
      { p with finger := p.boundary, fragSent := true }.flushed
        [(p.finger, addr.take (p.boundary - p.finger).toNat)] false
  | .endofrecord sendnow =>
    if sendnow ∨ p.fragSent ∨ p.finger + 4 ≥ p.boundary then { p with fragSent := false }.flushed [] true
    else
      ⟨{ p with header := p.finger, finger := p.finger + 4 },
        [(p.header, toBytes (BitVec.ofInt 32 (p.finger - p.header - 4) ||| lastFragBit))], none⟩

end OutSide

/-- The stream after a call that sends has the effect of the call. -/
structure Effect.Holds (e : Effect) (s s' : RecStrm ρ ω) : Prop where
  outSide : s'.outSide = e.next
  mem : s'.mem = s.mem.storeAll e.stores
  sent : s'.sent = s.sent ++ (e.block.map fun a => s'.mem.load a 4).toList
  inSide : s'.inSide = s.inSide

section Effects

variable (T : Transport ρ ω) {s s₁ : RecStrm ρ ω}

theorem flush_effect (s : RecStrm ρ ω) (eor : Bool) : (s.outSide.flushed [] eor).Holds s (flushOut T s eor).2 :=
  ⟨rfl, rfl, rfl, rfl⟩

/-- The flush comes after the stores of the call. -/
theorem flush_after {p : OutSide} {ws : List (Int × List Byte)} (h : (Effect.mk p ws none).Holds s s₁) (eor : Bool) :
    (p.flushed ws eor).Holds s (flushOut T s₁ eor).2 := by
  obtain ⟨ho, hm, hs, hi⟩ := h
  have hf := flush_effect T s₁ eor
  rw [ho] at hf
  refine ⟨hf.outSide, ?_, ?_, hf.inSide.trans hi⟩
  · rw [hf.mem, hm]
    exact (Heap.storeAll_append s.mem ws _).symm
  · rw [hf.sent, hs]
    simp [OutSide.flushed]

theorem fragSent_effect (s : RecStrm ρ ω) (b : Bool) :
    (Effect.mk { s.outSide with fragSent := b } [] none).Holds s { s with fragSent := b } :=
  ⟨rfl, rfl, (List.append_nil _).symm, rfl⟩

theorem putlong_effect (s : RecStrm ρ ω) (lp : ULong) :
    (s.outSide.effect (.put (.putlong lp))).Holds s (flexxdrrecPutlong T s lp).2 := by
  unfold flexxdrrecPutlong
  dsimp only
  by_cases hg : s.outFinger + 4 > s.outBoundary
  · have he : s.outSide.effect (.put (.putlong lp)) = _ := if_pos hg
    rw [he, if_pos hg]
    have hs : ({ s with outFinger := s.outFinger + 4 - 4, fragSent := true } : RecStrm ρ ω) =
        { s with fragSent := true } := by rw [Int.add_sub_cancel]
    rw [hs]
    exact flush_after T (fragSent_effect s true) false
  · have he : s.outSide.effect (.put (.putlong lp)) = _ := if_neg hg
    rw [he, if_neg hg]
    exact ⟨rfl, rfl, (List.append_nil _).symm, rfl⟩

theorem endofrecord_effect (s : RecStrm ρ ω) (sendnow : Bool) :
    (s.outSide.effect (.endofrecord sendnow)).Holds s (flexxdrrecEndofrecord T s sendnow).2 := by
  unfold flexxdrrecEndofrecord
  by_cases hg : sendnow = true ∨ s.fragSent = true ∨ s.outFinger + 4 ≥ s.outBoundary
  · have he : s.outSide.effect (.endofrecord sendnow) = _ := if_pos hg
    rw [he, if_pos hg]
    exact flush_after T (fragSent_effect s false) true
  · have he : s.outSide.effect (.endofrecord sendnow) = _ := if_neg hg
    rw [he, if_neg hg]
    exact ⟨rfl, rfl, (List.append_nil _).symm, rfl⟩

theorem putbytes_effect (h : RecInv s) (addr : List Byte) (hl : addr.length < 2 ^ 32) :
    ∃ ok s', flexxdrrecPutbytes T s addr = some (ok, s') ∧ (s.outSide.effect (.put (.putbytes addr hl))).Holds s s' := by
  have hu := h.toUInt_room
  by_cases hfit : (addr.length : Int) ≤ s.outBoundary - s.outFinger
  · have he : s.outSide.effect (.put (.putbytes addr hl)) = _ := if_pos hfit
    rw [he]
    by_cases ha : addr.length > 0
    · exact ⟨true, _, recPutbytes_fits ha (by omega), ⟨rfl, rfl, (List.append_nil _).symm, rfl⟩⟩
    · obtain rfl : addr = [] := List.length_eq_zero_iff.mp (by omega)
      refine ⟨true, s, recPutbytes_done ha, ?_, (Heap.store_nil s.mem _).symm, (List.append_nil _).symm, rfl⟩
      simp [RecStrm.outSide]
  · have he : s.outSide.effect (.put (.putbytes addr hl)) = _ := if_neg hfit
    rw [he]
    have ha : addr.length > 0 := by omega
    have hn : min addr.length (toUInt (s.outBoundary - s.outFinger)) = (s.outBoundary - s.outFinger).toNat := by omega
    have hb : s.outFinger + ((s.outBoundary - s.outFinger).toNat : Int) = s.outBoundary := by omega
    have hc : putbytesCopy s addr = _ := putbytesCopy_eq hn
    rw [hb] at hc
    refine ⟨false, _, recPutbytes_full ha hc ⟨rfl, ?_⟩, ?_⟩
    · rw [List.length_drop]
      omega
    · apply flush_after
      exact ⟨rfl, rfl, (List.append_nil _).symm, rfl⟩

/-- Every call that sends returns and has its effect. -/
theorem send_effect (h : RecInv s) (fuel : Nat) (o : SendOp) :
    ∃ r s', o.op.call fuel T s = some (r, s') ∧ (s.outSide.effect o).Holds s s' := by
  cases o with
  | put o =>
    cases o with
    | putlong lp => exact ⟨_, _, rfl, putlong_effect T s lp⟩
    | putbytes addr hl =>
      obtain ⟨ok, s', hp, he⟩ := putbytes_effect T h addr hl
      refine ⟨.bool ok, s', ?_, he⟩
      rw [SendOp.op, PutOp.op, RecOp.call, hp]
      rfl
  | endofrecord sendnow => exact ⟨_, _, rfl, endofrecord_effect T s sendnow⟩

end Effects

end Cornflakes.Flexrpc
